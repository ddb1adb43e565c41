import Stablebox.Shell.VariablesSteps

/-! Local variables of ash functions: `local` saves a variable and the return from the function
puts it back. -/
namespace Stablebox.Ash.Variables

open Libbb Faulty List Option

structure View where
  value : Option (List UInt8)
  exported : Bool
  readonly : Bool
  deriving DecidableEq

def Flags.view (flags : Flags) (t : Text) : View :=
  ⟨if flags.unset then none else some (argument t),flags.exported,flags.readonly⟩

def View.missing : View := ⟨none,false,false⟩

def State.view (st : State) (name : Name) : View :=
  match st.findvar name.bytes with
  | some (some vp) =>
    match st.vars vp, st.textOf vp with
    | some v,some t => v.flags.view t
    | _,_ => .missing
  | _ => .missing

def Slot.view (lvp : Slot) (st : State) : View :=
  match lvp.text with
  | none => .missing
  | some p =>
    match st.texts p with
    | some t => lvp.flags.view t
    | none => .missing

section Viewing

theorem Valid.view_found (valid : Valid st) (holds : Holds st vp v t) (own : nameOf t.text = name.bytes) :
    st.view name = v.flags.view t := by
  simp [State.view,valid.findvar_found holds own (nameOf_bytes name),holds.1,holds.textOf]

theorem Valid.view_missing (valid : Valid st) (nowhere : ∀ vp v t, Holds st vp v t → nameOf t.text ≠ name.bytes) :
    st.view name = .missing := by
  simp [State.view,valid.findvar_missing (nameOf_bytes name) nowhere]

end Viewing

section Saving

variable {st : State} {name : Name} {vp : Nat} {v : Var}

def State.pinned (st : State) (vp : Nat) (v : Var) : State :=
  st.setVar vp { v with flags := { v.flags with strfixed := true, textfixed := true } }

theorem Valid.push (valid : Valid st)
    (unsaved : ∀ i w, st.vars i = some w → w.flags.owned = true → r.text ≠ some w.text)
    (own : r.flags.owned = true → ∀ j w, st.vars j = some w → r.text = some w.text → j = r.vp)
    (above : ∀ older ∈ st.slots, Over r older)
    (fixed : ∃ v t, Holds st r.vp v t ∧ v.flags.strfixed = true ∧ (∃ name : Name, nameOf t.text = name.bytes) ∧
      ∀ p, r.text = some p → ∃ u, st.texts p = some u ∧ nameOf u.text = nameOf t.text)
    (missing : r.text = none → r.flags = { unset := true })
    (recalled : ∀ v, st.vars r.vp = some v → v.func ≠ none → r.flags.strfixed = true ∧ ∀ p u, r.text = some p →
      st.texts p = some u → v.callback (argument u) = .ok ()) :
    Valid (st.push (.var r)) := { valid with
  unsaved := fun i w there owned => forall_mem_cons.mpr ⟨unsaved i w there owned,valid.unsaved i w there owned⟩
  own := forall_mem_cons.mpr ⟨own,valid.own⟩
  stacked := pairwise_cons.mpr ⟨above,valid.stacked⟩
  fixed := forall_mem_cons.mpr ⟨fixed,valid.fixed⟩
  missing := forall_mem_cons.mpr ⟨missing,valid.missing⟩
  recalled := forall_mem_cons.mpr ⟨recalled,valid.recalled⟩ }

theorem Valid.push_found (valid : Valid st) (holds : Holds st vp v t) (own : nameOf t.text = name.bytes) :
    Valid ((st.pinned vp v).push (.var ⟨vp,v.flags,some v.text⟩)) := by
  have changes := remark_changes valid holds { v.flags with strfixed := true, textfixed := true } (fun _ => rfl)
    (by simp [Flags.owned])
  refine (valid.change changes).push ?_ ?_ ?_ ⟨_,t,changes.after,rfl,⟨name,own⟩,?_⟩ nofun ?_
  · intro i w there owned text
    rcases changes.var_cases there with ⟨_,rfl⟩ | ⟨apart,there⟩
    · simp [Flags.owned] at owned
    · exact apart (valid.alone i vp w v there holds.1 owned (some.inj text).symm)
  · intro owned j w there text
    rcases changes.var_cases there with ⟨rfl,_⟩ | ⟨apart,there⟩
    · rfl
    · exact (valid.alone vp j v w holds.1 there owned (some.inj text)).symm
  · refine fun older listed => ⟨?_,?_⟩
    · rintro rfl
      exact valid.slot_strfixed listed holds.1
    intro p text textOlder
    obtain rfl := some.inj text
    refine ⟨?_,fun owned => valid.own older listed owned vp v holds.1 textOlder⟩
    rw [Bool.eq_false_iff]
    exact fun owned => valid.unsaved vp v holds.1 owned older listed textOlder
  · intro p text
    exact ⟨t,some.inj text ▸ holds.2,rfl⟩
  · intro w there func
    obtain rfl := mem_unique changes.after.1 there
    obtain ⟨fix,accepted⟩ := valid.called vp v t holds func
    refine ⟨fix,fun p u text alive => ?_⟩
    rw [← some.inj text] at alive
    obtain rfl := mem_unique holds.2 alive
    exact accepted

theorem Valid.push_missing (valid : Valid st) (holds : Holds st vp v t) (own : nameOf t.text = name.bytes)
    (fixed : v.flags.strfixed = true) (plain : v.func = none) (first : ∀ r ∈ st.slots, r.vp ≠ vp) :
    Valid (st.push (.var ⟨vp,{ unset := true },none⟩)) := by
  refine valid.push (fun _ _ _ _ => nofun) (fun _ _ _ _ => nofun)
    (fun older listed => ⟨fun same => absurd same.symm (first older listed),fun _ => nofun⟩)
    ⟨v,t,holds,fixed,⟨name,own⟩,fun _ => nofun⟩ (fun _ => rfl) fun w there func => ?_
  obtain rfl := mem_unique holds.1 there
  exact absurd plain func

theorem Frame.push (st : State) (lvp : Localvar) : Frame st (st.push lvp) :=
  ⟨⟨[lvp],rfl⟩,rfl,fun _ _ _ _ => rfl,fun _ _ v t holds => ⟨v,t,holds,rfl⟩,rfl,rfl⟩

theorem Valid.push_options (valid : Valid st) (saved : Options) : Valid (st.push (.options saved)) := { valid with }

/-- A variable has been made local: the newest saved value is the one it had. -/
structure Made (st next : State) (name : Name) (r : Slot) : Prop where
  stack : next.localvars = .var r :: st.localvars
  view : r.view next = st.view name
  named : ∃ w u, Holds next r.vp w u ∧ nameOf u.text = name.bytes
  others : ∀ q ∈ st.slots, (∀ w u, Holds st q.vp w u → nameOf u.text ≠ name.bytes) → q.vp ≠ r.vp

theorem first_missing (valid : Valid st) (value : Option (List UInt8))
    (nowhere : ∀ vp v t, Holds st vp v t → nameOf t.text ≠ name.bytes) :
    ∃ flags : Flags, flags.strfixed = true ∧
      (match value with
        | some _ => setvareq ⟨name.word value,[]⟩ { strfixed := true }
        | none => setvar (name.word value) none { strfixed := true } []).run st =
        some (.ok (),st.add flags none ⟨name.word value,[]⟩) := by
  have strfixed (flags : Flags) (fixed : flags.strfixed = true) : (st.allexport flags).strfixed = true := by
    unfold State.allexport
    split <;> exact fixed
  cases value with
  | some value =>
    exact ⟨_,strfixed _ rfl,setvareq_missing valid rfl (nameOf_word name (some value)) nowhere⟩
  | none =>
    simp only [setvar_named (nameOf_word name none)]
    exact ⟨_,strfixed _ rfl,setvareq_missing valid rfl (nameOf_word name none) nowhere⟩

theorem mklocal_missing (valid : Valid st) (value : Option (List UInt8))
    (nowhere : ∀ vp v t, Holds st vp v t → nameOf t.text ≠ name.bytes) :
    ∃ next r, (mklocal (.var name value)).run st = some (.ok (),next) ∧ Valid next ∧ Frame st next ∧
      Made st next name r := by
  obtain ⟨flags,fixed,set⟩ := first_missing valid value nowhere
  have added := valid.add (t := ⟨name.word value,[]⟩) flags none ((nameOf_word name value).symm ▸ nowhere)
    (fun calls => absurd rfl calls)
  have frame := Frame.add valid flags none ⟨name.word value,[]⟩
  have holds : Holds (st.add flags none ⟨name.word value,[]⟩) st.nextVar ⟨flags,st.nextText,none⟩
      ⟨name.word value,[]⟩ :=
    ⟨Function.update_self _ _ _,Function.update_self _ _ _⟩
  have front : ((st.add flags none ⟨name.word value,[]⟩).vartab (hashvar (name.word value))).head? =
      some st.nextVar := by
    simp [State.add,State.store]
  have first : ∀ r ∈ st.slots, r.vp ≠ st.nextVar := by
    intro r listed same
    obtain ⟨w,_,there,_⟩ := valid.fixed r listed
    exact Nat.ne_of_lt (valid.lt_nextVar there.1) same
  refine ⟨(st.add flags none ⟨name.word value,[]⟩).push (.var ⟨st.nextVar,{ unset := true },none⟩),_,?_,
    added.push_missing holds (nameOf_word name value) fixed rfl first,frame.trans (Frame.push _ _),rfl,?_,
    ⟨_,_,holds,nameOf_word name value⟩,fun q listed _ => first q listed⟩
  · simp only [mklocal,run_bind,run_reading,valid.findvar_missing (nameOf_word name value) nowhere,map_some]
    cases value with
    | none => simp only [run_bind,set,run_reading,front,map_some,run_modify]
    | some value => simp only [run_bind,set,run_reading,front,map_some,run_modify]
  · rw [valid.view_missing nowhere]
    rfl

theorem mklocal_found (valid : Valid st) (holds : Holds st vp v t) (own : nameOf t.text = name.bytes)
    (value : Option (List UInt8)) :
    (∃ message, (mklocal (.var name value)).run st = some (.error message,st.pinned vp v)) ∨
      ∃ next, (mklocal (.var name value)).run st = some (.ok (),next) ∧ Valid next ∧ Frame st next ∧
        Made st next name ⟨vp,v.flags,some v.text⟩ := by
  obtain ⟨marked,frame⟩ := valid.remark holds { v.flags with strfixed := true, textfixed := true }
    (fun _ => rfl) (by simp [Flags.owned])
  have pushed := valid.push_found holds own
  have here : Holds (st.pinned vp v) vp { v with flags := { v.flags with strfixed := true, textfixed := true } } t :=
    ⟨by simp [State.pinned,State.setVar],holds.2⟩
  have others : ∀ q ∈ st.slots, (∀ w u, Holds st q.vp w u → nameOf u.text ≠ name.bytes) → q.vp ≠ vp := by
    rintro q _ other rfl
    exact other v t holds own
  have saved (next : State) (alive : next.texts v.text = some t) :
      Slot.view ⟨vp,v.flags,some v.text⟩ next = st.view name := by
    rw [valid.view_found holds own]
    simp [Slot.view,alive]
  have found := valid.findvar_found holds own (nameOf_word name value)
  cases value with
  | none =>
    refine Or.inr ⟨(st.pinned vp v).push (.var ⟨vp,v.flags,some v.text⟩),?_,pushed,frame.trans (Frame.push _ _),
      rfl,saved _ holds.2,⟨_,t,here,own⟩,others⟩
    simp only [mklocal,run_bind,run_reading,found,map_some,holds.1,run_modify]
    rfl
  | some value =>
    have start : (mklocal (.var name (some value))).run st = (do
        setvareq ⟨name.word (some value),[]⟩ {}
        modify (·.push (.var ⟨vp,v.flags,some v.text⟩)) : Sh Unit).run (st.pinned vp v) := by
      simp only [mklocal,run_bind,run_reading,found,map_some,holds.1,run_modify]
      rfl
    rw [start]
    cases writable : v.flags.readonly with
    | true =>
      have stopped := setvareq_readonly (s := ⟨name.word (some value),[]⟩) marked {} here own
        (nameOf_word name (some value)) writable
      exact Or.inl ⟨_,bind_error stopped⟩
    | false =>
      cases called : v.callback (argument ⟨name.word (some value),[]⟩) with
      | error message =>
        have stopped := setvareq_refused (s := ⟨name.word (some value),[]⟩) marked {} here own
          (nameOf_word name (some value))
          rfl rfl writable called
        exact Or.inl ⟨_,bind_error stopped⟩
      | ok done =>
        have stored := setvareq_found (s := ⟨name.word (some value),[]⟩) marked {} here own
          (nameOf_word name (some value))
          rfl rfl writable called
        have word : nameOf (name.word (some value)) = nameOf t.text := (nameOf_word name _).trans own.symm
        have hash : hashvar (name.word (some value)) = hashvar t.text := by
          rw [hashvar_named (nameOf_word name _),hashvar_named own]
        have herePushed : Holds ((st.pinned vp v).push (.var ⟨vp,v.flags,some v.text⟩)) vp
          { v with flags := { v.flags with strfixed := true, textfixed := true } } t := here
        obtain ⟨validNext,frameNext,hereNext,_⟩ := pushed.store herePushed
          (((st.pinned vp v).allexport {}).merge { v.flags with strfixed := true, textfixed := true })
          ⟨name.word (some value),[]⟩ word hash (merge_strfixed _) called
        refine Or.inr ⟨_,bind_ok stored,validNext,frame.trans ((Frame.push _ _).trans frameNext),rfl,saved _ ?_,
          ⟨_,_,hereNext,nameOf_word name (some value)⟩,others⟩
        have kept := frameNext.texts ⟨vp,v.flags,some v.text⟩ (mem_cons_self ..) v.text rfl
        exact kept.trans holds.2

theorem mklocal_safe (word : LocalWord) : Safe (mklocal word) := by
  intro st valid
  cases word with
  | options => exact ⟨_,_,rfl,valid.push_options _,Frame.push st _⟩
  | var name value =>
    rcases valid.found_or_missing name with ⟨vp,v,t,holds,own⟩ | nowhere
    · rcases mklocal_found valid holds own value with ⟨message,ran⟩ | ⟨next,ran,validNext,frame,_⟩
      · exact ⟨_,_,ran,valid.remark holds _ (fun _ => rfl) (by simp [Flags.owned])⟩
      · exact ⟨_,_,ran,validNext,frame⟩
    · obtain ⟨next,_,ran,validNext,frame,_⟩ := mklocal_missing valid value nowhere
      exact ⟨_,_,ran,validNext,frame⟩

theorem mklocal_made (valid : Valid st) {next : State} {value : Option (List UInt8)}
    (ran : (mklocal (.var name value)).run st = some (.ok (),next)) : ∃ r, Made st next name r := by
  rcases valid.found_or_missing name with ⟨vp,v,t,holds,own⟩ | nowhere
  · rcases mklocal_found valid holds own value with ⟨message,other⟩ | ⟨final,other,_,_,made⟩
    · cases ran.symm.trans other
    · cases ran.symm.trans other
      exact ⟨_,made⟩
  · obtain ⟨final,r,other,_,_,made⟩ := mklocal_missing valid value nowhere
    cases ran.symm.trans other
    exact ⟨r,made⟩

theorem localcmd_safe (words : List LocalWord) : Safe (localcmd words) :=
  Safe.bind (Safe.forEach mklocal_safe words) fun _ => Safe.pure 0

end Saving

end Stablebox.Ash.Variables
