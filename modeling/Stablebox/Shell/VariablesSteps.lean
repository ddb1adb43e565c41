import Stablebox.Shell.VariablesHeap

/-! What a command of a function body can do to the variables: the invariant of the memory
holds after it, and the saved values stay as they are. -/
namespace Stablebox.Ash.Variables

open Libbb Faulty Function Option

/-- Values are only added to the saved ones; their texts and the names of their variables stay. -/
structure Frame (st next : State) : Prop where
  stack : ∃ newer, next.localvars = newer ++ st.localvars
  saved : next.saved = st.saved
  texts : ∀ r ∈ st.slots, ∀ p, r.text = some p → next.texts p = st.texts p
  names : ∀ r ∈ st.slots, ∀ v t, Holds st r.vp v t → ∃ w u, Holds next r.vp w u ∧ nameOf u.text = nameOf t.text
  shell : next.rootshell = st.rootshell ∧ next.tty = st.tty

theorem Frame.refl (st : State) : Frame st st :=
  ⟨⟨[],rfl⟩,rfl,fun _ _ _ _ => rfl,fun _ _ v t holds => ⟨v,t,holds,rfl⟩,rfl,rfl⟩

theorem Frame.slots (frame : Frame st next) : ∃ newer, next.slots = newer ++ st.slots := by
  obtain ⟨newer,stack⟩ := frame.stack
  refine ⟨newer.filterMap Localvar.slot,?_⟩
  simp [State.slots,stack,frame.saved]

theorem Frame.trans (first : Frame a b) (second : Frame b c) : Frame a c := by
  have listed {r : Slot} (there : r ∈ a.slots) : r ∈ b.slots := by
    obtain ⟨newer,slots⟩ := first.slots
    rw [slots]
    exact List.mem_append_right _ there
  obtain ⟨newer,stack⟩ := first.stack
  obtain ⟨newest,later⟩ := second.stack
  refine ⟨⟨newest ++ newer,by rw [later,stack,List.append_assoc]⟩,second.saved.trans first.saved,?_,?_,
    second.shell.1.trans first.shell.1,second.shell.2.trans first.shell.2⟩
  · intro r there p text
    rw [second.texts r (listed there) p text,first.texts r there p text]
  · intro r there v t holds
    obtain ⟨w,u,here,name⟩ := first.names r there v t holds
    obtain ⟨x,z,final,same⟩ := second.names r (listed there) w u here
    exact ⟨x,z,final,same.trans name⟩

variable {α : Type}

/-- No fault, and the saved values are safe. -/
abbrev Safe (m : Sh α) : Prop := Runs Valid Frame m

theorem Safe.bind {β : Type} {m : Sh α} {f : α → Sh β} (first : Safe m) (second : ∀ a, Safe (f a)) :
    Safe (m >>= f) := Runs.bind (fun a b c (one : Frame a b) (two : Frame b c) => one.trans two) first second

theorem Safe.pure (a : α) : Safe (Pure.pure a : Sh α) := Runs.pure Frame.refl a

theorem Safe.forEach {f : α → Sh Unit} (each : ∀ a, Safe (f a)) (list : List α) :
    Safe (Faulty.forEach f list) :=
  Runs.forEach Frame.refl (fun a b c (one : Frame a b) (two : Frame b c) => one.trans two) each list

section Changing

variable {st : State} {vp : Nat} {v : Var} {t : Text}

theorem Changes.frame (valid : Valid st) (changes : Changes st next vp v t v' t')
    (stack : next.localvars = st.localvars) (saved : next.saved = st.saved)
    (shell : next.rootshell = st.rootshell ∧ next.tty = st.tty) : Frame st next := by
  refine ⟨⟨[],stack⟩,saved,?_,?_,shell⟩
  · intro r listed p text
    obtain ⟨u,there⟩ := valid.slot_text listed text
    rw [there,changes.texts p u there]
  · intro r listed w u holds
    by_cases same : r.vp = vp
    · rw [same] at holds ⊢
      obtain rfl := mem_unique changes.before.textOf holds.textOf
      exact ⟨v',t',changes.after,changes.name⟩
    · exact ⟨w,u,changes.other same holds,rfl⟩

theorem Frame.freed (unsaved : ∀ r ∈ st.slots, r.text ≠ some p) (nobody : ∀ i w, st.vars i = some w → w.text ≠ p) :
    Frame st (st.freed p) := by
  refine ⟨⟨[],rfl⟩,rfl,?_,?_,rfl,rfl⟩
  · intro r listed q text
    exact update_of_ne (by rintro rfl; exact unsaved r listed text) _ _
  · intro r _ w u holds
    refine ⟨w,u,⟨holds.1,?_⟩,rfl⟩
    exact (update_of_ne (nobody _ w holds.1) _ _).trans holds.2

section

variable (valid : Valid st) (holds : Holds st vp v t) (flags : Flags)
  (fixed : v.flags.strfixed = true → flags.strfixed = true) (owned : flags.owned = true → v.flags.owned = true)

include valid holds flags fixed owned

theorem remark_changes : Changes st (st.setVar vp { v with flags := flags }) vp v t { v with flags := flags } t  where
  before := holds
  vars := rfl
  texts := fun _ _ there => there
  text := holds.2
  name := rfl
  hash := rfl
  func := rfl
  vartab := rfl
  nextVar := rfl
  freshText := valid.freshText
  slots := List.Sublist.refl _
  strfixed := by
    rintro r listed rfl
    exact fixed (valid.slot_strfixed listed holds.1)
  callback := by
    intro func
    obtain ⟨fix,accepted⟩ := valid.called vp v t holds func
    exact ⟨fixed fix,accepted⟩
  alone := by
    intro j w apart there either same
    rcases either with mine | other
    · exact apart (valid.alone vp j v w holds.1 there (owned mine) same.symm).symm
    · exact apart (valid.alone j vp w v there holds.1 other same)
  unsaved := fun mine => valid.unsaved vp v holds.1 (owned mine)
  own := fun r listed other text => (valid.own r listed other vp v holds.1 text).symm
  settled := valid.settled

theorem Valid.remark :
    Valid (st.setVar vp { v with flags := flags }) ∧ Frame st (st.setVar vp { v with flags := flags }) := by
  have changes := remark_changes valid holds flags fixed owned
  exact ⟨valid.change changes,changes.frame valid rfl rfl ⟨rfl,rfl⟩⟩

end

/-- The old text of a variable, if it is freed with it, is nobody else's. -/
def State.released (st : State) (v : Var) : State := if v.flags.owned then st.freed v.text else st

theorem Valid.release (valid : Valid st) (nobody : v.flags.owned = true → ∀ i w, st.vars i = some w → w.text ≠ v.text)
    (unsaved : v.flags.owned = true → ∀ r ∈ st.slots, r.text ≠ some v.text) :
    Valid (st.released v) ∧ Frame st (st.released v) ∧ ∀ {i w u}, Holds st i w u → Holds (st.released v) i w u := by
  unfold State.released
  split
  · rename_i owned
    exact ⟨valid.free (nobody owned) (unsaved owned),Frame.freed (unsaved owned) (nobody owned),
      fun here => ⟨here.1,(update_of_ne (nobody owned _ _ here.1) _ _).trans here.2⟩⟩
  · exact ⟨valid,Frame.refl st,id⟩

theorem Changes.nobody (valid : Valid st) (changes : Changes st next vp v t v' t') (apart : v'.text ≠ v.text)
    (owned : v.flags.owned = true) (i : Nat) (w : Var) (there : next.vars i = some w) : w.text ≠ v.text := by
  rcases changes.var_cases there with ⟨_,rfl⟩ | ⟨other,there⟩
  · exact apart
  · exact fun same => other (valid.alone vp i v w changes.before.1 there owned same.symm).symm

theorem release_eq (holds : Holds st vp v t) : st.release v = some (st.released v) := by
  simp only [State.release,State.released,State.ckfree,holds.2]
  split <;> rfl

theorem store_changes (valid : Valid st) (holds : Holds st vp v t) (named : nameOf s.text = nameOf t.text)
    (hash : hashvar s.text = hashvar t.text) (fixed : v.flags.strfixed = true → flags.strfixed = true)
    (accepted : v.callback (argument s) = .ok ()) :
    Changes st (st.store vp flags v.func s) vp v t ⟨flags,st.nextText,v.func⟩ s  where
  before := holds
  vars := rfl
  texts := by
    intro p u there
    exact (update_of_ne (ne_of_lt (valid.lt_nextText there)) _ _).trans there
  text := update_self _ _ _
  name := named
  hash := hash
  func := rfl
  vartab := rfl
  nextVar := rfl
  freshText := by
    intro p high
    have high : st.nextText + 1 ≤ p := high
    exact (update_of_ne (by omega) _ _).trans (valid.freshText p (by omega))
  slots := List.Sublist.refl _
  strfixed := by
    rintro r listed rfl
    exact fixed (valid.slot_strfixed listed holds.1)
  callback := fun func => ⟨fixed (valid.called vp v t holds func).1,accepted⟩
  alone := fun j w _ there _ => ne_of_lt (valid.text_low there)
  unsaved := fun _ r listed text => lt_irrefl _ (valid.slot_low listed text)
  own := fun r listed _ text => absurd (valid.slot_low listed text) (lt_irrefl _)
  settled := valid.settled

theorem released_store (valid : Valid st) (holds : Holds st vp v t) (flags : Flags) (func : Option Callback)
    (s : Text) : (st.released v).store vp flags func s = (st.store vp flags func s).released v := by
  unfold State.released
  split
  · have apart : st.nextText ≠ v.text := ne_of_gt (valid.lt_nextText holds.2)
    simp only [State.store,State.freed,update_comm apart]
  · rfl

theorem Valid.store (valid : Valid st) (holds : Holds st vp v t) (flags : Flags) (s : Text)
    (named : nameOf s.text = nameOf t.text) (hash : hashvar s.text = hashvar t.text)
    (fixed : v.flags.strfixed = true → flags.strfixed = true) (accepted : v.callback (argument s) = .ok ()) :
    Valid ((st.released v).store vp flags v.func s) ∧ Frame st ((st.released v).store vp flags v.func s) ∧
      Holds ((st.released v).store vp flags v.func s) vp ⟨flags,st.nextText,v.func⟩ s ∧
      ∀ i w u, i ≠ vp → Holds st i w u → Holds ((st.released v).store vp flags v.func s) i w u := by
  have changes := store_changes valid holds named hash fixed accepted
  obtain ⟨freed,frame,keeps⟩ := (valid.change changes).release
    (changes.nobody valid (ne_of_gt (valid.lt_nextText holds.2))) (valid.unsaved vp v holds.1)
  rw [released_store valid holds]
  exact ⟨freed,(changes.frame valid rfl rfl ⟨rfl,rfl⟩).trans frame,keeps changes.after,
    fun i w u apart here => keeps (changes.other apart here)⟩

theorem Frame.add (valid : Valid st) (flags : Flags) (func : Option Callback) (s : Text) :
    Frame st (st.add flags func s) := by
  refine ⟨⟨[],rfl⟩,rfl,?_,?_,rfl,rfl⟩
  · intro r listed p text
    exact update_of_ne (ne_of_lt (valid.slot_low listed text)) _ _
  · intro r _ w u holds
    exact ⟨w,u,valid.holds_add flags func s holds,rfl⟩

end Changing

section Setting

variable {st : State} {name : Name} {vp : Nat} {v : Var} {t : Text} {s : Text}

theorem allexport_noset (st : State) (flags : Flags) : (st.allexport flags).noset = flags.noset := by
  unfold State.allexport
  split <;> rfl

theorem allexport_nofunc (st : State) (flags : Flags) : (st.allexport flags).nofunc = flags.nofunc := by
  unfold State.allexport
  split <;> rfl

variable {flags : Flags}

theorem setvareq_missing (valid : Valid st) (set : flags.noset = false)
    (named : nameOf s.text = name.bytes) (nowhere : ∀ vp v t, Holds st vp v t → nameOf t.text ≠ name.bytes) :
    (setvareq s flags).run st = some (.ok (),st.add (st.allexport flags) none s) := by
  simp [setvareq,run_bind,valid.findvar_missing named nowhere,allexport_noset,set]

section

variable (valid : Valid st) (flags : Flags) (holds : Holds st vp v t) (own : nameOf t.text = name.bytes)
  (named : nameOf s.text = name.bytes)

include valid holds own named

theorem setvareq_readonly (readonly : v.flags.readonly = true) :
    (setvareq s flags).run st = some (.error (nameOf t.text ++ text ": is read only"),st) := by
  simp [setvareq,run_bind,valid.findvar_found holds own named,holds.1,holds.2,readonly]

theorem setvareq_refused (set : flags.noset = false) (calls : flags.nofunc = false)
    (writable : v.flags.readonly = false) (refused : v.callback (argument s) = .error message) :
    (setvareq s flags).run st = some (.error message,st) := by
  simp [setvareq,run_bind,valid.findvar_found holds own named,holds.1,writable,allexport_noset,set,
    allexport_nofunc,calls,refused]

theorem setvareq_found (set : flags.noset = false) (calls : flags.nofunc = false)
    (writable : v.flags.readonly = false) (accepted : v.callback (argument s) = .ok ()) :
    (setvareq s flags).run st =
      some (.ok (),(st.released v).store vp ((st.allexport flags).merge v.flags) v.func s) := by
  simp [setvareq,run_bind,valid.findvar_found holds own named,holds.1,writable,allexport_noset,set,
    allexport_nofunc,calls,accepted,release_eq holds]

end

theorem merge_strfixed (flags : Flags) (fixed : old.strfixed = true) : (flags.merge old).strfixed = true := by
  simp [Flags.merge,fixed]

/-- The text goes into the variable of its name, or into a new one, or nothing changes. -/
theorem setvareq_cases (valid : Valid st) (set : flags.noset = false) (calls : flags.nofunc = false)
    (named : nameOf s.text = name.bytes) :
    ∃ r next, (setvareq s flags).run st = some (r,next) ∧ Valid next ∧ Frame st next ∧ (next = st ∨
      (∃ vp v t, Holds st vp v t ∧ next = (st.released v).store vp ((st.allexport flags).merge v.flags) v.func s) ∨
      next = st.add (st.allexport flags) none s) := by
  rcases valid.found_or_missing name with ⟨vp,v,t,holds,own⟩ | nowhere
  · cases writable : v.flags.readonly with
    | true => exact ⟨_,_,setvareq_readonly valid flags holds own named writable,valid,Frame.refl st,.inl rfl⟩
    | false =>
      cases called : v.callback (argument s) with
      | error message =>
        exact ⟨_,_,setvareq_refused valid flags holds own named set calls writable called,valid,Frame.refl st,.inl rfl⟩
      | ok done =>
        have hash : hashvar s.text = hashvar t.text := by rw [hashvar_named named,hashvar_named own]
        obtain ⟨validNext,frame,_⟩ := valid.store holds ((st.allexport flags).merge v.flags) s
          (named.trans own.symm) hash (merge_strfixed _) called
        exact ⟨_,_,setvareq_found valid flags holds own named set calls writable called,validNext,frame,
          .inr (.inl ⟨vp,v,t,holds,rfl⟩)⟩
  · exact ⟨_,_,setvareq_missing valid set named nowhere,valid.add _ none (named ▸ nowhere) (absurd rfl),
      Frame.add valid _ none s,.inr (.inr rfl)⟩

theorem setvareq_safe (set : flags.noset = false) (calls : flags.nofunc = false)
    (named : nameOf s.text = name.bytes) : Safe (setvareq s flags) := by
  intro st valid
  obtain ⟨r,next,ran,validNext,frame,_⟩ := setvareq_cases valid set calls named
  exact ⟨r,next,ran,validNext,frame⟩

theorem setvar_safe {name : Name} {word : List UInt8} (named : nameOf word = name.bytes) (val : Option (List UInt8))
    (set : flags.noset = false) (calls : flags.nofunc = false) (behind : List UInt8) :
    Safe (setvar word val flags behind) := by
  rw [setvar_named named]
  exact setvareq_safe set calls (nameOf_word name val)

theorem listsetvar_safe (list : List (Name × List UInt8)) (flags : Flags) (set : flags.noset = false)
    (calls : flags.nofunc = false) : Safe (listsetvar list flags) :=
  Safe.forEach (fun lp => setvareq_safe set calls (nameOf_word lp.1 (some lp.2))) list

theorem exportcmd_safe (flag : Flags) (set : flag.noset = false) (calls : flag.nofunc = false)
    (list : List (Name × Option (List UInt8))) : Safe (exportcmd flag list) := by
  refine Safe.bind (Safe.forEach ?_ list) fun _ => Safe.pure 0
  rintro ⟨name,value⟩
  cases value with
  | some p => exact setvar_safe (nameOf_word name _) _ set calls []
  | none =>
    intro st valid
    rcases valid.found_or_missing name with ⟨vp,v,t,holds,own⟩ | nowhere
    · simp only [run_bind,run_reading,valid.findvar_found holds own (nameOf_word name none),map_some,holds.1]
      exact ⟨_,_,rfl,valid.remark holds _ id id⟩
    · simp only [run_bind,run_reading,valid.findvar_missing (nameOf_word name none) nowhere,map_some]
      exact setvar_safe (nameOf_word name none) none set calls [] st valid

end Setting

section Unsetting

variable {st : State} {name : Name} {vp : Nat} {v : Var} {t : Text} {word : List UInt8}

theorem unsetvar_missing (valid : Valid st) (named : nameOf word = name.bytes) (behind : List UInt8)
    (nowhere : ∀ vp v t, Holds st vp v t → nameOf t.text ≠ name.bytes) :
    (unsetvar word behind).run st = some (.ok 2,st) := by
  simp [unsetvar,run_bind,valid.findvar_missing named nowhere]

section

variable (valid : Valid st) (holds : Holds st vp v t) (own : nameOf t.text = name.bytes)
  (named : nameOf word = name.bytes)

include valid holds own named

theorem unsetvar_kept (behind : List UInt8) (kept : v.flags.readonly = true ∨ v.flags.unset = true) :
    ∃ status, (unsetvar word behind).run st = some (.ok status,st) := by
  cases readonly : v.flags.readonly with
  | true => exact ⟨1,by simp [unsetvar,run_bind,valid.findvar_found holds own named,holds.1,readonly]⟩
  | false =>
    have unset : v.flags.unset = true := by simpa [readonly] using kept
    exact ⟨0,by simp [unsetvar,run_bind,valid.findvar_found holds own named,holds.1,readonly,unset]⟩

theorem unsetvar_removed (behind : List UInt8) (writable : v.flags.readonly = false)
    (set : v.flags.unset = false) (free : v.flags.strfixed = false) :
    (unsetvar word behind).run st = some (.ok 0,(st.released v).remove (hashvar t.text) vp) := by
  have hash : hashvar word = hashvar t.text := by rw [hashvar_named named,hashvar_named own]
  simp [unsetvar,run_bind,valid.findvar_found holds own named,holds.1,writable,set,free,release_eq holds,hash]

def State.unsetFlags (st : State) (flags : Flags) : Flags :=
  { (st.allexport { unset := true, nosave := true }).merge flags with exported := false }

theorem unsetvar_fixed (writable : v.flags.readonly = false) (set : v.flags.unset = false)
    (fixed : v.flags.strfixed = true) (accepted : v.callback (argument ⟨name.bytes,behind⟩) = .ok ()) :
    (unsetvar word behind).run st =
      some (.ok 0,(st.released v).store vp (st.unsetFlags v.flags) v.func ⟨name.bytes,behind⟩) := by
  have stored := setvareq_found (s := ⟨name.bytes,behind⟩) valid { unset := true, nosave := true } holds own
    (nameOf_bytes name) rfl rfl writable accepted
  simp only [unsetvar,run_bind,run_reading,valid.findvar_found holds own named,map_some,holds.1,writable,set,fixed,
    Bool.false_eq_true,if_false,Bool.not_true,setvar_named named,Name.word,isNone_none,Bool.or_true,stored]
  simp [State.store,State.setVar,State.unsetFlags]

theorem unsetvar_refused (writable : v.flags.readonly = false) (set : v.flags.unset = false)
    (fixed : v.flags.strfixed = true) (refused : v.callback (argument ⟨name.bytes,behind⟩) = .error message) :
    (unsetvar word behind).run st = some (.error message,st) := by
  have stopped := setvareq_refused (s := ⟨name.bytes,behind⟩) valid { unset := true, nosave := true } holds own
    (nameOf_bytes name) rfl rfl writable refused
  simp only [unsetvar,run_bind,run_reading,valid.findvar_found holds own named,map_some,holds.1,writable,set,fixed,
    Bool.false_eq_true,if_false,Bool.not_true,setvar_named named,Name.word,isNone_none,Bool.or_true,stopped]

end

theorem unsetFlags_strfixed (st : State) (fixed : flags.strfixed = true) :
    (st.unsetFlags flags).strfixed = true := merge_strfixed _ fixed

theorem Valid.removed (valid : Valid st) (holds : Holds st vp v t) (free : v.flags.strfixed = false) :
    Valid ((st.released v).remove (hashvar t.text) vp) ∧ Frame st ((st.released v).remove (hashvar t.text) vp) := by
  have removed := valid.remove holds free
  have frame : Frame st (st.remove (hashvar t.text) vp) := ⟨⟨[],rfl⟩,rfl,fun _ _ _ _ => rfl,
      fun r listed w u here => ⟨w,u,here.remove (valid.slot_apart holds.1 free listed),rfl⟩,rfl,rfl⟩
  have same : (st.released v).remove (hashvar t.text) vp = (st.remove (hashvar t.text) vp).released v := by
    unfold State.released
    split <;> rfl
  obtain ⟨freed,later,_⟩ := removed.release (fun owned i w there same => by
    obtain ⟨apart,there⟩ := remove_var_cases there
    exact apart (valid.alone vp i v w holds.1 there owned same.symm).symm) (valid.unsaved vp v holds.1)
  rw [same]
  exact ⟨freed,frame.trans later⟩

theorem unsetvar_safe (named : nameOf word = name.bytes) (behind : List UInt8) : Safe (unsetvar word behind) := by
  intro st valid
  rcases valid.found_or_missing name with ⟨vp,v,t,holds,own⟩ | nowhere
  · by_cases kept : v.flags.readonly = true ∨ v.flags.unset = true
    · obtain ⟨status,ran⟩ := unsetvar_kept valid holds own named behind kept
      exact ⟨_,_,ran,valid,Frame.refl st⟩
    obtain ⟨writable,set⟩ : v.flags.readonly = false ∧ v.flags.unset = false := by simpa using kept
    cases fixed : v.flags.strfixed with
    | false => exact ⟨_,_,unsetvar_removed valid holds own named behind writable set fixed,valid.removed holds fixed⟩
    | true =>
      cases called : v.callback (argument ⟨name.bytes,behind⟩) with
      | error message =>
        exact ⟨_,_,unsetvar_refused valid holds own named writable set fixed called,valid,Frame.refl st⟩
      | ok done =>
        have hash : hashvar name.bytes = hashvar t.text := (hashvar_named own).symm
        obtain ⟨validNext,frame,_⟩ := valid.store holds (st.unsetFlags v.flags) ⟨name.bytes,behind⟩
          ((nameOf_bytes name).trans own.symm) hash (unsetFlags_strfixed st) called
        exact ⟨_,_,unsetvar_fixed valid holds own named writable set fixed called,validNext,frame⟩
  · exact ⟨_,_,unsetvar_missing valid named behind nowhere,valid,Frame.refl st⟩

theorem unsetcmd_safe (list : List (Name × List UInt8)) : Safe (unsetcmd list) := by
  induction list with
  | nil => exact Safe.pure 0
  | cons word list ih =>
    exact Safe.bind (unsetvar_safe (nameOf_bytes word.1) word.2) fun _ => Safe.bind ih fun _ => Safe.pure _

end Unsetting

end Stablebox.Ash.Variables
