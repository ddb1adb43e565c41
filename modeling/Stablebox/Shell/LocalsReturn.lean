import Stablebox.Shell.Locals

/-! The return from an ash function: what `poplocalvars` makes of the saved variables and options,
and with it what a whole function leaves behind. -/
namespace Stablebox.Ash.Variables

open Libbb Faulty List Option Prod

def Flags.forgotten (saved : Flags) : Bool := saved.unset && !saved.strfixed

/-- The saved flags come back although the variable is only unset: it is not read-only unless it
was, and it is exported as it was. -/
def Kept (saved current : Flags) : Prop :=
  saved.forgotten = true → current.readonly = saved.readonly ∧
    if current.unset then current.exported = saved.exported
    else current.readonly = false ∧ saved.exported = false

section Options

variable {st : State}

theorem optschanged_eq (st : State) : ∃ optlist jobctl,
    st.optschanged = { st with optlist := optlist, jobctl := jobctl } ∧ optlist viflag = false ∧
      (st.rootshell = true → (st.jobctl = true → st.tty = true) →
        optlist mflag = jobctl ∧ (jobctl = true → st.tty = true)) := by
  refine ⟨st.optschanged.optlist,st.optschanged.jobctl,?_,by simp [State.optschanged],?_⟩
  · unfold State.optschanged State.setjobctl
    split
    · rfl
    split
    · split <;> rfl
    · rfl
  · intro root terminal
    have apart : mflag ≠ viflag := by decide
    unfold State.optschanged State.setjobctl
    simp only [root,Bool.true_eq_false,or_false]
    split
    · rename_i same
      simpa [Function.update_of_ne apart,same] using terminal
    split
    · rename_i on
      split
      · rename_i tty
        simp [Function.update_of_ne apart,on,tty]
      · simp [Function.update_of_ne apart]
    · rename_i off
      simp [Function.update_of_ne apart,off]

theorem restoreOptions_eq (st : State) (changed : Options) : ∃ optlist jobctl,
    st.restoreOptions changed = { st with optlist := optlist, jobctl := jobctl } ∧ optlist viflag = false ∧
      (st.rootshell = true → (st.jobctl = true → st.tty = true) →
        optlist mflag = jobctl ∧ (jobctl = true → st.tty = true)) :=
  optschanged_eq { st with optlist := changed }

theorem Valid.options (valid : Valid st) (changed : Options) : Valid (st.restoreOptions changed) := by
  obtain ⟨optlist,jobctl,eq,vi,job⟩ := restoreOptions_eq st changed
  rw [eq]
  exact { valid with settled := ⟨vi,fun root => job root (valid.settled.2 root).2⟩ }

theorem Frame.options (st : State) (changed : Options) : Frame st (st.restoreOptions changed) := by
  obtain ⟨optlist,jobctl,eq,_⟩ := restoreOptions_eq st changed
  rw [eq]
  exact { Frame.refl st with }

theorem setcmd_run (changes : List (Fin 14 × Bool)) (st : State) :
    ∃ changed, (setcmd changes).run st = some (.ok 0,st.restoreOptions changed) := by
  have each : ∃ changed, (forEach (fun change : Fin 14 × Bool => modify fun st : State =>
      { st with optlist := Function.update st.optlist change.1 change.2 }) changes : Sh Unit).run st =
        some (.ok (),{ st with optlist := changed }) := by
    induction changes generalizing st with
    | nil => exact ⟨st.optlist,rfl⟩
    | cons change changes ih =>
      obtain ⟨changed,ran⟩ := ih { st with optlist := Function.update st.optlist change.1 change.2 }
      exact ⟨changed,ran⟩
  obtain ⟨changed,ran⟩ := each
  exact ⟨changed,by rw [setcmd,bind_ok ran]; rfl⟩

theorem setcmd_safe (changes : List (Fin 14 × Bool)) : Safe (setcmd changes) := by
  intro st valid
  obtain ⟨changed,ran⟩ := setcmd_run changes st
  exact ⟨_,_,ran,valid.options changed,Frame.options st changed⟩

theorem options_restored (vi : saved viflag = false) (job : st.rootshell = true → saved mflag = true → st.tty = true) :
    (st.restoreOptions saved).optlist = saved := by
  have same : Function.update saved viflag false = saved := by rw [← vi,Function.update_eq_self]
  unfold State.restoreOptions State.optschanged State.setjobctl
  split
  · exact same
  rename_i changes
  split
  · rename_i on
    simp only [not_or,Bool.not_eq_false] at changes
    have tty := job changes.2 on
    simp only [tty,if_true]
    exact same
  · exact same

end Options

section Popping

variable {st : State}

def State.dropped (st : State) (rest : List Localvar) : State := { st with localvars := rest }

variable {lvp : Localvar} {rest : List Localvar}

theorem dropped_slots (stack : st.localvars = lvp :: rest) : (st.dropped rest).slots.Sublist st.slots := by
  apply List.Sublist.filterMap
  rw [stack]
  exact sublist_cons_self lvp _

theorem Valid.unstack (valid : Valid st) (fewer : ({ st with localvars, saved } : State).slots.Sublist st.slots) :
    Valid { st with localvars, saved } :=
  { valid with
    unsaved := fun i v there owned r listed => valid.unsaved i v there owned r (fewer.subset listed)
    own := fun r listed => valid.own r (fewer.subset listed)
    stacked := valid.stacked.sublist fewer
    fixed := fun r listed => valid.fixed r (fewer.subset listed)
    missing := fun r listed => valid.missing r (fewer.subset listed)
    recalled := fun r listed => valid.recalled r (fewer.subset listed) }

theorem Valid.dropped (valid : Valid st) (stack : st.localvars = lvp :: rest) : Valid (st.dropped rest) :=
  valid.unstack (dropped_slots stack)

/-- A record has been taken off and worked on. -/
structure Pops (st next : State) (rest : List Localvar) (touched : Nat → Prop) : Prop where
  valid : Valid next
  frame : Frame (st.dropped rest) next
  stack : next.localvars = rest
  others : ∀ i v t, ¬ touched i → Holds st i v t → Holds next i v t
  optlist : (∃ i, touched i) → next.optlist = st.optlist

variable {r : Slot}

theorem released_same (st : State) (v : Var) :
    (st.released v).localvars = st.localvars ∧ (st.released v).optlist = st.optlist := by
  unfold State.released
  split <;> exact ⟨rfl,rfl⟩

/-- A record of which only the name matters: the variable is unset. -/
theorem poplocalvar_forgotten (valid : Valid st) (stack : st.localvars = .var r :: rest)
    (forgotten : r.flags.forgotten = true) (holds : Holds st r.vp v t) (own : nameOf t.text = name.bytes) :
    ∃ next, (poplocalvar (.var r)).run (st.dropped rest) = some (.ok (),next) ∧ Pops st next rest (· = r.vp) ∧
      (∃ w u, Holds next r.vp w u ∧ nameOf u.text = name.bytes) ∧
      (next.view name = ⟨none,r.flags.exported,r.flags.readonly⟩ ↔ Kept r.flags v.flags) := by
  have listed : r ∈ st.slots := by simp [State.slots,stack,Localvar.slot]
  obtain ⟨unset,free⟩ : r.flags.unset = true ∧ r.flags.strfixed = false := by
    simpa [Flags.forgotten] using forgotten
  have plain : v.func = none := by
    by_contra func
    have fix := (valid.recalled r listed v holds.1 func).1
    cases free.symm.trans fix
  have fixed : v.flags.strfixed = true := by
    obtain ⟨w,_,there,fix,_⟩ := valid.fixed r listed
    obtain rfl := mem_unique holds.1 there.1
    exact fix
  have dropped := valid.dropped stack
  have here : Holds (st.dropped rest) r.vp v t := holds
  have start {status : Nat} {next : State} (ran : (unsetvar t.text []).run (st.dropped rest) = some (.ok status,next)) :
      (poplocalvar (.var r)).run (st.dropped rest) = some (.ok (),next) := by
    simp [poplocalvar,unset,free,run_bind,here.textOf,ran]
  by_cases kept : v.flags.readonly = true ∨ v.flags.unset = true
  · obtain ⟨status,ran⟩ := unsetvar_kept dropped here own own [] kept
    refine ⟨_,start ran,⟨dropped,Frame.refl _,rfl,fun _ _ _ _ there => there,fun _ => rfl⟩,⟨v,t,here,own⟩,?_⟩
    rw [dropped.view_found here own]
    simp only [Flags.view,View.mk.injEq,Kept,forgotten,true_implies]
    cases isUnset : v.flags.unset with
    | true => simp [and_comm]
    | false =>
      have readonly : v.flags.readonly = true := by simpa [isUnset] using kept
      simp [readonly]
  · obtain ⟨writable,set⟩ : v.flags.readonly = false ∧ v.flags.unset = false := by simpa using kept
    have accepted : v.callback (argument ⟨name.bytes,[]⟩) = .ok () := by simp [Var.callback,plain]
    have ran := unsetvar_fixed dropped here own own writable set fixed accepted
    obtain ⟨validNext,frame,hereNext,others⟩ := dropped.store here ((st.dropped rest).unsetFlags v.flags)
      ⟨name.bytes,[]⟩ ((nameOf_bytes name).trans own.symm) (hashvar_named own).symm
      (unsetFlags_strfixed _) accepted
    have same := released_same (st.dropped rest) v
    refine ⟨_,start ran,⟨validNext,frame,same.1,fun i w u => others i w u,fun _ => same.2⟩,
      ⟨_,_,hereNext,nameOf_bytes name⟩,?_⟩
    · rw [validNext.view_found hereNext (nameOf_bytes name)]
      have allexport : ((st.dropped rest).allexport { unset := true, nosave := true }).readonly = false ∧
          ((st.dropped rest).allexport { unset := true, nosave := true }).unset = true := by
        unfold State.allexport
        split <;> exact ⟨rfl,rfl⟩
      simp only [Flags.view,State.unsetFlags,Flags.merge,allexport,writable,Bool.or_self,View.mk.injEq,Kept,forgotten,
        true_implies,set,if_true,Bool.false_eq_true,if_false,true_and]
      rw [and_comm,eq_comm (a := r.flags.exported)]

theorem poplocalvar_restored (valid : Valid st) (stack : st.localvars = .var r :: rest)
    (restored : r.flags.forgotten = false) (holds : Holds st r.vp v t) (own : nameOf t.text = name.bytes) :
    ∃ next, (poplocalvar (.var r)).run (st.dropped rest) = some (.ok (),next) ∧ Pops st next rest (· = r.vp) ∧
      (∃ w u, Holds next r.vp w u ∧ nameOf u.text = name.bytes) ∧ next.view name = r.view st := by
  have slots : st.slots = r :: (st.dropped rest).slots := by simp [State.slots,State.dropped,stack,Localvar.slot]
  have listed : r ∈ st.slots := by simp [slots]
  obtain ⟨p,text⟩ : ∃ p, r.text = some p := by
    cases saved : r.text with
    | some p => exact ⟨p,rfl⟩
    | none =>
      rw [valid.missing r listed saved] at restored
      cases restored
  obtain ⟨u,alive,name'⟩ : ∃ u, st.texts p = some u ∧ nameOf u.text = nameOf t.text := by
    obtain ⟨w,z,there,_,_,saved⟩ := valid.fixed r listed
    obtain rfl := mem_unique holds.textOf there.textOf
    exact saved p text
  have accepted : v.callback (argument u) = .ok () := by
    by_cases func : v.func = none
    · simp [Var.callback,func]
    · exact (valid.recalled r listed v holds.1 func).2 p u text alive
  have order := pairwise_cons.mp (slots ▸ valid.stacked)
  have changes : Changes st ((st.dropped rest).setVar r.vp ⟨r.flags,p,v.func⟩) r.vp v t ⟨r.flags,p,v.func⟩ u := {
    before := holds
    vars := rfl
    texts := fun _ _ there => there
    text := alive
    name := name'
    hash := by rw [hashvar_named (name'.trans own),hashvar_named own]
    func := rfl
    vartab := rfl
    nextVar := rfl
    freshText := valid.freshText
    slots := dropped_slots stack
    strfixed := fun older there same => (order.1 older there).1 same.symm
    callback := fun func => ⟨(valid.recalled r listed v holds.1 func).1,accepted⟩
    alone := by
      intro j w apart there either same
      rcases either with mine | other
      · exact apart (valid.own r listed mine j w there (by rw [text,same]))
      · exact valid.unsaved j w there other r listed (by rw [text,same])
    unsaved := by
      intro mine older there textOlder
      have fixed := ((order.1 older there).2 p text textOlder).1
      cases fixed.symm.trans mine
    own := fun older there owned textOlder => (((order.1 older there).2 p text textOlder).2 owned).symm
    settled := valid.settled }
  have frame : Frame (st.dropped rest) ((st.dropped rest).setVar r.vp ⟨r.flags,p,v.func⟩) := by
    refine ⟨⟨[],rfl⟩,rfl,fun _ _ _ _ => rfl,fun q _ w z there => ?_,rfl,rfl⟩
    by_cases same : q.vp = r.vp
    · rw [same] at there ⊢
      obtain rfl := mem_unique holds.textOf there.textOf
      exact ⟨_,u,changes.after,name'⟩
    · exact ⟨w,z,changes.other same there,rfl⟩
  obtain ⟨freed,later,keeps⟩ := (valid.change changes).release (fun owned => changes.nobody valid
      (fun same => valid.unsaved r.vp v holds.1 owned r listed (by rw [text,← same])) owned)
    fun owned q there => valid.unsaved r.vp v holds.1 owned q ((dropped_slots stack).subset there)
  have same : ((st.dropped rest).released v).setVar r.vp ⟨r.flags,p,v.func⟩ =
      ((st.dropped rest).setVar r.vp ⟨r.flags,p,v.func⟩).released v := by
    unfold State.released
    split <;> rfl
  refine ⟨_,?_,⟨freed,frame.trans later,?_,fun i w z apart there => keeps (changes.other apart there),fun _ => ?_⟩,
    ⟨_,u,keeps changes.after,name'.trans own⟩,?_⟩
  · have kind : (r.flags.unset && !r.flags.strfixed) = false := restored
    have here : Holds (st.dropped rest) r.vp v t := holds
    have there : (st.dropped rest).texts p = some u := alive
    simp [poplocalvar,kind,run_bind,here.1,text,there,accepted,release_eq here,same]
  · exact (released_same _ v).1
  · exact (released_same _ v).2
  · rw [freed.view_found (keeps changes.after) (name'.trans own)]
    simp [Slot.view,text,alive]

theorem Valid.slot_view (valid : Valid st) (listed : r ∈ st.slots) (forgotten : r.flags.forgotten = true) :
    r.view st = ⟨none,r.flags.exported,r.flags.readonly⟩ := by
  obtain ⟨unset,_⟩ : r.flags.unset = true ∧ r.flags.strfixed = false := by simpa [Flags.forgotten] using forgotten
  cases text : r.text with
  | none => simp [Slot.view,text,valid.missing r listed text,View.missing]
  | some p =>
    obtain ⟨_,_,_,_,_,saved⟩ := valid.fixed r listed
    obtain ⟨u,alive,_⟩ := saved p text
    simp [Slot.view,text,alive,Flags.view,unset]

theorem poplocalvar_var (valid : Valid st) (stack : st.localvars = .var r :: rest)
    (holds : Holds st r.vp v t) (own : nameOf t.text = name.bytes) :
    ∃ next, (poplocalvar (.var r)).run (st.dropped rest) = some (.ok (),next) ∧ Pops st next rest (· = r.vp) ∧
      (∃ w u, Holds next r.vp w u ∧ nameOf u.text = name.bytes) ∧
      (next.view name = r.view st ↔ Kept r.flags v.flags) := by
  have listed : r ∈ st.slots := by simp [State.slots,stack,Localvar.slot]
  cases forgotten : r.flags.forgotten with
  | true =>
    rw [valid.slot_view listed forgotten]
    exact poplocalvar_forgotten valid stack forgotten holds own
  | false =>
    obtain ⟨next,ran,pops,named,view⟩ := poplocalvar_restored valid stack forgotten holds own
    exact ⟨next,ran,pops,named,by simp [view,Kept,forgotten]⟩

theorem poplocalvar_options (valid : Valid st) (stack : st.localvars = .options saved :: rest) :
    (poplocalvar (.options saved)).run (st.dropped rest) = some (.ok (),(st.dropped rest).restoreOptions saved) ∧
      Pops st ((st.dropped rest).restoreOptions saved) rest (fun _ => False) := by
  refine ⟨rfl,(valid.dropped stack).options saved,Frame.options _ saved,?_,?_,fun ⟨_,never⟩ => never.elim⟩
  · obtain ⟨optlist,jobctl,eq,_⟩ := restoreOptions_eq (st.dropped rest) saved
    rw [eq]
    rfl
  · intro i v t _ holds
    obtain ⟨optlist,jobctl,eq,_⟩ := restoreOptions_eq (st.dropped rest) saved
    rw [eq]
    exact holds

def Localvar.touches (lvp : Localvar) (vp : Nat) : Prop := ∃ r, lvp = .var r ∧ vp = r.vp

theorem poplocalvar_pops (valid : Valid st) (stack : st.localvars = lvp :: rest) :
    ∃ next, (poplocalvar lvp).run (st.dropped rest) = some (.ok (),next) ∧ Pops st next rest lvp.touches := by
  cases lvp with
  | options saved =>
    obtain ⟨ran,pops⟩ := poplocalvar_options valid stack
    exact ⟨_,ran,pops.valid,pops.frame,pops.stack,fun i v t _ => pops.others i v t id,
      fun ⟨_,_,other,_⟩ => nomatch other⟩
  | var r =>
    have listed : r ∈ st.slots := by simp [State.slots,stack,Localvar.slot]
    obtain ⟨v,t,holds,_,⟨name,own⟩,_⟩ := valid.fixed r listed
    obtain ⟨next,ran,pops,_⟩ := poplocalvar_var valid stack holds own
    exact ⟨next,ran,pops.valid,pops.frame,pops.stack,
      fun i w u apart => pops.others i w u fun same => apart ⟨r,rfl,same⟩,
      fun _ => pops.optlist ⟨r.vp,rfl⟩⟩

theorem funcdone_cons (e : Except (List UInt8) Unit) {next : State}
    (ran : (poplocalvar lvp).run (st.dropped rest) = some (.ok (),next)) :
    (funcdone e (lvp :: rest)).run st = (funcdone e rest).run next := by
  have caught : (attempt (poplocalvar lvp)).run (st.dropped rest) = some (.ok (.ok ()),next) := by simp [ran]
  have first : (modify fun st : State => { st with localvars := rest } : Sh Unit).run st =
      some (.ok (),st.dropped rest) := rfl
  rw [funcdone,bind_ok first,bind_ok caught]

theorem Frame.dropped {next : State} (frame : Frame st next) (stack : st.localvars = newer ++ rest) :
    Frame (st.dropped rest) (next.dropped rest) := by
  have slot {r : Slot} (listed : r ∈ (st.dropped rest).slots) : r ∈ st.slots := by
    simp only [State.slots,State.dropped,filterMap_append,mem_append] at listed ⊢
    rw [stack,filterMap_append,mem_append]
    exact listed.imp_left Or.inr
  exact ⟨⟨[],rfl⟩,frame.saved,fun r listed => frame.texts r (slot listed),fun r listed => frame.names r (slot listed),
    frame.shell⟩

def popAbove (below : List Localvar) : List Localvar → Sh Unit
  | [] => pure ()
  | lvp :: newer => do
    modify (·.dropped (newer ++ below))
    poplocalvar lvp
    popAbove below newer

theorem funcdone_append (e : Except (List UInt8) Unit) (newer rest : List Localvar) (valid : Valid st)
    (stack : st.localvars = newer ++ rest) :
    ∃ next, (popAbove rest newer).run st = some (.ok (),next) ∧
      (funcdone e (newer ++ rest)).run st = (funcdone e rest).run next ∧ Valid next ∧ next.localvars = rest ∧
      Frame (st.dropped rest) next ∧
      (∀ i v t, (∀ lvp ∈ newer, ¬ lvp.touches i) → Holds st i v t → Holds next i v t) ∧
      ((∀ saved, .options saved ∉ newer) → next.optlist = st.optlist) := by
  induction newer generalizing st with
  | nil =>
    have same : st.dropped rest = st := by
      rw [nil_append] at stack
      rw [← stack]
      rfl
    exact ⟨st,rfl,rfl,valid,stack,by rw [same]; exact Frame.refl st,fun _ _ _ _ holds => holds,fun _ => rfl⟩
  | cons lvp newer ih =>
    have top : st.localvars = lvp :: (newer ++ rest) := stack
    obtain ⟨middle,ran,pops⟩ := poplocalvar_pops valid top
    obtain ⟨next,above,rest',validNext,stackNext,frame,others,optlist⟩ := ih pops.valid pops.stack
    have first : (modify (·.dropped (newer ++ rest)) : Sh Unit).run st = some (.ok (),st.dropped (newer ++ rest)) := rfl
    refine ⟨next,by rw [popAbove,bind_ok first,bind_ok ran,above],
      by rw [cons_append,funcdone_cons e ran,rest'],validNext,stackNext,?_,?_,?_⟩
    · have before : (st.dropped (newer ++ rest)).localvars = newer ++ rest := rfl
      exact (pops.frame.dropped before).trans frame
    · intro i v t apart holds
      apply others i v t (forall_mem_cons.mp apart).2
      exact pops.others i v t (apart lvp (mem_cons_self ..)) holds
    · intro plain
      rw [optlist fun saved listed => plain saved (mem_cons_of_mem lvp listed)]
      cases lvp with
      | options saved => exact absurd (mem_cons_self ..) (plain saved)
      | var r => exact pops.optlist ⟨r.vp,r,rfl,rfl⟩

end Popping

section Evaluating

variable {st : State}

theorem Valid.enter (valid : Valid st) : Valid st.enter := { valid with }

theorem leave_frame (entered : Frame st.enter body) (valid : Valid final) (stack : final.localvars = [])
    (frame : Frame (body.dropped []) final) : Valid final.leave ∧ Frame st final.leave := by
  have saved : final.saved = st.localvars :: st.saved := frame.saved.trans entered.saved
  have slots : final.leave.slots = final.slots := by simp [State.slots,State.leave,saved,stack]
  have outer {r : Slot} (listed : r ∈ st.slots) : r ∈ (body.dropped []).slots := by
    have below : body.saved = st.localvars :: st.saved := entered.saved
    simpa [State.slots,State.dropped,below] using listed
  refine ⟨valid.unstack (by rw [← State.leave,slots]),⟨[],?_⟩,?_,?_,?_,frame.shell.1.trans entered.shell.1,
    frame.shell.2.trans entered.shell.2⟩
  · simp [State.leave,saved]
  · simp [State.leave,saved]
  · intro r listed p text
    exact (frame.texts r (outer listed) p text).trans (entered.texts r listed p text)
  · intro r listed v t holds
    obtain ⟨w,u,here,name⟩ := entered.names r listed v t holds
    obtain ⟨x,z,there,same⟩ := frame.names r (outer listed) w u here
    exact ⟨x,z,there,same.trans name⟩

theorem leave_view (st : State) (name : Name) : st.leave.view name = st.view name := by
  have scan (list : List Nat) : st.leave.scan name.bytes list = st.scan name.bytes list := by
    induction list with
    | nil => rfl
    | cons vp list ih =>
      simp only [State.scan,ih]
      rfl
  simp only [State.view,State.findvar,scan]
  rfl

/-- The end of a function: its records are worked off, then the outer ones are in place. -/
theorem evalfun_run {inner : State} (ran : body.run st.enter = some (e,inner)) (valid : Valid inner) :
    ∃ final, (funcdone e inner.localvars).run inner = some (.ok e,final) ∧ Valid final ∧ final.localvars = [] ∧
      Frame (inner.dropped []) final ∧ (evalfun body).run st = some (e,final.leave) := by
  obtain ⟨final,_,done,validFinal,stack,frame,_⟩ := funcdone_append e inner.localvars [] valid (by simp)
  have finished : (funcdone e inner.localvars).run inner = some (.ok e,final) := by
    rw [append_nil] at done
    exact done
  refine ⟨final,finished,validFinal,stack,frame,?_⟩
  have first : (modify State.enter : Sh Unit).run st = some (.ok (),st.enter) := rfl
  have caught : (attempt body).run st.enter = some (.ok e,inner) := by simp [ran]
  rw [evalfun,bind_ok first,bind_ok caught,bind_ok (run_get inner),bind_ok finished]
  cases e with
  | ok done => rfl
  | error message => rfl

theorem evalfun_safe (safe : Safe body) : Safe (evalfun body) := by
  intro st valid
  obtain ⟨e,inner,ran,validInner,entered⟩ := safe st.enter valid.enter
  obtain ⟨final,_,validFinal,stack,frame,result⟩ := evalfun_run ran validInner
  exact ⟨_,_,result,leave_frame entered validFinal stack frame⟩

theorem modify_safe (valid : ∀ st, Valid st → Valid (f st)) (frame : ∀ st, Frame st (f st)) :
    Safe (modify f : Sh Unit) := Runs.modify fun st here => ⟨valid st here,frame st⟩

theorem exitstatus_safe (status : Nat) : Safe (modify fun st : State => { st with exitstatus := status } : Sh Unit) :=
  modify_safe (fun _ valid => { valid with })
    fun st => { Frame.refl st with }

theorem evalbltin_safe (special : Bool) {command : Sh Nat} (safe : Safe command) :
    Safe (evalbltin special command) := by
  refine Safe.bind (Runs.attempt safe) fun r => ?_
  cases r with
  | ok status => exact exitstatus_safe status
  | error message =>
    refine Safe.bind (exitstatus_safe 2) fun _ => ?_
    cases special with
    | true => exact Runs.raise Frame.refl message
    | false => exact Safe.pure ()

theorem evalcommand_safe (command : Command) : Safe (evalcommand command) := by
  cases command with
  | locals words => exact evalbltin_safe false (localcmd_safe words)
  | assigns list => exact Safe.bind (listsetvar_safe list {} rfl rfl) fun _ => evalbltin_safe true (Safe.pure 0)
  | exports list => exact evalbltin_safe true (exportcmd_safe _ rfl rfl list)
  | readonly list => exact evalbltin_safe true (exportcmd_safe _ rfl rfl list)
  | unsets list => exact evalbltin_safe true (unsetcmd_safe list)
  | sets changes => exact evalbltin_safe true (setcmd_safe changes)

def State.checked (st before : State) (tested : Bool) : State :=
  if before.optlist eflag && !tested && st.exitstatus != 0 then { st with evalskip := true } else st

theorem checked_safe (before : State) (tested : Bool) :
    Safe (modify fun st : State => st.checked before tested : Sh Unit) := by
  refine modify_safe (fun st valid => ?_) fun st => ?_
  · unfold State.checked
    split
    · exact { valid with }
    · exact valid
  · unfold State.checked
    split
    · exact { Frame.refl st with }
    · exact Frame.refl st

theorem checkexit_safe (tested : Bool) {command : Sh Unit} (safe : Safe command) : Safe (checkexit tested command) :=
  Safe.bind (Runs.get Frame.refl) fun before => Safe.bind safe fun _ => checked_safe before tested

theorem unskipped_safe (safe : Safe rest) :
    Safe (do let st ← get; if st.evalskip then pure () else rest : Sh Unit) := by
  refine Safe.bind (Runs.get Frame.refl) fun st => ?_
  split
  · exact Safe.pure ()
  · exact safe

theorem evalbody_safe (tested : Bool) (body : Body) : Safe (evalbody tested body) := by
  induction body with
  | nil => exact Safe.pure ()
  | command first rest ih =>
    exact Safe.bind (checkexit_safe tested (evalcommand_safe first)) fun _ => unskipped_safe ih
  | call list body rest ihBody ihRest =>
    have called := Safe.bind (listsetvar_safe list {} rfl rfl) fun _ => evalfun_safe ihBody
    exact Safe.bind (checkexit_safe tested called) fun _ => unskipped_safe ihRest

end Evaluating

section Restoring

variable {tested : Bool} {st : State} {body : Body}

def Body.append : Body → Body → Body
  | .nil,second => second
  | .command first rest,second => .command first (rest.append second)
  | .call list body rest,second => .call list body (rest.append second)

variable {next : State}

theorem unskipped_inv
    (ran : (do let st ← get; if st.evalskip then pure () else rest : Sh Unit).run s = some (.ok (),next))
    (going : next.evalskip = false) : s.evalskip = false ∧ rest.run s = some (.ok (),next) := by
  rw [bind_ok (run_get s)] at ran
  cases skip : s.evalskip with
  | false => exact ⟨rfl,by simpa [skip] using ran⟩
  | true =>
    simp only [skip,if_true,run_pure,some.injEq,mk.injEq,true_and] at ran
    rw [← ran,skip] at going
    cases going

theorem evalbody_append (second : Body) (ran : (evalbody tested first).run s = some (.ok (),next))
    (going : next.evalskip = false) :
    (evalbody tested (first.append second)).run s = (evalbody tested second).run next := by
  induction first generalizing s with
  | nil =>
    simp only [evalbody,run_pure,some.injEq,mk.injEq,true_and] at ran
    rw [Body.append,ran]
  | command command rest ih =>
    obtain ⟨_,middle,done,more⟩ := bind_inv ran
    obtain ⟨on,after⟩ := unskipped_inv more going
    rw [Body.append,evalbody,bind_ok done,bind_ok (run_get middle)]
    simp only [on,Bool.false_eq_true,if_false]
    exact ih after
  | call list body rest _ ih =>
    obtain ⟨_,middle,done,more⟩ := bind_inv ran
    obtain ⟨on,after⟩ := unskipped_inv more going
    rw [Body.append,evalbody,bind_ok done,bind_ok (run_get middle)]
    simp only [on,Bool.false_eq_true,if_false]
    exact ih after

/-- In the run of a body the argument of a `local` command is reached in the state `here` and
takes effect in `next`. -/
def Declares (tested : Bool) (st : State) (body : Body) (word : LocalWord) (here next : State) : Prop :=
  ∃ before words more after start, body = Body.append before (.command (.locals (words ++ word :: more)) after) ∧
    (evalbody tested before).run st.enter = some (.ok (),start) ∧ start.evalskip = false ∧
    (forEach mklocal words).run start = some (.ok (),here) ∧ (mklocal word).run here = some (.ok (),next)

/-- The function declares the variable local before it changes it. -/
def DeclaredFirst (tested : Bool) (st : State) (body : Body) (name : Name) (here : State) : Prop :=
  (∃ value next, Declares tested st body (.var name value) here next) ∧ here.view name = st.view name ∧
    ∀ q, .var q ∈ here.localvars → ∀ v t, Holds here q.vp v t → nameOf t.text ≠ name.bytes

/-- The function has `local -` before it changes an option. -/
def OptionsFirst (tested : Bool) (st : State) (body : Body) (here : State) : Prop :=
  (∃ next, Declares tested st body .options here next) ∧ here.optlist = st.optlist ∧
    ∀ saved, .options saved ∉ here.localvars

/-- What follows the arguments of a `local` command: its status, and the rest of the body. -/
def localEnd (tested : Bool) (start : State) (r : Except (List UInt8) Nat) (after : Body) : Sh Unit := do
  modify fun st => { st with exitstatus := match r with | .ok status => status | .error _ => 2 }
  modify fun st => st.checked start tested
  let st ← get
  if st.evalskip then pure () else evalbody tested after

theorem localEnd_safe (tested : Bool) (start : State) (r : Except (List UInt8) Nat) (after : Body) :
    Safe (localEnd tested start r after) :=
  Safe.bind (exitstatus_safe _) fun _ => Safe.bind (checked_safe start tested) fun _ =>
    unskipped_safe (evalbody_safe tested after)

variable {here inner : State} {e : Except (List UInt8) Unit}

theorem Declares.run (valid : Valid st) (declares : Declares tested st body word here next)
    (ran : (evalbody tested body).run st.enter = some (e,inner)) :
    Valid here ∧ Valid next ∧ Frame here next ∧ Frame next inner ∧ Valid inner := by
  obtain ⟨before,words,more,after,start,rfl,first,going,second,third⟩ := declares
  have reached {α : Type} {m : Sh α} (safe : Safe m) {s final : State} {r : Except (List UInt8) α} (valid : Valid s)
      (ran : m.run s = some (r,final)) : Valid final ∧ Frame s final := by
    obtain ⟨_,_,other,kept⟩ := safe s valid
    cases ran.symm.trans other
    exact kept
  obtain ⟨validStart,_⟩ := reached (evalbody_safe tested before) valid.enter first
  obtain ⟨validHere,_⟩ := reached (Safe.forEach mklocal_safe words) validStart second
  obtain ⟨validNext,frameNext⟩ := reached (mklocal_safe word) validHere third
  obtain ⟨r,declared,others,validDeclared,frameDeclared⟩ := localcmd_safe more next validNext
  have command : (localcmd (words ++ word :: more)).run start = some (r,declared) := by
    rw [localcmd,run_bind,forEach_append second,forEach,bind_ok third,← others,localcmd,run_bind]
  have joined : (localEnd tested start r after).run declared = some (e,inner) := by
    rw [← ran,evalbody_append _ first going]
    simp only [evalbody,checkexit,evalcommand,evalbltin,run_bind,run_get,run_attempt,command,map_some]
    cases r with
    | ok status => rfl
    | error message => rfl
  obtain ⟨validInner,frameInner⟩ := reached (localEnd_safe tested start r after) validDeclared joined
  exact ⟨validHere,validNext,frameNext,frameDeclared.trans frameInner,validInner⟩

/-- When the record of a declaration is worked off, its flags are kept. -/
def KeptSince (here inner : State) : Prop :=
  ∀ newer r middle v, inner.localvars = newer ++ .var r :: here.localvars →
    (popAbove (.var r :: here.localvars) newer).run inner = some (.ok (),middle) → middle.vars r.vp = some v →
    Kept r.flags v.flags

theorem declared_restored (valid : Valid st) (declared : DeclaredFirst tested st body name here)
    (ran : (evalbody tested body).run st.enter = some (e,inner))
    (done : (funcdone e inner.localvars).run inner = some (.ok e,final)) :
    final.leave.view name = st.view name ↔ KeptSince here inner := by
  obtain ⟨⟨value,next,declares⟩,unchanged,first⟩ := declared
  obtain ⟨validHere,validNext,_,frame,validInner⟩ := declares.run valid ran
  obtain ⟨r,made⟩ : ∃ r, Made here next name r := by
    obtain ⟨_,_,_,_,_,_,_,_,_,ranLocal⟩ := declares
    exact mklocal_made validHere ranLocal
  obtain ⟨newer,stack⟩ := frame.stack
  rw [made.stack] at stack
  obtain ⟨middle,above,rest,validMiddle,stackMiddle,frameMiddle,_,_⟩ :=
    funcdone_append e newer (.var r :: here.localvars) validInner stack
  have listed : r ∈ next.slots := by simp [State.slots,made.stack,Localvar.slot]
  have kept : r ∈ (inner.dropped (.var r :: here.localvars)).slots := by simp [State.slots,State.dropped,Localvar.slot]
  -- the saved value is what it was when the record is worked off
  have saved : r.view middle = st.view name := by
    rw [← unchanged,← made.view]
    cases text : r.text with
    | none => simp [Slot.view,text]
    | some p =>
      have same : middle.texts p = next.texts p := (frameMiddle.texts r kept p text).trans (frame.texts r listed p text)
      simp [Slot.view,text,same]
  obtain ⟨v,t,holds,own⟩ : ∃ v t, Holds middle r.vp v t ∧ nameOf t.text = name.bytes := by
    obtain ⟨w,u,there,own⟩ := made.named
    obtain ⟨w,u,there,same⟩ := frame.names r listed w u there
    obtain ⟨v,t,holds,last⟩ := frameMiddle.names r kept w u there
    exact ⟨v,t,holds,last.trans (same.trans own)⟩
  obtain ⟨popped,ranPop,pops,⟨w,u,there,same⟩,restored⟩ := poplocalvar_var validMiddle stackMiddle holds own
  obtain ⟨last,_,ending,validLast,_,_,others,_⟩ :=
    funcdone_append e here.localvars [] pops.valid (by rw [pops.stack,append_nil])
  have final_eq : final = last := by
    rw [stack,rest,funcdone_cons e ranPop] at done
    rw [append_nil,done] at ending
    exact (mk.inj (some.inj ending)).2
  have untouched : ∀ lvp ∈ here.localvars, ¬ lvp.touches r.vp := by
    rintro lvp there ⟨q,rfl,same⟩
    have slot : q ∈ here.slots := by
      simp only [State.slots,filterMap_append,mem_append,mem_filterMap]
      exact Or.inl ⟨_,there,rfl⟩
    exact made.others q slot (first q there) same.symm
  have view : final.leave.view name = popped.view name := by
    have stays := others r.vp w u untouched there
    rw [leave_view,final_eq]
    exact (validLast.view_found stays same).trans (pops.valid.view_found there same).symm
  rw [view,← saved,restored]
  constructor
  · intro keeps newer' r' middle' v' stack' above' there
    rw [stack] at stack'
    have cancel : newer ++ [Localvar.var r] = newer' ++ [Localvar.var r'] := by
      refine append_cancel_right (?_ : _ ++ here.localvars = _ ++ here.localvars)
      simpa using stack'
    obtain ⟨rfl,same⟩ := append_inj' cancel rfl
    obtain rfl : r = r' := by simpa using same
    rw [above] at above'
    cases above'
    cases holds.1.symm.trans there
    exact keeps
  · intro keeps
    exact keeps newer r middle v stack above holds.1

theorem options_declared (valid : Valid st) (declared : OptionsFirst tested st body here)
    (ran : (evalbody tested body).run st.enter = some (e,inner))
    (done : (funcdone e inner.localvars).run inner = some (.ok e,final)) : final.leave.optlist = st.optlist := by
  obtain ⟨⟨next,declares⟩,unchanged,first⟩ := declared
  obtain ⟨validHere,_,frameHere,frame,validInner⟩ := declares.run valid ran
  have made : next = here.push (.options here.optlist) := by
    obtain ⟨_,_,_,_,_,_,_,_,_,ranLocal⟩ := declares
    exact (mk.inj (some.inj ranLocal)).2.symm
  obtain ⟨newer,stack⟩ := frame.stack
  have top : next.localvars = .options here.optlist :: here.localvars := by rw [made]; rfl
  rw [top] at stack
  obtain ⟨middle,_,rest,validMiddle,stackMiddle,frameMiddle,_,_⟩ :=
    funcdone_append e newer (.options here.optlist :: here.localvars) validInner stack
  obtain ⟨ranPop,pops⟩ := poplocalvar_options validMiddle stackMiddle
  obtain ⟨last,_,ending,_,_,_,_,optlist⟩ :=
    funcdone_append e here.localvars [] pops.valid (by rw [pops.stack,append_nil])
  have final_eq : final = last := by
    rw [stack,rest,funcdone_cons e ranPop] at done
    rw [append_nil,done] at ending
    exact (mk.inj (some.inj ending)).2
  have root : middle.rootshell = here.rootshell := frameMiddle.shell.1.trans (frame.shell.1.trans frameHere.shell.1)
  have tty : middle.tty = here.tty := frameMiddle.shell.2.trans (frame.shell.2.trans frameHere.shell.2)
  have job : (middle.dropped here.localvars).rootshell = true → here.optlist mflag = true →
      (middle.dropped here.localvars).tty = true := by
    intro isRoot on
    obtain ⟨same,terminal⟩ := validHere.settled.2 (root.symm.trans isRoot)
    exact tty.trans (terminal (same.symm.trans on))
  calc final.leave.optlist = last.optlist := by rw [final_eq]; rfl
    _ = ((middle.dropped here.localvars).restoreOptions here.optlist).optlist := optlist first
    _ = here.optlist := options_restored validHere.settled.1 job
    _ = st.optlist := unchanged

/-- Every variable that the function declares local before it changes it is as before the call, and
so are the options after `local -`. -/
def Restores (tested : Bool) (st : State) (body : Body) (final : State) : Prop :=
  (∀ name here, DeclaredFirst tested st body name here → final.view name = st.view name) ∧
    ∀ here, OptionsFirst tested st body here → final.optlist = st.optlist

/-- The call of a function returns or raises the error of its body, and it restores what is local
just if each record that only unsets its variable finds the flags as they were. -/
theorem evalfun_restores (tested : Bool) (body : Body) (st : State) (valid : Valid st) :
    ∃ e inner final, (evalbody tested body).run st.enter = some (e,inner) ∧
      (evalfun (evalbody tested body)).run st = some (e,final) ∧ Valid final ∧
      (Restores tested st body final ↔
        ∀ name here, DeclaredFirst tested st body name here → KeptSince here inner) := by
  obtain ⟨e,inner,ran,validInner,entered⟩ := evalbody_safe tested body st.enter valid.enter
  obtain ⟨final,done,validFinal,stack,frame,result⟩ := evalfun_run ran validInner
  refine ⟨e,inner,final.leave,ran,result,(leave_frame entered validFinal stack frame).1,?_,?_⟩
  · intro restores name here declared
    exact (declared_restored valid declared ran done).mp (restores.1 name here declared)
  · intro kept
    refine ⟨fun name here declared => ?_,fun here declared => options_declared valid declared ran done⟩
    exact (declared_restored valid declared ran done).mpr (kept name here declared)

end Restoring

section Starting

theorem initOne_valid (list : List (Name × Option (List UInt8) × Option Callback)) (st : State) (valid : Valid st)
    (distinct : (list.map fun init => init.1.bytes).Nodup)
    (fresh : ∀ init ∈ list, ∀ vp v t, Holds st vp v t → nameOf t.text ≠ init.1.bytes)
    (accepted : ∀ init ∈ list, ∀ f, init.2.2 = some f → f.run (argument ⟨init.1.word init.2.1,[]⟩) = .ok ()) :
    Valid (list.foldl initOne st) := by
  induction list generalizing st with
  | nil => exact valid
  | cons init list ih =>
    obtain ⟨other,rest⟩ := nodup_cons.mp distinct
    have added : Valid (initOne st init) := by
      refine valid.add _ _ ((nameOf_word init.1 init.2.1).symm ▸ fresh init (mem_cons_self ..)) fun calls => ⟨rfl,?_⟩
      obtain ⟨f,func⟩ := ne_none_iff_exists'.mp calls
      simp only [Var.callback,func]
      exact accepted init (mem_cons_self ..) f func
    refine ih _ added rest (fun next later vp v t holds => ?_) (forall_mem_cons.mp accepted).2
    rcases valid.add_cases holds with ⟨_,rfl,_⟩ | here
    · intro same
      rw [nameOf_word] at same
      exact other (mem_map.mpr ⟨next,later,same.symm⟩)
    · exact fresh next (.tail _ later) vp v t here

theorem empty_valid :
    Valid ⟨fun _ => [],fun _ => none,fun _ => none,0,0,[],[],fun _ => false,false,true,false,0,false⟩ where
  live := fun _ _ there => nomatch there
  listed := fun _ _ there => nomatch there
  nodup := fun _ => nodup_nil
  names := fun _ _ _ _ _ _ holds => nomatch holds.1
  freshVar := fun _ _ => rfl
  freshText := fun _ _ => rfl
  alone := fun _ _ _ _ there => nomatch there
  unsaved := fun _ _ there => nomatch there
  own := fun _ listed => nomatch listed
  stacked := List.Pairwise.nil
  fixed := fun _ listed => nomatch listed
  missing := fun _ listed => nomatch listed
  called := fun _ _ _ holds => nomatch holds.1
  recalled := fun _ listed => nomatch listed
  settled := ⟨rfl,fun _ => ⟨rfl,fun never => nomatch never⟩⟩

theorem initvar_valid : Valid initvar := by
  refine initOne_valid varinit _ empty_valid (by decide) (fun _ _ vp v t holds => nomatch holds.1) ?_
  intro init listed f func
  simp only [varinit,mem_cons,not_mem_nil,or_false] at listed
  rcases listed with rfl | rfl | rfl | rfl | rfl | rfl | rfl | rfl <;> cases func <;> decide

theorem path_valid : text "PATH" ≠ [] ∧ endofname (text "PATH") = (text "PATH").length := by decide

def sampleBody : Body :=
  .command (.locals [.var ⟨text "PATH",path_valid⟩ none,.var ⟨text "x",by decide⟩ (some (text "1")),.options])
    (.command (.assigns [(⟨text "PATH",path_valid⟩,text "/tmp")]) .nil)

theorem evalfun_restores_initvar :
    Valid initvar ∧ ∃ e inner final, (evalbody false sampleBody).run initvar.enter = some (e,inner) ∧
      (evalfun (evalbody false sampleBody)).run initvar = some (e,final) ∧ Valid final ∧
      (Restores false initvar sampleBody final ↔
        ∀ name here, DeclaredFirst false initvar sampleBody name here → KeptSince here inner) :=
  ⟨initvar_valid,evalfun_restores false sampleBody initvar initvar_valid⟩

def leakBody : Body :=
  .command (.locals [.var ⟨text "x",by decide⟩ (some (text "1"))])
    (.command (.readonly [(⟨text "x",by decide⟩,none)]) .nil)

/-- A local variable that is made read-only outlives the function. -/
theorem readonly_local_leaks : ∃ e final, (evalfun (evalbody false leakBody)).run initvar = some (e,final) ∧
    final.view ⟨text "x",by decide⟩ = ⟨some (text "1"),false,true⟩ ∧
    initvar.view ⟨text "x",by decide⟩ = View.missing ∧ ¬ Restores false initvar leakBody final := by
  refine ⟨_,_,rfl,by decide,by decide,?_⟩
  rintro ⟨restored,_⟩
  have declared : DeclaredFirst false initvar leakBody ⟨text "x",by decide⟩ initvar.enter := by
    refine ⟨⟨some (text "1"),_,.nil,[],[],.command (.readonly [(⟨text "x",by decide⟩,none)]) .nil,initvar.enter,
      rfl,rfl,rfl,rfl,rfl⟩,by decide,fun q listed => nomatch listed⟩
  exact absurd (restored _ _ declared) (by decide)

end Starting

end Stablebox.Ash.Variables
