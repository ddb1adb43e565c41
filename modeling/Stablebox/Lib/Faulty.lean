import Mathlib.Tactic.Common

/-! Programs over a state that can raise an error, which keeps the state, and that can touch
memory they must not. A rule for each way of putting them together says that an invariant and a
relation between the first and the last state are kept. -/
namespace Stablebox

/-- A result or an error with the state that was reached; `none` after a memory fault. -/
def Faulty (S E α : Type) := S → Option (Except E α × S)

namespace Faulty

variable {S E α β : Type}

def run (m : Faulty S E α) (s : S) : Option (Except E α × S) := m s

instance : Monad (Faulty S E) where
  pure a := fun s => some (.ok a,s)
  bind m f := fun s =>
    match m.run s with
    | none => none
    | some (.error e,next) => some (.error e,next)
    | some (.ok a,next) => (f a).run next

def raise (e : E) : Faulty S E α := fun s => some (.error e,s)

def get : Faulty S E S := fun s => some (.ok s,s)

def modify (f : S → S) : Faulty S E Unit := fun s => some (.ok (),f s)

/-- Something read from the state, with a fault if it is not there. -/
def reading (f : S → Option α) : Faulty S E α := fun s => (f s).map fun a => (.ok a,s)

/-- A step of memory, with a fault if it may not be done. -/
def stepping (f : S → Option S) : Faulty S E Unit := fun s => (f s).map fun next => (.ok (),next)

def attempt (m : Faulty S E α) : Faulty S E (Except E α) := fun s => (m.run s).map fun (r,next) => (.ok r,next)

def forEach (f : α → Faulty S E Unit) : List α → Faulty S E Unit
  | [] => pure ()
  | a :: rest => do
    f a
    forEach f rest

@[simp] theorem run_pure (a : α) (s : S) : (pure a : Faulty S E α).run s = some (.ok a,s) := rfl

@[simp] theorem run_raise (e : E) (s : S) : (raise e : Faulty S E α).run s = some (.error e,s) := rfl

@[simp] theorem run_get (s : S) : (get : Faulty S E S).run s = some (.ok s,s) := rfl

@[simp] theorem run_modify (f : S → S) (s : S) : (modify f : Faulty S E Unit).run s = some (.ok (),f s) := rfl

@[simp] theorem run_reading (f : S → Option α) (s : S) :
    (reading f : Faulty S E α).run s = (f s).map fun a => (.ok a,s) := rfl

@[simp] theorem run_stepping (f : S → Option S) (s : S) :
    (stepping f : Faulty S E Unit).run s = (f s).map fun next => (.ok (),next) := rfl

@[simp] theorem run_attempt (m : Faulty S E α) (s : S) :
    (attempt m).run s = (m.run s).map fun (r,next) => (.ok r,next) := rfl

theorem run_bind (m : Faulty S E α) (f : α → Faulty S E β) (s : S) :
    (m >>= f).run s =
      match m.run s with
      | none => none
      | some (.error e,next) => some (.error e,next)
      | some (.ok a,next) => (f a).run next := rfl

variable {m : Faulty S E α} {s next : S}

theorem bind_ok (ran : m.run s = some (.ok a,next)) :
    (m >>= f).run s = (f a).run next := by simp only [run_bind,ran]

theorem bind_error (ran : m.run s = some (.error e,next)) :
    (m >>= f).run s = some (.error e,next) := by simp only [run_bind,ran]

theorem bind_inv (ran : (m >>= f).run s = some (.ok b,final)) :
    ∃ a next, m.run s = some (.ok a,next) ∧ (f a).run next = some (.ok b,final) := by
  rw [run_bind] at ran
  split at ran
  · cases ran
  · cases ran
  · rename_i a next here
    exact ⟨a,next,here,ran⟩

theorem forEach_append {f : α → Faulty S E Unit} (ran : (forEach f first).run s = some (.ok (),next))
    (second : List α) : (forEach f (first ++ second)).run s = (forEach f second).run next := by
  induction first generalizing s with
  | nil =>
    simp only [forEach,run_pure,Option.some.injEq,Prod.mk.injEq,true_and] at ran
    rw [ran,List.nil_append]
  | cons a first ih =>
    obtain ⟨_,middle,here,rest⟩ := bind_inv ran
    rw [List.cons_append,forEach,bind_ok here]
    exact ih rest

theorem forEach_inv {f : α → Faulty S E Unit} (ran : (forEach f list).run s = some (.ok (),next)) :
    ∀ a ∈ list, ∃ s next, (f a).run s = some (.ok (),next) := by
  induction list generalizing s with
  | nil => simp
  | cons a list ih =>
    obtain ⟨_,middle,here,rest⟩ := bind_inv ran
    exact List.forall_mem_cons.mpr ⟨⟨s,middle,here⟩,ih rest⟩

/-- From the invariant the program has no fault, and it keeps the invariant and the relation
whether it returns or raises an error. -/
def Runs (inv : S → Prop) (rel : S → S → Prop) (m : Faulty S E α) : Prop :=
  ∀ s, inv s → ∃ r next, m.run s = some (r,next) ∧ inv next ∧ rel s next

section Rules

theorem Runs.pure (reflexive : ∀ s, rel s s) (a : α) : Runs inv rel (Pure.pure a : Faulty S E α) :=
  fun s holds => ⟨.ok a,s,rfl,holds,reflexive s⟩

theorem Runs.raise (reflexive : ∀ s, rel s s) (e : E) : Runs inv rel (Faulty.raise e : Faulty S E α) :=
  fun s holds => ⟨.error e,s,rfl,holds,reflexive s⟩

theorem Runs.get (reflexive : ∀ s, rel s s) : Runs inv rel (Faulty.get : Faulty S E S) :=
  fun s holds => ⟨.ok s,s,rfl,holds,reflexive s⟩

theorem Runs.modify {f : S → S} (keeps : ∀ s, inv s → inv (f s) ∧ rel s (f s)) :
    Runs inv rel (Faulty.modify f : Faulty S E Unit) := fun s holds => ⟨.ok (),f s,rfl,keeps s holds⟩

theorem Runs.bind (transitive : ∀ a b c, rel a b → rel b c → rel a c) (first : Runs inv rel m)
    (second : ∀ a, Runs inv rel (f a)) : Runs inv rel (m >>= f) := by
  intro s holds
  obtain ⟨r,next,ran,holdsNext,related⟩ := first s holds
  cases r with
  | error e => exact ⟨.error e,next,bind_error ran,holdsNext,related⟩
  | ok a =>
    obtain ⟨r,final,ranNext,holdsFinal,relatedNext⟩ := second a next holdsNext
    exact ⟨r,final,by rw [bind_ok ran,ranNext],holdsFinal,transitive _ _ _ related relatedNext⟩

theorem Runs.attempt (runs : Runs inv rel m) : Runs inv rel (Faulty.attempt m) := by
  intro s holds
  obtain ⟨r,next,ran,kept⟩ := runs s holds
  exact ⟨.ok r,next,by simp [ran],kept⟩

theorem Runs.forEach (reflexive : ∀ s, rel s s) (transitive : ∀ a b c, rel a b → rel b c → rel a c)
    {f : α → Faulty S E Unit} (each : ∀ a, Runs inv rel (f a)) (list : List α) :
    Runs inv rel (Faulty.forEach f list) := by
  induction list with
  | nil => exact Runs.pure reflexive ()
  | cons a list ih => exact Runs.bind transitive (each a) fun _ => ih

end Rules

end Faulty

end Stablebox
