import Mathlib.Data.Option.Basic

/-! Runs of a partial step function over a list of actions, and the rule that lifts
a step invariant to them. A step that gives nothing has no run behind it. The same rule for
loops over a range of numbers. -/
namespace Stablebox

variable {S A : Type}

def runActions (step : S → A → Option S) : List A → S → Option S
  | [],s => some s
  | action :: rest,s => (step s action).bind (runActions step rest)

theorem runActions_cons (step : S → A → Option S) (action : A) (rest : List A) (s final : S) :
    runActions step (action :: rest) s = some final ↔
      ∃ next, step s action = some next ∧ runActions step rest next = some final := by
  simp [runActions,Option.bind_eq_some_iff]

theorem runActions_append (step : S → A → Option S) (first second : List A) (s : S) :
    runActions step (first ++ second) s = (runActions step first s).bind (runActions step second) := by
  induction first generalizing s with
  | nil => rfl
  | cons action rest ih =>
    simp only [List.cons_append,runActions]
    cases step s action with
    | none => rfl
    | some next => exact ih next

theorem runActions_invariant_of (step : S → A → Option S) (property : S → Prop)
    (allowed : S → A → Prop)
    (preserved : ∀ s action next, property s → allowed s action → step s action = some next → property next)
    (actions : List A) (s final : S) (initial : property s)
    (meets : ∀ before action after middle, actions = before ++ action :: after →
      runActions step before s = some middle → allowed middle action)
    (ran : runActions step actions s = some final) : property final := by
  induction actions generalizing s with
  | nil =>
    cases ran
    exact initial
  | cons action rest ih =>
    obtain ⟨next,stepped,ran⟩ := (runActions_cons step action rest s final).mp ran
    refine ih next (preserved s action next initial (meets [] action rest s rfl rfl) stepped) ?_ ran
    intro before later after middle split reached
    refine meets (action :: before) later after middle (by rw [split]; rfl) ?_
    exact (runActions_cons step action before s middle).mpr ⟨next,stepped,reached⟩

theorem runActions_invariant (step : S → A → Option S) (property : S → Prop)
    (preserved : ∀ s action next, property s → step s action = some next → property next) (actions : List A)
    (s final : S) (initial : property s) (ran : runActions step actions s = some final) : property final :=
  runActions_invariant_of step property (fun _ _ => True) (fun s action next kept _ => preserved s action next kept)
    actions s final initial (fun _ _ _ _ _ _ => trivial) ran

theorem foldl_range_invariant {B : Type} (turn : B → Nat → B) (property : Nat → B → Prop) (start count : Nat) (b : B)
    (initial : property start b)
    (preserved : ∀ i b, start ≤ i → i < start + count → property i b → property (i + 1) (turn b i)) :
    property (start + count) ((List.range' start count).foldl turn b) := by
  induction count generalizing start b with
  | zero => exact initial
  | succ count ih =>
    have first := preserved start b (Nat.le_refl start) (Nat.lt_add_of_pos_right (Nat.succ_pos count)) initial
    have rest := ih (start + 1) (turn b start) first fun i b le less => preserved i b (by omega) (by omega)
    rw [Nat.add_right_comm] at rest
    exact rest

end Stablebox
