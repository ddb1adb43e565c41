import Stablebox.Lib.Machine

/-! One computation simulates another: both pass the same states and fail alike, and their
results are related. Some failures of the simulated computation can be excused: nothing
is claimed about what the other does then. -/
namespace Stablebox

section

variable {S E α β γ δ : Type} {excused : E → Prop} {related : α → β → Prop}

/-- The results of two computations: the first is as the second says. -/
inductive Agrees (excused : E → Prop) (related : α → β → Prop) : Except E α → Except E β → Prop where
  | ok (a : α) (b : β) (here : related a b) : Agrees excused related (.ok a) (.ok b)
  | error (e : E) : Agrees excused related (.error e) (.error e)
  | excused (x : Except E α) (e : E) (excuse : excused e) : Agrees excused related x (.error e)

variable {x : Except E α}

theorem Agrees.bind (first : Agrees excused related x y)
    (second : ∀ a b, related a b → Agrees excused next (f a) (g b)) : Agrees excused next (x >>= f) (y >>= g) := by
  cases first with
  | ok a b here => exact second a b here
  | error e => exact .error e
  | excused x e excuse => exact .excused _ e excuse

/-- Computations with a state: the states stay the same. -/
def Simulates (excused : E → Prop) (related : α → β → Prop) (m : StateT S (Except E) α)
    (n : StateT S (Except E) β) : Prop :=
  ∀ s, Agrees excused (fun p q => related p.1 q.1 ∧ p.2 = q.2) (m s) (n s)

theorem Simulates.refl (m : StateT S (Except E) α) : Simulates excused Eq m m := by
  intro s
  cases m s with
  | ok result => exact .ok _ _ ⟨rfl,rfl⟩
  | error e => exact .error e

variable {a : α}

theorem Simulates.pure (here : related a b) :
    Simulates excused related (Pure.pure a : StateT S (Except E) α) (Pure.pure b) :=
  fun _ => .ok _ _ ⟨here,rfl⟩

variable {m : StateT S (Except E) α}

theorem Simulates.bind (first : Simulates excused related m n)
    (second : ∀ a b, related a b → Simulates excused next (f a) (g b)) :
    Simulates excused next (m >>= f) (n >>= g) := by
  intro s
  refine Agrees.bind (first s) fun p q here => ?_
  obtain ⟨here,same⟩ := here
  show Agrees _ _ (f p.1 p.2) (g q.1 q.2)
  rw [same]
  exact second p.1 q.1 here q.2

theorem Simulates.after (m : StateT S (Except E) α) (second : ∀ a, Simulates excused next (f a) (g a)) :
    Simulates excused next (m >>= f) (m >>= g) :=
  (Simulates.refl m).bind fun a b same => by rw [same]; exact second b

theorem Simulates.lift (here : Agrees excused related x y) :
    Simulates excused related (liftM x : StateT S (Except E) α) (liftM y : StateT S (Except E) β) := by
  intro s
  cases here with
  | ok a b here => exact .ok _ _ ⟨here,rfl⟩
  | error e => exact .error e
  | excused x e excuse => exact .excused _ e excuse

theorem bind_eq_ok {f : α → Except E β} (done : (x >>= f) = .ok b) : ∃ a, x = .ok a ∧ f a = .ok b := by
  cases x with
  | error e => cases done
  | ok a => exact ⟨a,rfl,done⟩

theorem bind_run {next : S} (done : m s = .ok (a,next)) : (m >>= f) s = f a next := by
  show (m s >>= fun p => f p.1 p.2) = _
  rw [done]
  rfl

theorem lift_run (done : x = .ok a) : (liftM x : StateT S (Except E) α) s = .ok (a,s) := by
  rw [done]
  rfl

/-- The computation fails only as allowed and returns what `holds` says. -/
def Within (allowed : E → Prop) (holds : α → Prop) (x : Except E α) : Prop :=
  (∀ e, x = .error e → allowed e) ∧ ∀ a, x = .ok a → holds a

theorem Within.ok (here : holds a) : Within allowed holds (.ok a : Except E α) := by
  refine ⟨fun e fails => (by cases fails),fun b done => ?_⟩
  cases done
  exact here

theorem Within.bind {f : α → Except E β} (first : Within allowed holds x)
    (second : ∀ a, holds a → Within allowed ends (f a)) : Within allowed ends (x >>= f) := by
  cases x with
  | error e =>
    refine ⟨fun other same => ?_,fun b done => (by cases done)⟩
    cases same
    exact first.1 e rfl
  | ok a => exact second a (first.2 a rfl)

end

section

variable {S T Q R : Type}

theorem exec_simulates (related : S → T → Prop) (ends : Q → R → Prop) (excused : R → Prop)
    (turn : ∀ s t, related s t →
      match second t with
      | .inl next => ∃ after, first s = .inl after ∧ related after next
      | .inr r => excused r ∨ ∃ q, first s = .inr q ∧ ends q r)
    (fuel : Nat) (s : S) (t : T) (here : related s t) (r : R) (done : exec second fuel t = some r) :
    excused r ∨ ∃ q, exec first fuel s = some q ∧ ends q r := by
  induction fuel generalizing s t with
  | zero => cases done
  | succ fuel ih =>
    have goes := turn s t here
    rw [exec] at done ⊢
    cases after : second t with
    | inl next =>
      rw [after] at goes done
      obtain ⟨later,same,here⟩ := goes
      rw [same]
      exact ih later next here done
    | inr result =>
      rw [after] at goes done
      cases done
      rcases goes with excuse | ⟨q,same,ends⟩
      · exact .inl excuse
      · rw [same]
        exact .inr ⟨q,rfl,ends⟩

end

end Stablebox
