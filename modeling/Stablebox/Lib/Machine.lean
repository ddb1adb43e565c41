import Mathlib.Logic.Relation

/-! Machines that take one step at a time until they return: the meaning of code with
loops and jumps. A step goes on from a new state or returns a result. -/
namespace Stablebox

variable {S R : Type}

/-- Run for at most `fuel` steps. -/
def exec (step : S → S ⊕ R) : (fuel : Nat) → S → Option R
  | 0,_ => none
  | fuel + 1,s =>
    match step s with
    | .inl next => exec step fuel next
    | .inr result => some result

/-- The machine returns `result` from `s`. -/
def Yields (step : S → S ⊕ R) (s : S) (result : R) : Prop := ∃ fuel, exec step fuel s = some result

def Reaches (step : S → S ⊕ R) : S → S → Prop := Relation.ReflTransGen fun s next => step s = .inl next

variable {step : S → S ⊕ R}

theorem exec_more (fuel more : Nat) (s : S) (result : R) (done : exec step fuel s = some result) :
    exec step (fuel + more) s = some result := by
  induction fuel generalizing s with
  | zero => cases done
  | succ fuel ih =>
    rw [Nat.add_right_comm]
    rw [exec] at done ⊢
    split at done
    · exact ih _ done
    · exact done

theorem Yields.of_done (done : step s = .inr result) : Yields step s result :=
  ⟨1,by simp [exec,done]⟩

theorem Yields.of_next (goes : step s = .inl next) (rest : Yields step next result) :
    Yields step s result := by
  obtain ⟨fuel,done⟩ := rest
  exact ⟨fuel + 1,by simp [exec,goes,done]⟩

theorem Yields.unique (first : Yields step s a) (second : Yields step s b) : a = b := by
  obtain ⟨m,doneA⟩ := first
  obtain ⟨n,doneB⟩ := second
  have left := exec_more m n s a doneA
  have right := exec_more n m s b doneB
  rw [Nat.add_comm] at right
  exact Option.mem_unique left right

theorem Reaches.one (goes : step s = .inl next) : Reaches step s next :=
  Relation.ReflTransGen.single goes

theorem Reaches.step_then (goes : step s = .inl middle) (rest : Reaches step middle next) :
    Reaches step s next := Relation.ReflTransGen.head goes rest

theorem exec_reaches (done : exec step fuel s = some result) :
    ∃ last, Reaches step s last ∧ step last = .inr result := by
  induction fuel generalizing s with
  | zero => cases done
  | succ fuel ih =>
    rw [exec] at done
    cases goes : step s with
    | inl next =>
      rw [goes] at done
      obtain ⟨last,path,ends⟩ := ih done
      exact ⟨last,.step_then goes path,ends⟩
    | inr value =>
      rw [goes] at done
      cases done
      exact ⟨s,.refl,goes⟩

/-- Total correctness: what every step keeps, while a weight goes down, holds until the
machine returns. -/
theorem yields_of_weight {W : Type} {less : W → W → Prop} (wellFounded : WellFounded less)
    (Keeps : W → S → Prop) (Ends : R → Prop)
    (turn : ∀ w s, Keeps w s →
      (∃ lighter next, step s = .inl next ∧ Keeps lighter next ∧ less lighter w) ∨
      ∃ result, step s = .inr result ∧ Ends result)
    (w : W) (s : S) (kept : Keeps w s) : ∃ result, Yields step s result ∧ Ends result := by
  induction w using wellFounded.induction generalizing s with
  | _ w ih =>
    rcases turn w s kept with ⟨lighter,next,goes,keptNext,less⟩ | ⟨result,done,ends⟩
    · obtain ⟨result,yields,ends⟩ := ih lighter less next keptNext
      exact ⟨result,.of_next goes yields,ends⟩
    · exact ⟨result,.of_done done,ends⟩

/-- If every step lowers a weight, more fuel than that gives a result. -/
theorem exec_of_weight (weight : S → Nat) (lowers : ∀ s next, step s = .inl next → weight next < weight s)
    (fuel : Nat) (s : S) (enough : weight s < fuel) : ∃ result, exec step fuel s = some result := by
  induction fuel generalizing s with
  | zero => exact absurd enough (Nat.not_lt_zero _)
  | succ fuel ih =>
    rw [exec]
    cases goes : step s with
    | inl next => exact ih next (Nat.lt_of_lt_of_le (lowers s next goes) (Nat.le_of_lt_succ enough))
    | inr result => exact ⟨result,rfl⟩

end Stablebox
