import Mathlib.Data.List.Pairwise
import Mathlib.Data.List.Perm.Subperm

/-! Comparison functions as `qsort` takes them: the sign of the result is the order. -/
namespace Stablebox.Comparison

/-- A comparison that is antisymmetric and transitive. -/
structure Orders {α : Type} (compares : α → α → Int) : Prop where
  swap : ∀ x y, 0 < compares x y ↔ compares y x < 0
  trans : ∀ x y z, compares x y ≤ 0 → compares y z ≤ 0 → compares x z ≤ 0

/-- What `qsort` leaves: anything if the comparison is no order. -/
def Qsort {α : Type} (compares : α → α → Int) (given left : List α) : Prop :=
  Orders compares → left.Perm given ∧ left.Pairwise fun x y => compares x y ≤ 0

variable {α β : Type}

namespace Orders

theorem same (orders : Orders compares) (x y : α) : compares x y = 0 ↔ compares y x = 0 := by
  have front := orders.swap x y
  have back := orders.swap y x
  omega

theorem self (orders : Orders compares) (x : α) : compares x x = 0 := by
  have swap := orders.swap x x
  omega

theorem comap (orders : Orders compares) (f : β → α) : Orders fun x y => compares (f x) (f y) :=
  ⟨fun x y => orders.swap (f x) (f y),fun x y z => orders.trans (f x) (f y) (f z)⟩

theorem neg (orders : Orders compares) : Orders fun x y => -compares x y := by
  refine ⟨fun x y => ?_,fun x y z first next => ?_⟩
  · have swap := orders.swap y x
    omega
  · have swap := orders.swap
    have := orders.trans z y x (by have := swap z y; omega) (by have := swap y x; omega)
    have := swap z x
    omega

theorem zero : Orders fun _ _ : α => 0 := ⟨by simp,by simp⟩

theorem orElse (first : Orders compares) (next : Orders second) :
    Orders fun x y => if compares x y ≠ 0 then compares x y else second x y := by
  refine ⟨fun x y => ?_,fun x y z left right => ?_⟩
  · have swap := first.swap x y
    have same := first.same x y
    have rest := next.swap x y
    split_ifs <;> omega
  · have whole := first.trans x y z
    have front := first.trans z x y
    have back := first.trans y z x
    have := first.swap y x
    have := first.swap z y
    have := first.swap z x
    have rest := next.trans x y z
    split_ifs at * <;> omega

end Orders
end Stablebox.Comparison
