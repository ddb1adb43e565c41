import Mathlib.Data.Nat.ModEq

/-! Rings: a fixed number of cells that hold the last elements of everything written so
far. A decoder with a ring reads the same as one that keeps its whole output. -/
namespace Stablebox.Ring

open List Function Nat

variable {α : Type} {size : Nat} {cells : Nat → α} {history : List α}

/-- Each of the last `size` elements is in the cell of its own place modulo `size`. -/
def Mirrors (size : Nat) (cells : Nat → α) (history : List α) : Prop :=
  ∀ i x, history[i]? = some x → history.length ≤ i + size → cells (i % size) = x

theorem mirrors_nil (size : Nat) (cells : Nat → α) : Mirrors size cells [] := by
  intro i x here
  simp at here

theorem mod_ne_of_near (earlier : i < j) (near : j < i + size) : i % size ≠ j % size := by
  intro same
  have multiple : size ∣ j - i := (modEq_iff_dvd' (le_of_lt earlier)).mp same
  have large := le_of_dvd (by omega) multiple
  omega

theorem Mirrors.push (mirrors : Mirrors size cells history) (x : α) :
    Mirrors size (update cells (history.length % size) x) (history ++ [x]) := by
  intro i y here near
  rw [length_append,length_singleton] at near
  by_cases last : i = history.length
  · subst last
    rw [getElem?_append_right (Nat.le_refl _),Nat.sub_self] at here
    rw [update_self]
    exact Option.some.inj here
  · have bound := (List.getElem?_eq_some_iff.mp here).1
    rw [length_append,length_singleton] at bound
    rw [getElem?_append_left (by omega)] at here
    rw [update_of_ne (mod_ne_of_near (by omega) (by omega))]
    exact mirrors i y here (by omega)

theorem Mirrors.read (mirrors : Mirrors size cells history) (distance : Nat) (positive : 0 < distance)
    (covered : distance ≤ size) (written : distance ≤ history.length) :
    history[history.length - distance]? = some (cells ((history.length - distance) % size)) := by
  have bound : history.length - distance < history.length := by omega
  rw [getElem?_eq_getElem bound]
  exact congrArg some (mirrors _ _ (getElem?_eq_getElem bound) (by omega)).symm

theorem back_far {length distance : Nat} (far : length % size < distance) (covered : distance ≤ size)
    (written : distance ≤ length) : (length - distance) % size = length % size + size - distance := by
  have split := div_add_mod length size
  cases whole : length / size with
  | zero =>
    rw [whole] at split
    omega
  | succ turns =>
    rw [whole,mul_succ] at split
    have shape : length - distance = size * turns + (length % size + size - distance) := by omega
    rw [shape,mul_add_mod]
    exact mod_eq_of_lt (by omega)

theorem Mirrors.front (mirrors : Mirrors size cells history) (n : Nat) (covered : n ≤ size)
    (written : n ≤ history.length) (turn : (history.length - n) % size = 0) :
    (List.range n).map cells = history.drop (history.length - n) := by
  apply ext_getElem
  · simp only [length_map,length_range,length_drop]
    omega
  intro k here _
  rw [length_map,length_range] at here
  have place : (history.length - n + k) % size = k := by
    rw [add_mod,turn,zero_add,mod_mod]
    exact mod_eq_of_lt (by omega)
  have bound : history.length - n + k < history.length := by omega
  have there := mirrors _ _ (getElem?_eq_getElem bound) (by omega)
  rw [place] at there
  simpa using there

end Stablebox.Ring
