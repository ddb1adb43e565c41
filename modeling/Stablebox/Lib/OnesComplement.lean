import Stablebox.Lib.Memory

/-! Sums of 16-bit words of memory and their ones'-complement residues. Zero has a
residue of its own; every other sum has the one between 1 and 65535 that agrees with
it modulo 65535. -/
namespace Stablebox

open Endian

def wordSum (e : Endian) (m : Memory) (p : Nat) : Nat → Nat
  | 0 => 0
  | n + 1 => wordSum e m p n + (m.load16 e (p + 2 * n)).toNat

theorem wordSum_le (e : Endian) (m : Memory) (p n : Nat) : wordSum e m p n ≤ 65535 * n := by
  induction n with
  | zero => exact Nat.le_refl 0
  | succ n ih =>
    have bound := (m.load16 e (p + 2 * n)).toNat_lt
    simp only [wordSum]
    omega

theorem wordSum_succ (e : Endian) (m : Memory) (p n : Nat) :
    wordSum e m p (n + 1) = (m.load16 e p).toNat + wordSum e m (p + 2) n := by
  induction n with
  | zero => simp [wordSum]
  | succ n ih =>
    rw [wordSum,ih,wordSum,show p + 2 * (n + 1) = p + 2 + 2 * n by omega,Nat.add_assoc]

theorem wordSum_congr (e : Endian) (same : ∀ i < 2 * n, m (p + i) = other (p + i)) :
    wordSum e m p n = wordSum e other p n := by
  induction n with
  | zero => rfl
  | succ n ih =>
    have last : m.load16 e (p + 2 * n) = other.load16 e (p + 2 * n) := by
      simp only [Memory.load16,same (2 * n) (by omega)]
      rw [show p + 2 * n + 1 = p + (2 * n + 1) by omega,same (2 * n + 1) (by omega)]
    simp only [wordSum,last,ih fun i bound => same i (by omega)]

theorem wordSum_store16 (e : Endian) (m : Memory) (p : Nat) (word : UInt16) (inside : k < n) :
    wordSum e (m.store16 e (p + 2 * k) word) p n + (m.load16 e (p + 2 * k)).toNat =
      wordSum e m p n + word.toNat := by
  induction n with
  | zero => omega
  | succ n ih =>
    by_cases last : k = n
    · subst last
      have front : wordSum e (m.store16 e (p + 2 * k) word) p k = wordSum e m p k := by
        apply wordSum_congr
        intro i bound
        exact m.put_before _ (by omega)
      simp only [wordSum,front,Memory.load16_store16]
      omega
    · have same : (m.store16 e (p + 2 * k) word).load16 e (p + 2 * n) = m.load16 e (p + 2 * n) :=
        Memory.load16_put_outside e m (by rw [split16_length]; omega)
      simp only [wordSum,same]
      omega

def residue (sum : Nat) : Nat := if sum = 0 then 0 else (sum - 1) % 65535 + 1

theorem residue_lt (sum : Nat) : residue sum < 65536 := by
  rw [residue]
  split <;> omega

theorem residue_small (small : sum < 65536) : residue sum = sum := by
  rw [residue]
  split <;> omega

theorem residue_carry (sum : Nat) : residue (sum % 65536 + sum / 65536) = residue sum := by
  rw [residue,residue]
  split <;> split <;> omega

theorem residue_mod (same : residue a = residue b) : a % 65535 = b % 65535 := by
  rw [residue,residue] at same
  split at same <;> split at same <;> omega

end Stablebox
