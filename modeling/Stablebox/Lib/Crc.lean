import Mathlib.Data.BitVec

/-! Cyclic redundancy checks that take the most significant bit first. A byte at a time
from a table gives what bit by bit division gives, because the shift register is linear. -/
namespace Stablebox.Crc

open Nat

variable {w : Nat} (poly : BitVec w)

def shift (c : BitVec w) : BitVec w := if c.msb then (c <<< 1) ^^^ poly else c <<< 1

def shifts : Nat → BitVec w → BitVec w
  | 0,c => c
  | n + 1,c => shifts n (shift poly c)

def feed (poly : BitVec 32) (c : BitVec 32) (byte : UInt8) : BitVec 32 :=
  shifts poly 8 (c ^^^ (byte.toBitVec.setWidth 32 <<< 24))

theorem shift_xor (a b : BitVec w) : shift poly (a ^^^ b) = shift poly a ^^^ shift poly b := by
  simp only [shift,BitVec.msb_xor,BitVec.shiftLeft_xor_distrib]
  have cancel : (a <<< 1 ^^^ poly) ^^^ (b <<< 1 ^^^ poly) = a <<< 1 ^^^ b <<< 1 := by
    calc (a <<< 1 ^^^ poly) ^^^ (b <<< 1 ^^^ poly) = (a <<< 1 ^^^ b <<< 1) ^^^ (poly ^^^ poly) := by ac_rfl
      _ = a <<< 1 ^^^ b <<< 1 := by rw [BitVec.xor_self,BitVec.xor_zero]
  cases a.msb <;> cases b.msb
  · rfl
  · simp only [Bool.false_xor,if_true,Bool.false_eq_true,if_false]
    ac_rfl
  · simp only [Bool.xor_false,if_true,Bool.false_eq_true,if_false]
    ac_rfl
  · simpa using cancel.symm

theorem shifts_xor (n : Nat) (a b : BitVec w) : shifts poly n (a ^^^ b) = shifts poly n a ^^^ shifts poly n b := by
  induction n generalizing a b with
  | zero => rfl
  | succ n ih => rw [shifts,shift_xor,ih,shifts,shifts]

theorem shifts_small (n : Nat) (c : BitVec w) (small : c.toNat * 2 ^ n < 2 ^ w) : shifts poly n c = c <<< n := by
  induction n generalizing c with
  | zero => simp [shifts]
  | succ n ih =>
    have power : c.toNat * 2 ^ (n + 1) = c.toNat * 2 * 2 ^ n := by
      rw [pow_succ,mul_assoc,mul_comm 2]
    have twice : c.toNat * 2 < 2 ^ w := by
      have := Nat.le_mul_of_pos_right (c.toNat * 2) (Nat.two_pow_pos n)
      omega
    have low : c.msb = false := by
      rw [BitVec.msb_eq_false_iff_two_mul_lt]
      omega
    have value : (c <<< 1).toNat = c.toNat * 2 := by
      rw [BitVec.toNat_shiftLeft,shiftLeft_eq,pow_one,mod_eq_of_lt twice]
    rw [shifts,shift,low]
    simp only [Bool.false_eq_true,if_false]
    rw [ih _ (by rw [value,← power]; exact small),← BitVec.shiftLeft_add,add_comm]

theorem feed_table (poly c : BitVec 32) (byte : UInt8) :
    feed poly c byte = (c <<< 8) ^^^ shifts poly 8 (((c >>> 24) ^^^ byte.toBitVec.setWidth 32) <<< 24) := by
  have parts : c ^^^ (byte.toBitVec.setWidth 32 <<< 24) =
      (c.setWidth 24).setWidth 32 ^^^ (((c >>> 24) ^^^ byte.toBitVec.setWidth 32) <<< 24) := by
    apply BitVec.eq_of_getLsbD_eq
    intro i bound
    by_cases low : i < 24
    · simp [low,bound]
    · simp [low,bound,show 24 + (i - 24) = i by omega]
  have low : ((c.setWidth 24).setWidth 32).toNat * 2 ^ 8 < 2 ^ 32 := by
    rw [BitVec.toNat_setWidth,mod_eq_of_lt (by omega)]
    omega
  have high : (c.setWidth 24).setWidth 32 <<< 8 = c <<< 8 := by
    apply BitVec.eq_of_getLsbD_eq
    intro i bound
    by_cases early : i < 8
    · simp [early]
    · simp [early,bound,show i - 8 < 24 by omega,show i - 8 < 32 by omega]
  rw [feed,parts,shifts_xor,shifts_small poly 8 _ low,high]

end Stablebox.Crc
