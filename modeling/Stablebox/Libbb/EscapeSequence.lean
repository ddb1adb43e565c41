import Mathlib.Data.List.GetD

/-! The escape sequences of echo, printf, tr and sed. `bb_process_escape_sequence` against the sequences
it is written for. -/
namespace Stablebox.Libbb

open UInt8

def tolower (c : UInt8) : UInt8 := c ||| 0x20

/-- What the loop takes a character for, in unsigned arithmetic. -/
def digit (c : UInt8) : Nat :=
  let d := (c.toUInt32 - 48).toNat
  if d ≥ 10 then ((tolower c).toUInt32 - 97 + 10).toNat else d

def digitLoop (s : List UInt8) (base q numDigits n : Nat) : Nat × Nat × Nat :=
  let d := digit (s.getD q 0)
  if d ≥ base then
    if base = 16 then
      if numDigits - 1 = 0 then (q - 1,0,n) else (q,numDigits - 1,n)
    else (q,numDigits,n)
  else
    let r := n * base + d
    if r > 255 then (q,numDigits,n)
    else if numDigits + 1 < 3 then digitLoop s base (q + 1) (numDigits + 1) r
    else (q + 1,numDigits + 1,r)
termination_by 3 - numDigits

/-- The two halves of `charmap`, without the backslash for what is not listed. -/
def charmap : List (UInt8 × UInt8) := [(97,7),(98,8),(102,12),(110,10),(114,13),(116,9),(118,11),(92,92)]

/-- The character, and how far the pointer moves in the text behind the backslash. -/
def bbProcessEscapeSequence (s : List UInt8) : UInt8 × Nat :=
  let (q,numDigits,n) := if s.getD 0 0 = 120 then digitLoop s 16 1 1 0 else digitLoop s 8 0 0 0
  if numDigits = 0 then
    match charmap.lookup (s.getD q 0) with
    | some n => (n,q + 1)
    | none => (92,q)
  else (ofNat n,q)

/-! The sequences. -/

def hexValue (c : UInt8) : Nat :=
  if 48 ≤ c ∧ c ≤ 57 then c.toNat - 48
  else if 97 ≤ c ∧ c ≤ 102 then c.toNat - 87
  else if 65 ≤ c ∧ c ≤ 70 then c.toNat - 55
  else 16

section

variable (base : Nat) (s : List UInt8) (first : Nat)

def value : Nat → Nat
  | 0 => 0
  | k + 1 => value k * base + hexValue (s.getD (first + k) 0)

/-- From `first` on stand `k` digits whose value fits in a byte, up to the third character. -/
structure Digits (k : Nat) : Prop where
  room : first + k ≤ 3
  digits : ∀ i < k, hexValue (s.getD (first + i) 0) < base
  fits : value base s first k ≤ 255

structure Number (k : Nat) : Prop extends Digits base s first k where
  nonempty : 0 < k
  longest : ∀ j, Digits base s first j → j ≤ k

end

inductive Converts (s : List UInt8) : UInt8 × Nat → Prop
  | mnemonic {n : UInt8} (letter : charmap.lookup (s.getD 0 0) = some n) : Converts s (n,1)
  | octal {k : Nat} (number : Number 8 s 0 k) : Converts s (ofNat (value 8 s 0 k),k)
  | hex {k : Nat} (here : s.getD 0 0 = 120) (number : Number 16 s 1 k) :
      Converts s (ofNat (value 16 s 1 k),1 + k)
  | other (noLetter : charmap.lookup (s.getD 0 0) = none) (noOctal : ∀ k, ¬ Number 8 s 0 k)
      (noHex : s.getD 0 0 = 120 → ∀ k, ¬ Number 16 s 1 k) : Converts s (92,0)

/-- `@` and the back quote, which `_tolower` puts right in front of `a`. -/
def Stray (c : UInt8) : Prop := c = 64 ∨ c = 96

/-- A stray character stands where a hexadecimal digit is looked for. -/
def Strays (s : List UInt8) : Prop :=
  s.getD 0 0 = 120 ∧ (Stray (s.getD 1 0) ∨ hexValue (s.getD 1 0) < 16 ∧ Stray (s.getD 2 0))

theorem digit_octal (c : UInt8) : min (digit c) 8 = min (hexValue c) 8 := by
  have all : ∀ n < 256, min (digit (.ofNat n)) 8 = min (hexValue (.ofNat n)) 8 := by decide +kernel
  simpa using all c.toNat c.toNat_lt

theorem digit_hex (regular : ¬ Stray c) : min (digit c) 16 = min (hexValue c) 16 := by
  have all : ∀ n < 256, n ≠ 64 → n ≠ 96 → min (digit (.ofNat n)) 16 = min (hexValue (.ofNat n)) 16 := by decide +kernel
  have apart := not_or.mp regular
  simpa using all c.toNat c.toNat_lt (fun same => apart.1 (UInt8.toNat_inj.mp same))
    (fun same => apart.2 (UInt8.toNat_inj.mp same))

theorem digit_stray (stray : Stray c) : digit c = 9 ∧ hexValue c = 16 := by
  rcases stray with rfl | rfl <;> decide

section

variable {base : Nat} {s : List UInt8} {first : Nat}

theorem digits_succ (positive : 0 < base) : Digits base s first (k + 1) ↔ Digits base s first k ∧ first + k < 3 ∧
    hexValue (s.getD (first + k) 0) < base ∧ value base s first (k + 1) ≤ 255 := by
  constructor
  · intro ⟨room,digits,fits⟩
    refine ⟨⟨by omega,fun i small => digits i (by omega),?_⟩,by omega,digits k (by omega),fits⟩
    have grows := Nat.le_mul_of_pos_right (value base s first k) positive
    rw [value] at fits
    omega
  · intro ⟨⟨_,digits,_⟩,room,last,fits⟩
    refine ⟨by omega,fun i small => ?_,fits⟩
    rcases Nat.lt_succ_iff_lt_or_eq.mp small with before | rfl
    · exact digits i before
    · exact last

theorem Digits.longest (positive : 0 < base) (stops : ¬ Digits base s first (k + 1)) (j : Nat)
    (digits : Digits base s first j) : j ≤ k := by
  induction j with
  | zero => exact Nat.zero_le k
  | succ j ih =>
    refine Nat.lt_of_le_of_ne (ih ((digits_succ positive).mp digits).1) ?_
    rintro rfl
    exact stops digits

variable (start : base = 8 ∧ first = 0 ∨ base = 16 ∧ first = 1)
  (agree : ∀ j, Digits base s first j → first + j < 3 →
    min (digit (s.getD (first + j) 0)) base = min (hexValue (s.getD (first + j) 0)) base)

include start agree

theorem digitLoop_longest (digits : Digits base s first k) (more : first + k < 3) :
    ∃ last numDigits, digitLoop s base (first + k) (first + k) (value base s first k) =
        (if last = 0 then 0 else first + last,numDigits,value base s first last) ∧
      Digits base s first last ∧ ¬ Digits base s first (last + 1) ∧ (numDigits = 0 ↔ last = 0) := by
  induction left : 3 - (first + k) generalizing k with
  | zero => omega
  | succ left ih =>
    have positive : 0 < base := by omega
    have same := agree k digits more
    rw [digitLoop]
    by_cases past : digit (s.getD (first + k) 0) ≥ base
    · have stops : ¬ Digits base s first (k + 1) := fun longer => by
        have := ((digits_succ positive).mp longer).2.2.1
        omega
      rw [if_pos past]
      rcases start with ⟨rfl,rfl⟩ | ⟨rfl,rfl⟩
      · exact ⟨k,0 + k,by rw [if_neg (by decide)]; split <;> simp_all,digits,stops,by omega⟩
      · refine ⟨k,k,?_,digits,stops,Iff.rfl⟩
        rw [if_pos rfl,Nat.add_sub_cancel_left]
        split <;> simp_all
    · have equal : digit (s.getD (first + k) 0) = hexValue (s.getD (first + k) 0) := by omega
      have sum : value base s first k * base + hexValue (s.getD (first + k) 0) = value base s first (k + 1) := rfl
      rw [if_neg past]
      simp only [equal,sum]
      by_cases large : value base s first (k + 1) > 255
      · have some : k ≠ 0 := by
          rintro rfl
          simp only [value] at large
          omega
        refine ⟨k,first + k,by rw [if_pos large,if_neg some],digits,fun longer => ?_,by omega⟩
        have := longer.fits
        omega
      · have longer := (digits_succ positive).mpr ⟨digits,more,by omega,by omega⟩
        rw [if_neg large]
        split
        case isTrue again => exact ih longer again (by omega)
        case isFalse full =>
          exact ⟨k + 1,first + k + 1,rfl,longer,fun beyond => by have := beyond.room; omega,by omega⟩

theorem digitLoop_number :
    (∃ n, digitLoop s base first first 0 = (0,0,n) ∧ ∀ k, ¬ Number base s first k) ∨
    ∃ k numDigits, digitLoop s base first first 0 = (first + k,numDigits,value base s first k) ∧ numDigits ≠ 0 ∧
      Number base s first k := by
  obtain ⟨last,numDigits,ran,digits,stops,none⟩ :=
    digitLoop_longest start agree ⟨by omega,by simp,by simp [value]⟩ (show first + 0 < 3 by omega)
  have longest := Digits.longest (by omega) stops
  by_cases empty : last = 0
  · rw [if_pos empty,none.mpr empty] at ran
    refine .inl ⟨_,ran,fun k number => ?_⟩
    have := longest k number.toDigits
    have := number.nonempty
    omega
  · rw [if_neg empty] at ran
    exact .inr ⟨last,numDigits,ran,mt none.mp empty,digits,Nat.pos_of_ne_zero empty,longest⟩

omit start agree in
theorem Number.head (number : Number base s first k) : hexValue (s.getD first 0) < base :=
  number.digits 0 number.nonempty

end

variable {s : List UInt8}

theorem digitLoop_second (small : n ≤ 15) : 2 ≤ (digitLoop s 16 2 2 n).1 ∧
    (digitLoop s 16 2 2 n).2.1 ≠ 0 ∧ (digit (s.getD 2 0) < 16 → (digitLoop s 16 2 2 n).1 = 3) := by
  rw [digitLoop]
  split
  · exact ⟨Nat.le_refl 2,Nat.one_ne_zero,fun _ => by omega⟩
  · rw [if_neg (by omega)]
    exact ⟨Nat.le_succ 2,Nat.succ_ne_zero 2,fun _ => rfl⟩

theorem strays_not_converts (strays : Strays s) : ¬ Converts s (bbProcessEscapeSequence s) := by
  obtain ⟨here,strays⟩ := strays
  have small : digit (s.getD 1 0) < 16 := by
    by_cases odd : Stray (s.getD 1 0)
    · have := digit_stray odd
      omega
    · have := digit_hex odd
      have := (strays.resolve_left odd).1
      omega
  obtain ⟨far,some,third⟩ := digitLoop_second (s := s) (n := digit (s.getD 1 0)) (by omega)
  have second : digitLoop s 16 1 1 0 = digitLoop s 16 2 2 (digit (s.getD 1 0)) := by
    rw [digitLoop,if_neg (by omega),if_neg (by omega),if_pos (by decide),Nat.zero_mul,Nat.zero_add]
  rw [bbProcessEscapeSequence,if_pos here,second]
  simp only [some,if_false]
  generalize digitLoop s 16 2 2 (digit (s.getD 1 0)) = result at far third
  intro converts
  generalize moved : (ofNat result.2.2,result.1) = outcome at converts
  have place : result.1 = outcome.2 := by rw [← moved]
  cases converts with
  | mnemonic => omega
  | other => omega
  | octal number =>
    have := number.head
    rw [here] at this
    exact absurd this (by decide)
  | @hex k _ number =>
    have first := number.head
    rcases strays with stray | ⟨_,stray⟩
    · have := digit_stray stray
      omega
    · have odd := digit_stray stray
      have second : hexValue (s.getD 2 0) < 16 := number.digits 1 (by omega)
      omega

/-- Exactly one sequence is converted, unless a stray character stands in the place of a hexadecimal digit. -/
theorem bbProcessEscapeSequence_converts_iff (s : List UInt8) :
    Converts s (bbProcessEscapeSequence s) ↔ ¬ Strays s := by
  refine ⟨fun converts strays => strays_not_converts strays converts,fun regular => ?_⟩
  by_cases here : s.getD 0 0 = 120
  · have noOctal (k : Nat) (number : Number 8 s 0 k) : False := absurd number.head (by rw [here]; decide)
    have agree (j : Nat) (digits : Digits 16 s 1 j) (room : 1 + j < 3) :
        min (digit (s.getD (1 + j) 0)) 16 = min (hexValue (s.getD (1 + j) 0)) 16 := by
      refine digit_hex fun stray => regular ⟨here,?_⟩
      obtain rfl | rfl : j = 0 ∨ j = 1 := by omega
      · exact .inl stray
      · exact .inr ⟨digits.digits 0 (by decide),stray⟩
    obtain ⟨n,ran,noHex⟩ | ⟨k,numDigits,ran,some,number⟩ := digitLoop_number (.inr ⟨rfl,rfl⟩) agree
    · rw [bbProcessEscapeSequence,if_pos here,ran]
      simp only [here]
      exact .other (by rw [here]; decide) noOctal fun _ => noHex
    · rw [bbProcessEscapeSequence,if_pos here,ran]
      simp only [some,if_false]
      exact .hex here number
  · obtain ⟨n,ran,noOctal⟩ | ⟨k,numDigits,ran,some,number⟩ :=
      digitLoop_number (.inl ⟨rfl,rfl⟩) (s := s) fun j _ _ => digit_octal _
    · rw [bbProcessEscapeSequence,if_neg here,ran]
      simp only [if_true]
      split
      case h_1 found => exact .mnemonic found
      case h_2 missing => exact .other missing noOctal fun x => absurd x here
    · rw [bbProcessEscapeSequence,if_neg here,ran]
      simp only [some,if_false,Nat.zero_add]
      exact .octal number

/-- `\x@` gives a tabulator. -/
theorem at_sign_converted : bbProcessEscapeSequence [120,64] = (9,2) ∧
    ¬ Converts [120,64] (bbProcessEscapeSequence [120,64]) := by
  refine ⟨?_,strays_not_converts ⟨rfl,.inl (.inl rfl)⟩⟩
  decide +kernel

end Stablebox.Libbb
