import Mathlib.Data.Nat.Size
import Stablebox.Archival.UncompressTable
import Stablebox.Lib.Bits

/-! The files that `uncompress` is for: the codes of a text, packed from the lowest bit on, with as
many bits for each as the dictionary needs at that time. -/
namespace Stablebox.Uncompress

variable (maxbits : Nat) (blockMode : Bool)

/-- The bits of a code when `count` codes were sent since the dictionary was empty: enough for
every code of the dictionary. -/
def codeWidth (count : Nat) : Nat :=
  max initBits (Nat.size (firstOf blockMode + min count (2 ^ maxbits - firstOf blockMode) - 1))

def padCount (nBits position : Nat) : Nat := (nBits * 8 - position % (nBits * 8)) % (nBits * 8)

def padding (fill : Nat → Bool) (count position : Nat) : List Bool :=
  (List.range count).map fun i => fill (position + i)

/-- The bits of a list of codes. The group of eight is filled up before the width changes and after
a code that clears the table; `flush` says if that is also done when no code follows. The last code
had `nBits` bits, and the group began `position` bits before. What a group is filled up with may
be anything, here told apart by the number of codes that follow. -/
def pack (fill : Nat → Nat → Bool) (flush : Bool) : (nBits count position : Nat) → List Nat → List Bool
  | nBits,count,position,[] =>
    if flush = true ∧ codeWidth maxbits blockMode count ≠ nBits then
      padding (fill 0) (padCount nBits position) position
    else []
  | nBits,count,position,code :: codes =>
    let width := codeWidth maxbits blockMode count
    let start := if width ≠ nBits then 0 else position
    (if width ≠ nBits then padding (fill (codes.length + 1)) (padCount nBits position) position else []) ++
      Bits.low width code ++
      if code = clear ∧ blockMode then
        padding (fill codes.length) (padCount width (start + width)) (start + width) ++
          pack fill flush initBits 0 0 codes
      else pack fill flush width (count + 1) (start + width) codes

/-- Bytes that a compressor may send for stretches of text, between which it clears the table. -/
structure Compressed (texts : List (List UInt8)) (bytes : List UInt8) : Prop where
  nonempty : ∀ text ∈ texts, text ≠ []
  single : blockMode = false → texts.length ≤ 1
  packed : ∃ fill flush tail, tail.length < 8 ∧ Bits.ofBytes bytes =
    pack maxbits blockMode fill flush initBits 0 0
      (Lzw.encodeAll (byteAlphabet blockMode) (2 ^ maxbits) clear texts) ++ tail

/-! ### Widths -/

@[simp] theorem padding_length (fill : Nat → Bool) (count position : Nat) :
    (padding fill count position).length = count := by
  simp [padding]

theorem firstOf_le : firstOf blockMode ≤ 257 := by
  cases blockMode <;> simp [firstOf,first]

theorem codeWidth_ge (count : Nat) : 9 ≤ codeWidth maxbits blockMode count := le_max_left ..

theorem codeWidth_zero : codeWidth maxbits blockMode 0 = 9 := by
  have base := firstOf_le blockMode
  have size : Nat.size (firstOf blockMode - 1) ≤ 9 := Nat.size_le.mpr (by omega)
  simp only [codeWidth,initBits,Nat.zero_min,add_zero]
  omega

theorem codeWidth_mono (le : a ≤ b) : codeWidth maxbits blockMode a ≤ codeWidth maxbits blockMode b := by
  have := Nat.size_le_size (show firstOf blockMode + min a (2 ^ maxbits - firstOf blockMode) - 1 ≤
    firstOf blockMode + min b (2 ^ maxbits - firstOf blockMode) - 1 by omega)
  simp only [codeWidth]
  omega

variable {maxbits}

theorem firstOf_lt (large : 9 ≤ maxbits) : firstOf blockMode < 2 ^ maxbits := by
  have base := firstOf_le blockMode
  have limit : 2 ^ 9 ≤ 2 ^ maxbits := Nat.pow_le_pow_right (by decide) large
  omega

theorem codeWidth_le (large : 9 ≤ maxbits) (count : Nat) : codeWidth maxbits blockMode count ≤ maxbits := by
  have below := firstOf_lt blockMode large
  have size : Nat.size (firstOf blockMode + min count (2 ^ maxbits - firstOf blockMode) - 1) ≤ maxbits :=
    Nat.size_le.mpr (by omega)
  simp only [codeWidth,initBits]
  omega

theorem lt_codeWidth (maxbits : Nat) (blockMode : Bool) (count : Nat) :
    firstOf blockMode + min count (2 ^ maxbits - firstOf blockMode) ≤ 2 ^ codeWidth maxbits blockMode count := by
  have size := Nat.size_le.mp (le_max_right initBits
    (Nat.size (firstOf blockMode + min count (2 ^ maxbits - firstOf blockMode) - 1)))
  rw [codeWidth]
  omega

variable {blockMode}

theorem widens_iff (large : 9 ≤ maxbits) (current : codeWidth maxbits blockMode count = nBits)
    (limit : maxcode = if nBits = maxbits ∧ nBits ≠ 9 then 2 ^ nBits else 2 ^ nBits - 1)
    (room : 10 ≤ maxbits ∨ count + 1 ≤ 512 - firstOf blockMode) :
    firstOf blockMode + min count (2 ^ maxbits - firstOf blockMode) > maxcode ∧
        codeWidth maxbits blockMode (count + 1) = nBits + 1 ∨
      ¬ firstOf blockMode + min count (2 ^ maxbits - firstOf blockMode) > maxcode ∧
        codeWidth maxbits blockMode (count + 1) = nBits := by
  have wide := codeWidth_ge maxbits blockMode count
  have most := codeWidth_le blockMode large (count + 1)
  have least := codeWidth_mono maxbits blockMode (show count ≤ count + 1 by omega)
  have enough := lt_codeWidth maxbits blockMode count
  rw [current] at wide least enough
  rcases lt_or_ge nBits maxbits with narrow | widest
  · have bigger : 2 ^ nBits < 2 ^ maxbits := Nat.pow_lt_pow_right (by decide) narrow
    rw [if_neg (by omega)] at limit
    rcases Nat.lt_or_eq_of_le enough with spare | full
    · -- the next code still fits
      have size : Nat.size (firstOf blockMode + min (count + 1) (2 ^ maxbits - firstOf blockMode) - 1) ≤ nBits :=
        Nat.size_le.mpr (by omega)
      have same : codeWidth maxbits blockMode (count + 1) ≤ nBits := by
        simp only [codeWidth,initBits]
        omega
      exact .inr ⟨by omega,by omega⟩
    · have last : firstOf blockMode + min (count + 1) (2 ^ maxbits - firstOf blockMode) - 1 = 2 ^ nBits := by omega
      have same : codeWidth maxbits blockMode (count + 1) = nBits + 1 := by
        simp only [codeWidth,initBits,last,Nat.size_pow]
        omega
      exact .inl ⟨by rw [full,limit]; have := Nat.two_pow_pos nBits; omega,same⟩
  · refine .inr ⟨?_,by omega⟩
    split at limit
    · omega
    · obtain rfl : nBits = 9 := by omega
      omega

/-! ### Groups -/

theorem groupEnd_eq (positive : 0 < nBits) (posbits : Nat) :
    groupEnd posbits nBits = posbits + padCount nBits posbits := by
  have split : (posbits : Int) = posbits % (nBits * 8) + nBits * 8 * (posbits / (nBits * 8)) :=
    (Int.emod_add_mul_ediv ..).symm
  have bound := Nat.mod_lt posbits (show 0 < nBits * 8 by omega)
  have rest : ((posbits % (nBits * 8) : Nat) : Int) = posbits % (nBits * 8) := by push_cast; rfl
  unfold groupEnd padCount
  rcases eq_zero_or_pos (posbits % (nBits * 8)) with zero | inside
  · have before : ((posbits : Int) - 1 + nBits * 8) % (nBits * 8) = nBits * 8 - 1 := by
      rw [split,← rest,zero,show ((0 : Nat) : Int) + nBits * 8 * (posbits / (nBits * 8)) - 1 + nBits * 8 =
        nBits * 8 - 1 + nBits * 8 * (posbits / (nBits * 8)) by push_cast; ring,Int.add_mul_emod_self_left]
      exact Int.emod_eq_of_lt (by omega) (by omega)
    rw [before,zero,Nat.sub_zero,Nat.mod_self]
    omega
  · have before : ((posbits : Int) - 1 + nBits * 8) % (nBits * 8) = posbits % (nBits * 8) - 1 := by
      conv_lhs => rw [split,← rest]
      rw [show ((posbits % (nBits * 8) : Nat) : Int) + nBits * 8 * (posbits / (nBits * 8)) - 1 + nBits * 8 =
        ((posbits % (nBits * 8) : Nat) : Int) - 1 + nBits * 8 * (posbits / (nBits * 8) + 1) by ring,
        Int.add_mul_emod_self_left,← rest]
      exact Int.emod_eq_of_lt (by omega) (by omega)
    rw [before,← rest,Nat.mod_eq_of_lt (show nBits * 8 - posbits % (nBits * 8) < nBits * 8 by omega)]
    omega

end Stablebox.Uncompress
