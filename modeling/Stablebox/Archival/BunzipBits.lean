import Mathlib.Data.Vector.Defs
import Stablebox.Lib.Bits
import Stablebox.Archival.Bunzip2

/-! The bit reader of the bzip2 decoder (decompress_bunzip2.c): `get_bits`, the fetch that the symbol loop has in its
place, and the bits of the stream that are still to come. -/
namespace Stablebox.Bunzip2

open List Bits Nat

/-- The members of `bunzip_data` that `get_bits` uses: the bytes between `inbufPos` and `inbufCount`, what the calls of
`read` to come deliver, and the bit buffer, an unsigned integer of 32 bits. -/
structure BitReader where
  inbuf : List UInt8
  reads : List (List UInt8)
  inbufBitCount : Nat
  inbufBits : Nat

namespace BitReader

/-- The next byte of `inbuf`, after a `read` if there is none. Nothing read is the end of the input. -/
def nextByte (r : BitReader) : Option (UInt8 × BitReader) :=
  match r.inbuf with
  | byte :: inbuf => some (byte,{ r with inbuf })
  | [] =>
    match r.reads with
    | (byte :: inbuf) :: reads => some (byte,{ r with inbuf,reads })
    | _ => none

def push (r : BitReader) (byte : UInt8) : BitReader :=
  { r with
    inbufBits := (r.inbufBits <<< 8 ||| byte.toNat) % 2 ^ 32
    inbufBitCount := r.inbufBitCount + 8 }

def cut (r : BitReader) (wanted : Nat) : Nat × BitReader :=
  let count := r.inbufBitCount - wanted
  ((r.inbufBits >>> count) &&& (2 ^ wanted - 1),{ r with inbufBitCount := count })

/-- The loop of `get_bits` and its end. `none` is the jump to the handler. -/
def getBitsLoop : (fuel bits wanted : Nat) → BitReader → Option (Nat × BitReader)
  | 0,_,_,_ => none
  | fuel + 1,bits,wanted,r =>
    if r.inbufBitCount < wanted then
      match r.nextByte with
      | none => none
      | some (byte,s) =>
        if r.inbufBitCount ≥ 24 then
          -- avoid 32-bit overflow
          let dumped := r.inbufBits &&& (2 ^ r.inbufBitCount - 1)
          let wanted := wanted - r.inbufBitCount
          getBitsLoop fuel ((dumped <<< wanted) % 2 ^ 32) wanted (push { s with inbufBitCount := 0 } byte)
        else getBitsLoop fuel bits wanted (s.push byte)
    else some (bits ||| (r.cut wanted).1,(r.cut wanted).2)

/-- `get_bits`. A call for up to 32 bits takes at most four bytes. -/
def getBits (wanted : Nat) (r : BitReader) : Option (Nat × BitReader) := getBitsLoop 5 0 wanted r

def unget (r : BitReader) (count : Nat) : BitReader := { r with inbufBitCount := r.inbufBitCount + count }

def fetchLoop (maxLen : Nat) : (fuel : Nat) → BitReader → Option (Nat × BitReader)
  | 0,_ => none
  | fuel + 1,r =>
    if r.inbufBitCount < maxLen then
      match r.inbuf with
      | [] => getBits maxLen r
      | byte :: inbuf => fetchLoop maxLen fuel (push { r with inbuf } byte)
    else some (r.cut maxLen)

def fetch (maxLen : Nat) (r : BitReader) : Option (Nat × BitReader) := fetchLoop maxLen 4 r

/-! ### The bits to come -/

def delivered : List (List UInt8) → List UInt8
  | [] => []
  | [] :: _ => []
  | chunk :: reads => chunk ++ delivered reads

def bits (r : BitReader) : List Bool :=
  high r.inbufBitCount r.inbufBits ++ ofBytesHigh (r.inbuf ++ delivered r.reads)

def Fits (r : BitReader) : Prop := r.inbufBitCount < 32

variable {r : BitReader}

theorem nextByte_none (ends : r.nextByte = none) : r.inbuf = [] ∧ delivered r.reads = [] := by
  unfold nextByte at ends
  split at ends
  · cases ends
  rename_i empty
  refine ⟨empty,?_⟩
  split at ends
  · cases ends
  rename_i stops
  match reads : r.reads with
  | [] => rfl
  | [] :: _ => rfl
  | (byte :: inbuf) :: rest => exact absurd reads (stops byte inbuf rest)

variable {s : BitReader}

theorem nextByte_some (goes : r.nextByte = some (byte,s)) :
    r.inbuf ++ delivered r.reads = byte :: (s.inbuf ++ delivered s.reads) ∧
      s.inbufBitCount = r.inbufBitCount ∧ s.inbufBits = r.inbufBits := by
  unfold nextByte at goes
  split at goes
  · rename_i full
    cases goes
    exact ⟨by rw [full]; rfl,rfl,rfl⟩
  · rename_i empty
    split at goes
    · rename_i next
      cases goes
      exact ⟨by rw [empty,next]; rfl,rfl,rfl⟩
    · cases goes

theorem bits_push (byte : UInt8) (room : r.inbufBitCount ≤ 24) :
    (r.push byte).bits = high r.inbufBitCount r.inbufBits ++
      ofBytesHigh (byte :: (r.inbuf ++ delivered r.reads)) := by
  have small := byte.toNat_lt
  have joined : r.inbufBits <<< 8 ||| byte.toNat = r.inbufBits * 2 ^ 8 + byte.toNat := by
    rw [← shiftLeft_add_eq_or_of_lt (by omega),shiftLeft_eq]
  have whole (v : Nat) : high (r.inbufBitCount + 8) (v % 2 ^ 32) = high (r.inbufBitCount + 8) v := by
    have narrow : v % 2 ^ 32 % 2 ^ (r.inbufBitCount + 8) = v % 2 ^ (r.inbufBitCount + 8) :=
      mod_mod_of_dvd _ (pow_dvd_pow 2 (by omega))
    rw [← high_mod,narrow,high_mod]
  have upper : (r.inbufBits * 2 ^ 8 + byte.toNat) / 2 ^ 8 = r.inbufBits := by omega
  have lower : high 8 (r.inbufBits * 2 ^ 8 + byte.toNat) = high 8 byte.toNat := by
    have rest : (r.inbufBits * 2 ^ 8 + byte.toNat) % 2 ^ 8 = byte.toNat := by omega
    rw [← high_mod,rest]
  rw [bits,push,joined,whole,high_add,upper,lower,ofBytesHigh_cons,append_assoc]

theorem bits_nextByte (goes : r.nextByte = some (byte,s)) (room : r.inbufBitCount ≤ 24) :
    (s.push byte).bits = r.bits := by
  obtain ⟨input,count,buffer⟩ := nextByte_some goes
  rw [bits_push byte (count ▸ room),count,buffer,← input,bits]

variable {wanted : Nat}

theorem cut_spec (enough : wanted ≤ r.inbufBitCount) :
    (r.cut wanted).1 = number (r.bits.take wanted) ∧
      ∀ back ≤ wanted, ((r.cut wanted).2.unget back).bits = r.bits.drop (wanted - back) := by
  have long : wanted ≤ (high r.inbufBitCount r.inbufBits).length := by rwa [high_length]
  constructor
  · rw [bits,take_append_of_le_length long,high_take _ enough,number_high]
    simp only [cut]
    rw [shiftRight_eq_div_pow,and_two_pow_sub_one_eq_mod]
  · intro back less
    have dropped : r.inbufBitCount - (wanted - back) = r.inbufBitCount - wanted + back := by omega
    rw [bits,bits,drop_append_of_le_length (by omega),high_drop _ (by omega),dropped]
    rfl

/-- What a call for bits comes to: the next bits of the stream, which may be put back, or the end of the input. -/
inductive Fetched (wanted : Nat) (r : BitReader) : Option (Nat × BitReader) → Prop where
  | short (fewer : r.bits.length < wanted) : Fetched wanted r none
  | enough (s : BitReader) (available : wanted ≤ r.bits.length) (fits : s.inbufBitCount + wanted < 32)
      (back : ∀ back ≤ wanted, (s.unget back).bits = r.bits.drop (wanted - back)) :
      Fetched wanted r (some (number (r.bits.take wanted),s))

/-- The same for a call of `get_bits`, of whose bits up to 24 may be put back. -/
inductive Returned (wanted : Nat) (r : BitReader) : Option (Nat × BitReader) → Prop where
  | short (fewer : r.bits.length < wanted) : Returned wanted r none
  | enough (s : BitReader) (available : wanted ≤ r.bits.length) (fits : s.inbufBitCount + min wanted 24 < 32)
      (back : ∀ back ≤ min wanted 24, (s.unget back).bits = r.bits.drop (wanted - back)) :
      Returned wanted r (some (number (r.bits.take wanted),s))

theorem Returned.congr (same : s.bits = r.bits) (returned : Returned wanted s result) : Returned wanted r result := by
  cases returned with
  | short fewer => exact .short (same ▸ fewer)
  | enough t available fits back =>
    rw [same] at available ⊢
    exact .enough t available fits (same ▸ back)

theorem returned_cut (fits : r.Fits) (enough : wanted ≤ r.inbufBitCount) : Returned wanted r (some (r.cut wanted)) := by
  obtain ⟨value,back⟩ := cut_spec enough
  have split : r.cut wanted = (number (r.bits.take wanted),(r.cut wanted).2) := Prod.ext value rfl
  rw [split]
  refine .enough _ ?_ ?_ fun count few => back count (le_trans few (min_le_left ..))
  · rw [bits,length_append,high_length]
    omega
  · unfold Fits at fits
    simp only [cut]
    omega

/-- With 24 bits or more in the buffer these are dumped, and one more byte is enough. -/
theorem returned_dump (next : r.nextByte = some (byte,s)) (full : 24 ≤ r.inbufBitCount)
    (less : r.inbufBitCount < wanted) (most : wanted ≤ 32) (fuel : Nat) :
    Returned wanted r (getBitsLoop (fuel + 2) 0 wanted r) := by
  obtain ⟨input,count,buffer⟩ := nextByte_some next
  generalize missing : wanted - r.inbufBitCount = k
  generalize pushed : push { s with inbufBitCount := 0 } byte = t
  have size : t.inbufBitCount = 8 := by rw [← pushed]; rfl
  have stream : r.bits = high r.inbufBitCount r.inbufBits ++ t.bits := by
    rw [← pushed,bits_push byte (zero_le 24),bits,input]
    rfl
  obtain ⟨value,back⟩ := cut_spec (show k ≤ t.inbufBitCount by omega)
  have few : k ≤ t.bits.length := by
    rw [bits,length_append,high_length]
    omega
  have front : r.bits.take wanted = high r.inbufBitCount r.inbufBits ++ t.bits.take k := by
    rw [stream,take_append,high_length,missing,take_of_length_le (by rw [high_length]; omega)]
  have joined : (r.inbufBits &&& (2 ^ r.inbufBitCount - 1)) <<< k % 2 ^ 32 ||| (t.cut k).1 =
      number (r.bits.take wanted) := by
    have low := number_lt (t.bits.take k)
    rw [length_take_of_le few] at low
    have small : r.inbufBits % 2 ^ r.inbufBitCount * 2 ^ k < 2 ^ 32 :=
      calc _ < 2 ^ r.inbufBitCount * 2 ^ k :=
          Nat.mul_lt_mul_of_pos_right (mod_lt _ (Nat.two_pow_pos _)) (Nat.two_pow_pos _)
        _ = 2 ^ (r.inbufBitCount + k) := (pow_add ..).symm
        _ ≤ 2 ^ 32 := Nat.pow_le_pow_right (by decide) (by omega)
    rw [front,number_append,number_high,length_take_of_le few,value,and_two_pow_sub_one_eq_mod,shiftLeft_eq,
      mod_eq_of_lt small,← shiftLeft_eq,← shiftLeft_add_eq_or_of_lt low,shiftLeft_eq,mul_comm]
  have result : getBitsLoop (fuel + 2) 0 wanted r = some (number (r.bits.take wanted),(t.cut k).2) := by
    rw [getBitsLoop,if_pos less,next]
    simp only [if_pos full,pushed,missing]
    rw [getBitsLoop,if_neg (by omega),joined]
  rw [result]
  refine .enough _ (by rw [stream,length_append,high_length]; omega) ?_ fun count few => ?_
  · simp only [cut]
    omega
  by_cases short : count ≤ k
  · have whole : (high r.inbufBitCount r.inbufBits).length ≤ wanted - count := by rw [high_length]; omega
    rw [back count short,stream,drop_append,drop_of_length_le whole,high_length,nil_append]
    congr 1
    omega
  · have again : (t.cut k).2.unget count = push { s with inbufBitCount := count - k } byte := by
      simp only [unget,cut,push,← pushed,BitReader.mk.injEq,true_and,and_true]
      omega
    rw [again,bits_push byte (by dsimp only; omega),bits,input,drop_append_of_le_length (by rw [high_length]; omega),
      high_drop _ (by omega),buffer]
    congr 2
    dsimp only
    omega

theorem returned_getBitsLoop (most : wanted ≤ 32) (fuel : Nat) (r : BitReader) (fits : r.Fits)
    (enough : 24 ≤ r.inbufBitCount + 8 * fuel) : Returned wanted r (getBitsLoop (fuel + 2) 0 wanted r) := by
  by_cases less : r.inbufBitCount < wanted
  · cases next : r.nextByte with
    | none =>
      obtain ⟨empty,ended⟩ := nextByte_none next
      rw [getBitsLoop,if_pos less,next]
      refine .short ?_
      rw [bits,empty,ended,length_append,high_length]
      exact less
    | some pair =>
      obtain ⟨byte,s⟩ := pair
      by_cases full : 24 ≤ r.inbufBitCount
      · exact returned_dump next full less most fuel
      have count := (nextByte_some next).2.1
      obtain ⟨fuel,rfl⟩ := Nat.exists_eq_succ_of_ne_zero (show fuel ≠ 0 by omega)
      have after := returned_getBitsLoop most fuel (s.push byte) (by simp only [Fits,push]; omega)
        (by simp only [push]; omega)
      rw [getBitsLoop,if_pos less,next]
      simp only
      rw [if_neg full]
      exact after.congr (bits_nextByte next (by omega))
  · rw [getBitsLoop,if_neg less,zero_or]
    exact returned_cut fits (by omega)

theorem returned_getBits (most : wanted ≤ 32) (fits : r.Fits) : Returned wanted r (r.getBits wanted) :=
  returned_getBitsLoop most 3 r fits (by omega)

theorem fetched_getBits (narrow : wanted ≤ 24) (fits : r.Fits) : Fetched wanted r (r.getBits wanted) := by
  have returned := returned_getBits (show wanted ≤ 32 by omega) fits
  generalize r.getBits wanted = result at returned
  cases returned with
  | short fewer => exact .short fewer
  | enough s available fits back =>
    rw [min_eq_left narrow] at fits back
    exact .enough s available fits back

theorem getBitsLoop_enough (narrow : wanted ≤ 24) (m n : Nat) (r : BitReader) (first : wanted ≤ r.inbufBitCount + 8 * m)
    (second : wanted ≤ r.inbufBitCount + 8 * n) : getBitsLoop (m + 1) 0 wanted r = getBitsLoop (n + 1) 0 wanted r := by
  induction m generalizing n r with
  | zero => rw [getBitsLoop,getBitsLoop,if_neg (by omega),if_neg (by omega)]
  | succ m ih =>
    rw [getBitsLoop,getBitsLoop]
    split_ifs with less full
    · omega
    · obtain ⟨n,rfl⟩ := Nat.exists_eq_succ_of_ne_zero (show n ≠ 0 by omega)
      cases next : r.nextByte with
      | none => rfl
      | some pair =>
        have count := (nextByte_some next).2.1
        exact ih n (pair.2.push pair.1) (by simp only [push]; omega) (by simp only [push]; omega)
    · rfl

theorem fetchLoop_eq (narrow : wanted ≤ 24) (n : Nat) (r : BitReader) (enough : wanted ≤ r.inbufBitCount + 8 * n) :
    fetchLoop wanted (n + 1) r = r.getBits wanted := by
  induction n generalizing r with
  | zero => rw [fetchLoop,getBits,getBitsLoop,if_neg (by omega),if_neg (by omega),zero_or]
  | succ n ih =>
    rw [fetchLoop]
    split_ifs with less
    · cases input : r.inbuf with
      | nil => rfl
      | cons byte inbuf =>
        have next : r.nextByte = some (byte,{ r with inbuf }) := by rw [nextByte,input]
        dsimp only
        have first : r.getBits wanted = getBitsLoop 4 0 wanted (push { r with inbuf } byte) := by
          rw [getBits,getBitsLoop,if_pos less,next]
          exact if_neg (by omega)
        rw [first,ih _ (by simp only [push]; omega)]
        exact getBitsLoop_enough narrow 4 3 _ (by omega) (by simp only [push]; omega)
    · rw [getBits,getBitsLoop,if_neg less,zero_or]

theorem fetch_eq_getBits (narrow : wanted ≤ 24) (r : BitReader) : r.fetch wanted = r.getBits wanted :=
  fetchLoop_eq narrow 3 r (by omega)

theorem fetched_fetch (narrow : maxLen ≤ 24) (fits : r.Fits) : Fetched maxLen r (r.fetch maxLen) :=
  fetch_eq_getBits narrow r ▸ fetched_getBits narrow fits

theorem getBits_one (fits : r.Fits) :
    (r.bits = [] ∧ r.getBits 1 = none) ∨
      ∃ bit rest s, r.bits = bit :: rest ∧ r.getBits 1 = some (bit.toNat,s) ∧ s.bits = rest ∧ s.Fits := by
  have fetched := fetched_getBits (show 1 ≤ 24 by decide) fits
  generalize r.getBits 1 = result at fetched
  cases fetched with
  | short fewer => exact .inl ⟨length_eq_zero_iff.1 (by omega),rfl⟩
  | enough s available fits back =>
    cases stream : r.bits with
    | nil =>
      rw [stream] at available
      exact absurd available (by simp)
    | cons bit rest =>
      have here := back 0 (zero_le 1)
      rw [stream] at here
      refine .inr ⟨bit,rest,s,rfl,?_,here,?_⟩
      · cases bit <;> rfl
      · unfold Fits
        omega

theorem fits_getBitsLoop {fuel bits value : Nat} (fits : r.Fits)
    (got : getBitsLoop fuel bits wanted r = some (value,s)) : s.Fits := by
  induction fuel generalizing bits wanted r with
  | zero => cases got
  | succ fuel ih =>
    rw [getBitsLoop] at got
    split at got
    · split at got
      · cases got
      rename_i byte t next
      have count := (nextByte_some next).2.1
      split at got
      · refine ih ?_ got
        simp only [Fits,push]
        omega
      · refine ih ?_ got
        simp only [Fits,push]
        omega
    · cases got
      unfold Fits at fits
      simp only [Fits,cut]
      omega

theorem fits_getBits {value : Nat} (fits : r.Fits) (got : r.getBits wanted = some (value,s)) : s.Fits :=
  fits_getBitsLoop fits got

/-! ### Calls in sequence -/

/-- A call of `get_bits`, or the fetch in its place, and how many bits are put back. -/
structure Call where
  inline : Bool
  wanted : Nat
  back : Nat

def Call.Proper (c : Call) : Prop :=
  1 ≤ c.wanted ∧ c.wanted ≤ (if c.inline then 20 else 32) ∧ c.back ≤ c.wanted

def calls : List Call → BitReader → List (Option Nat)
  | [],_ => []
  | c :: rest,r =>
    match (if c.inline then r.fetch c.wanted else r.getBits c.wanted) with
    | none => [none]
    | some (value,s) => some value :: calls rest (s.unget c.back)

def inOrder : List Call → List Bool → List (Option Nat)
  | [],_ => []
  | c :: rest,bits =>
    if bits.length < c.wanted then [none]
    else some (number (bits.take c.wanted)) :: inOrder rest (bits.drop (c.wanted - c.back))

/-- The bits come in order, provided that no more than 24 of them are put back at a time. -/
theorem getBits_inOrder (sequence : List Call) (proper : ∀ c ∈ sequence, c.Proper ∧ c.back ≤ 24) (r : BitReader)
    (fits : r.Fits) : calls sequence r = inOrder sequence r.bits ∧
      ∀ maxLen ≤ 20, r.fetch maxLen = r.getBits maxLen := by
  refine ⟨?_,fun maxLen short => fetch_eq_getBits (by omega) r⟩
  induction sequence generalizing r with
  | nil => rfl
  | cons c rest ih =>
    obtain ⟨⟨⟨-,most,back⟩,few⟩,later⟩ := forall_mem_cons.mp proper
    have same : (if c.inline then r.fetch c.wanted else r.getBits c.wanted) = r.getBits c.wanted := by
      split_ifs at most ⊢
      · exact fetch_eq_getBits (by omega) r
      · rfl
    have returned := returned_getBits (show c.wanted ≤ 32 by split_ifs at most <;> omega) fits
    rw [calls,same,inOrder]
    generalize r.getBits c.wanted = result at returned
    cases returned with
    | short fewer => rw [if_pos fewer]
    | enough s available room returns =>
      have put := returns c.back (by omega)
      rw [if_neg (by omega),← put]
      exact congrArg _ (ih later _ (by simp only [Fits,unget]; omega))

theorem getBits_inOrder_sample : calls [⟨false,32,24⟩,⟨true,3,1⟩,⟨false,6,0⟩] ⟨[1],[[2,3],[4,5]],0,0⟩ =
    [some 0x1020304,some 0,some 2] :=
  (getBits_inOrder _ (by unfold Call.Proper; decide) ⟨[1],[[2,3],[4,5]],0,0⟩ (by unfold Fits; decide)).1.trans
    (by decide)

/-- The buffer has no room for all of 32 bits that are put back: zeros come in the place of the bits in front. -/
theorem putBack_lost : (∀ c ∈ [⟨false,3,0⟩,⟨false,32,32⟩,⟨false,8,0⟩], Call.Proper c) ∧
    calls [⟨false,3,0⟩,⟨false,32,32⟩,⟨false,8,0⟩] ⟨[31,0,0,0,0],[],0,0⟩ = [some 0,some 0xf8000000,some 0] ∧
    inOrder [⟨false,3,0⟩,⟨false,32,32⟩,⟨false,8,0⟩] (BitReader.mk [31,0,0,0,0] [] 0 0).bits =
      [some 0,some 0xf8000000,some 0xf8] := by
  unfold Call.Proper
  decide

end BitReader

end Stablebox.Bunzip2
