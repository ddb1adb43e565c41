import Mathlib.Data.List.Count

/-! The header of a gzip member: `check_header_gzip`, which reads it behind the two magic bytes, against the layout of
RFC 1952. -/
namespace Stablebox.GzipHeader

open UInt8

/-! ### `check_header_gzip` -/

inductive Failure where
  | shortRead
  | unknownMethod (method : UInt8)
deriving DecidableEq

abbrev Reader := StateT (List UInt8) (Except Failure)

def bbXreadChar : Reader UInt8
  | [] => .error .shortRead
  | c :: rest => .ok (c,rest)

def bbXreadAll (count : Nat) : Reader (List UInt8) := fun file =>
  if file.length < count then .error .shortRead else .ok (file.take count,file.drop count)

/-- C leaves open which operand of a sum is evaluated first. -/
inductive Order where
  | leftFirst
  | rightFirst
deriving DecidableEq

def extraShort (order : Order) : Reader UInt8 := do
  let first ← bbXreadChar
  let second ← bbXreadChar
  match order with
  | .leftFirst => return ofNat (first.toNat + second.toNat <<< 8)
  | .rightFirst => return ofNat (second.toNat + first.toNat <<< 8)

def skipExtra : Nat → Reader Unit
  | 0 => return ()
  | extra + 1 => do
    let _ ← bbXreadChar
    skipExtra extra

def skipString : Reader Unit
  | [] => .error .shortRead
  | c :: rest => if c = 0 then .ok ((),rest) else skipString rest

def skipExtraField (order : Order) : Reader Unit := do
  let extra ← extraShort order
  skipExtra extra.toNat

def skipChecksum : Reader Unit := do
  let _ ← bbXreadChar
  let _ ← bbXreadChar
  return ()

def onFlag (flags bit : UInt8) (part : Reader Unit) : Reader Unit := if flags &&& bit ≠ 0 then part else return ()

def checkHeaderGzip (order : Order) : Reader Unit := do
  let header ← bbXreadAll 8
  let method := header.getD 0 0
  let flags := header.getD 1 0
  if method ≠ 8 then throw (.unknownMethod method)
  else do
    onFlag flags 0x04 (skipExtraField order)
    onFlag flags 0x08 skipString
    onFlag flags 0x10 skipString
    onFlag flags 0x02 skipChecksum

/-! ### The layout -/

structure ZeroEnded where
  bytes : List UInt8
  text : 0 ∉ bytes

structure ExtraField where
  bytes : List UInt8
  short : bytes.length < 65536

structure Header where
  text : Bool
  mtime : Vector UInt8 4
  xfl : UInt8
  os : UInt8
  extra : Option ExtraField
  name : Option ZeroEnded
  comment : Option ZeroEnded
  crc : Option (UInt8 × UInt8)

namespace Header

def flags (h : Header) : UInt8 :=
  (if h.text then 0x01 else 0) ||| (if h.crc.isSome then 0x02 else 0) ||| (if h.extra.isSome then 0x04 else 0) |||
    (if h.name.isSome then 0x08 else 0) ||| (if h.comment.isSome then 0x10 else 0)

def extraBytes (h : Header) : List UInt8 :=
  match h.extra with
  | none => []
  | some extra => ofNat extra.bytes.length :: ofNat (extra.bytes.length / 256) :: extra.bytes

def strings (h : Header) : List ZeroEnded := h.name.toList ++ h.comment.toList

def crcBytes (h : Header) : List UInt8 :=
  match h.crc with
  | none => []
  | some (low,high) => [low,high]

end Header

def stringBytes (strings : List ZeroEnded) : List UInt8 := strings.flatMap fun s => s.bytes ++ [0]

def Header.bytes (h : Header) : List UInt8 :=
  [8,h.flags] ++ h.mtime.toList ++ [h.xfl,h.os] ++ h.extraBytes ++ stringBytes h.strings ++ h.crcBytes

/-- How many bytes of an extra field of a given length are taken for it. -/
def counted : Order → Nat → Nat
  | .leftFirst,length => length % 256
  | .rightFirst,length => length / 256

/-- The bytes of the extra field that are not skipped with it. -/
def Header.leftOver (h : Header) (order : Order) : List UInt8 :=
  match h.extra with
  | none => []
  | some extra => extra.bytes.drop (counted order extra.bytes.length)

/-! ### What the readers take -/

open List

theorem skipExtra_append (extra rest : List UInt8) : skipExtra extra.length (extra ++ rest) = .ok ((),rest) := by
  induction extra with
  | nil => rfl
  | cons c extra ih => exact ih

theorem skipString_eq_ok : skipString file = .ok ((),rest) ↔ ∃ s : ZeroEnded, file = s.bytes ++ 0 :: rest := by
  induction file with
  | nil => simp [skipString]
  | cons c file ih =>
    rw [skipString]
    split
    · rename_i zero
      constructor
      · intro same
        cases same
        exact ⟨⟨[],by simp⟩,by rw [zero]; rfl⟩
      · rintro ⟨⟨bytes,text⟩,same⟩
        cases bytes with
        | nil => cases same; rfl
        | cons b bytes =>
          cases same
          exact absurd zero (fun zero => text (by simp [zero]))
    · rename_i other
      rw [ih]
      constructor
      · rintro ⟨⟨bytes,text⟩,rfl⟩
        exact ⟨⟨c :: bytes,by simp [text,Ne.symm other]⟩,rfl⟩
      rintro ⟨⟨bytes,text⟩,same⟩
      cases bytes with
      | nil => cases same; exact absurd rfl other
      | cons b bytes =>
        cases same
        exact ⟨⟨bytes,fun mem => text (.tail _ mem)⟩,rfl⟩

def skipStrings : Nat → Reader Unit
  | 0 => return ()
  | count + 1 => do
    skipString
    skipStrings count

theorem skipStrings_eq_ok {count : Nat} :
    skipStrings count file = .ok ((),rest) ↔
      ∃ strings, strings.length = count ∧ file = stringBytes strings ++ rest := by
  induction count generalizing file with
  | zero =>
    constructor
    · intro same
      cases same
      exact ⟨[],rfl,rfl⟩
    · rintro ⟨strings,none,rfl⟩
      rw [length_eq_zero_iff.1 none]
      rfl
  | succ count ih =>
    have first : skipStrings (count + 1) file = .ok ((),rest) ↔
        ∃ middle, skipString file = .ok ((),middle) ∧ skipStrings count middle = .ok ((),rest) := by
      change (skipString file >>= fun p => skipStrings count p.2) = _ ↔ _
      cases skipString file with
      | error failure => simp [bind,Except.bind]
      | ok p => simp [bind,Except.bind,Prod.ext_iff]
    rw [first]
    constructor
    · rintro ⟨middle,taken,more⟩
      obtain ⟨s,rfl⟩ := skipString_eq_ok.1 taken
      obtain ⟨strings,length,rfl⟩ := ih.1 more
      exact ⟨s :: strings,by simp [length],by simp [stringBytes]⟩
    · rintro ⟨strings,length,rfl⟩
      cases strings with
      | nil => cases length
      | cons s strings =>
        refine ⟨stringBytes strings ++ rest,skipString_eq_ok.2 ⟨s,by simp [stringBytes]⟩,ih.2 ⟨strings,?_,rfl⟩⟩
        exact Nat.succ.inj length

theorem count_zero_stringBytes (strings : List ZeroEnded) : (stringBytes strings).count 0 = strings.length := by
  induction strings with
  | nil => rfl
  | cons s strings ih =>
    have here : s.bytes.count 0 = 0 := count_eq_zero.2 s.text
    simp only [stringBytes] at ih
    simp [stringBytes,ih,here]

theorem stringBytes_in_front (front : List UInt8) (strings : List ZeroEnded) :
    (∃ others : List ZeroEnded, others.length = strings.length ∧ front ++ stringBytes strings = stringBytes others) ↔
      front = [] ∨ (strings ≠ [] ∧ 0 ∉ front) := by
  constructor
  · rintro ⟨others,length,same⟩
    cases strings with
    | nil =>
      rw [length_eq_zero_iff.1 length] at same
      exact .inl (append_eq_nil_iff.1 same).1
    | cons s strings =>
      refine .inr ⟨cons_ne_nil _ _,?_⟩
      have zeros := congrArg (count 0) same
      rw [count_append,count_zero_stringBytes,count_zero_stringBytes,length] at zeros
      exact count_eq_zero.1 (by omega)
  · rintro (rfl | ⟨nonempty,text⟩)
    · exact ⟨strings,rfl,rfl⟩
    cases strings with
    | nil => exact absurd rfl nonempty
    | cons s strings =>
      exact ⟨⟨front ++ s.bytes,by simp [text,s.text]⟩ :: strings,rfl,by simp [stringBytes]⟩

/-! ### The whole header -/

theorem flags_iff (h : Header) :
    (h.flags &&& 0x02 ≠ 0 ↔ h.crc.isSome = true) ∧ (h.flags &&& 0x04 ≠ 0 ↔ h.extra.isSome = true) ∧
      (h.flags &&& 0x08 ≠ 0 ↔ h.name.isSome = true) ∧ (h.flags &&& 0x10 ≠ 0 ↔ h.comment.isSome = true) := by
  unfold Header.flags
  cases h.text <;> cases h.crc.isSome <;> cases h.extra.isSome <;> cases h.name.isSome <;>
    cases h.comment.isSome <;> decide

variable (order : Order)

theorem extraShort_length {length : Nat} (short : length < 65536) (rest : List UInt8) :
    extraShort order (ofNat length :: ofNat (length / 256) :: rest) =
      .ok (ofNat (counted order length),rest) := by
  have low : (ofNat length).toNat = length % 256 := by simp
  have high : (ofNat (length / 256)).toNat = length / 256 := by simp; omega
  cases order with
  | leftFirst =>
    change Except.ok (ofNat ((ofNat length).toNat + (ofNat (length / 256)).toNat <<< 8),rest) = _
    simp [counted,Nat.shiftLeft_eq]
  | rightFirst =>
    change Except.ok (ofNat ((ofNat (length / 256)).toNat + (ofNat length).toNat <<< 8),rest) = _
    rw [low,high]
    simp [counted,Nat.shiftLeft_eq]

theorem counted_lt {length : Nat} (short : length < 65536) : counted order length < 256 := by
  cases order <;> simp only [counted] <;> omega

theorem counted_le (length : Nat) : counted order length ≤ length := by
  cases order <;> simp only [counted] <;> omega

def skipCrc (present : Bool) : Reader Unit := if present then skipChecksum else return ()

theorem skipCrc_eq_ok :
    skipCrc present file = .ok ((),rest) ↔
      ∃ crc : List UInt8, crc.length = (if present then 2 else 0) ∧ file = crc ++ rest := by
  cases present with
  | false =>
    constructor
    · intro same
      cases same
      exact ⟨[],rfl,rfl⟩
    · rintro ⟨crc,none,rfl⟩
      rw [length_eq_zero_iff.1 none]
      rfl
  | true =>
    constructor
    · intro same
      match file,same with
      | [],same => cases same
      | [_],same => cases same
      | low :: high :: file,same =>
        cases same
        exact ⟨[low,high],rfl,rfl⟩
    · rintro ⟨crc,two,rfl⟩
      match crc,two with
      | [_,_],_ => rfl

def skipFields (order : Order) (flags : UInt8) : Reader Unit := do
  onFlag flags 0x04 (skipExtraField order)
  onFlag flags 0x08 skipString
  onFlag flags 0x10 skipString
  onFlag flags 0x02 skipChecksum

theorem bbXreadAll_append (first rest : List UInt8) : bbXreadAll first.length (first ++ rest) = .ok (first,rest) := by
  simp [bbXreadAll]

theorem checkHeaderGzip_fixed (flags : UInt8) (rest : List UInt8) (six : fixed.length = 6) :
    checkHeaderGzip order (8 :: flags :: (fixed ++ rest)) = skipFields order flags rest := by
  have eight : bbXreadAll 8 (8 :: flags :: (fixed ++ rest)) = .ok (8 :: flags :: fixed,rest) := by
    have read := bbXreadAll_append (8 :: flags :: fixed) rest
    rwa [length_cons,length_cons,six] at read
  change (bbXreadAll 8 (8 :: flags :: (fixed ++ rest)) >>= fun p => (do
    if p.1.getD 0 0 ≠ 8 then throw (.unknownMethod (p.1.getD 0 0)) else skipFields order (p.1.getD 1 0) : Reader Unit)
    p.2) = _
  rw [eight]
  rfl

theorem skipExtra_leftOver (h : Header) (rest : List UInt8) :
    onFlag h.flags 0x04 (skipExtraField order) (h.extraBytes ++ rest) = .ok ((),h.leftOver order ++ rest) := by
  have present := (flags_iff h).2.1
  unfold Header.extraBytes Header.leftOver onFlag
  cases found : h.extra with
  | none =>
    rw [found] at present
    rw [if_neg (fun set => Bool.false_ne_true (present.1 set))]
    rfl
  | some extra =>
    rw [found] at present
    rw [if_pos (present.2 rfl)]
    change (extraShort order (ofNat extra.bytes.length :: ofNat (extra.bytes.length / 256) ::
      (extra.bytes ++ rest)) >>= fun p => skipExtra p.1.toNat p.2) = _
    rw [extraShort_length order extra.short]
    change skipExtra (ofNat (counted order extra.bytes.length)).toNat (extra.bytes ++ rest) = _
    have small := counted_lt order extra.short
    have taken := skipExtra_append (extra.bytes.take (counted order extra.bytes.length))
      (extra.bytes.drop (counted order extra.bytes.length) ++ rest)
    rw [length_take_of_le (counted_le order _),← append_assoc,take_append_drop] at taken
    rw [toNat_ofNat_of_lt' small]
    exact taken

theorem skipStrings_flags (h : Header) :
    (do onFlag h.flags 0x08 skipString
        onFlag h.flags 0x10 skipString
        onFlag h.flags 0x02 skipChecksum : Reader Unit) =
      (do skipStrings h.strings.length; skipCrc h.crc.isSome) := by
  unfold onFlag
  obtain ⟨crc,_,name,comment⟩ := flags_iff h
  simp only [crc,name,comment]
  unfold Header.strings skipCrc
  cases h.name <;> cases h.comment <;> simp [skipStrings]

theorem checkHeaderGzip_bytes (h : Header) (data : List UInt8) :
    checkHeaderGzip order (h.bytes ++ data) =
      (do skipStrings h.strings.length; skipCrc h.crc.isSome : Reader Unit)
        (h.leftOver order ++ (stringBytes h.strings ++ (h.crcBytes ++ data))) := by
  have shape : h.bytes ++ data = 8 :: h.flags :: ((h.mtime.toList ++ [h.xfl,h.os]) ++
      (h.extraBytes ++ (stringBytes h.strings ++ (h.crcBytes ++ data)))) := by
    simp [Header.bytes]
  rw [shape,checkHeaderGzip_fixed order h.flags _ (by simp)]
  change (onFlag h.flags 0x04 (skipExtraField order) _ >>= fun p =>
    (do onFlag h.flags 0x08 skipString
        onFlag h.flags 0x10 skipString
        onFlag h.flags 0x02 skipChecksum : Reader Unit) p.2) = _
  rw [skipExtra_leftOver,skipStrings_flags]
  rfl

theorem crcBytes_length (h : Header) : h.crcBytes.length = if h.crc.isSome then 2 else 0 := by
  unfold Header.crcBytes
  cases h.crc <;> rfl

/-- Exactly the header is consumed if and only if the whole extra field is counted, or what is not counted of it reads
as the start of the name or comment behind it. -/
theorem checkHeaderGzip_consumes_iff (order : Order) (h : Header) (data : List UInt8) :
    checkHeaderGzip order (h.bytes ++ data) = .ok ((),data) ↔
      h.leftOver order = [] ∨ (h.strings ≠ [] ∧ 0 ∉ h.leftOver order) := by
  have parts : ∀ file : List UInt8,
      (do skipStrings h.strings.length; skipCrc h.crc.isSome : Reader Unit) file = .ok ((),data) ↔
        ∃ middle, skipStrings h.strings.length file = .ok ((),middle) ∧
          skipCrc h.crc.isSome middle = .ok ((),data) := by
    intro file
    change (skipStrings h.strings.length file >>= fun p => skipCrc h.crc.isSome p.2) = _ ↔ _
    cases skipStrings h.strings.length file with
    | error failure => simp [bind,Except.bind]
    | ok p => simp [bind,Except.bind,Prod.ext_iff]
  rw [checkHeaderGzip_bytes,parts,← stringBytes_in_front]
  constructor
  · rintro ⟨middle,taken,last⟩
    obtain ⟨others,length,same⟩ := skipStrings_eq_ok.1 taken
    obtain ⟨crc,size,rfl⟩ := skipCrc_eq_ok.1 last
    have front : (h.leftOver order ++ stringBytes h.strings) ++ (h.crcBytes ++ data) =
        stringBytes others ++ (crc ++ data) := by
      rw [append_assoc]
      exact same
    have sizes : (h.crcBytes ++ data).length = (crc ++ data).length := by simp [crcBytes_length,size]
    exact ⟨others,length,(append_inj' front sizes).1⟩
  · rintro ⟨others,length,same⟩
    refine ⟨h.crcBytes ++ data,skipStrings_eq_ok.2 ⟨others,length,?_⟩,skipCrc_eq_ok.2 ⟨_,crcBytes_length h,rfl⟩⟩
    rw [← append_assoc,same]

def longExtra : Header where
  text := false
  mtime := #v[0,0,0,0]
  xfl := 0
  os := 3
  extra := some ⟨replicate 256 1,by rw [length_replicate]; decide⟩
  name := none
  comment := none
  crc := none

/-- In either order of evaluation the deflate data would start too early. -/
theorem longExtra_not_consumed :
    checkHeaderGzip .leftFirst (longExtra.bytes ++ [0x03,0x00]) ≠ .ok ((),[0x03,0x00]) ∧
      checkHeaderGzip .rightFirst (longExtra.bytes ++ [0x03,0x00]) ≠ .ok ((),[0x03,0x00]) := by
  decide +kernel

end Stablebox.GzipHeader
