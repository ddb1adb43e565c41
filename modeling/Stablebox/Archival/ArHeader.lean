import Mathlib.Data.List.TakeWhile
import Stablebox.Lib.Digits

/-! The 60-byte header of an `ar` archive: `get_header_ar`, with `CONFIG_FEATURE_AR_LONG_FILENAMES`. The number fields
stand side by side without anything between them. -/
namespace Stablebox.Ar

open List Digits Nat
open Digits (atoi strtol parse ascii)

structure Numbers where
  mode : Nat
  mtime : Int
  uid : Nat
  gid : Nat
  size : Int
  deriving DecidableEq

structure FileHeader where
  name : List UInt8
  numbers : Numbers
  deriving DecidableEq

/-- The archive, the position in it, the bytes that were counted and the names for later entries. -/
structure Handle where
  archive : List UInt8
  position : Nat
  offset : Int
  arLongNames : List UInt8

/-- How `get_header_ar` ends. A conversion whose number does not fit is undefined. -/
inductive Outcome where
  | exitFailure
  | died (message : String)
  | undefined
  | entry (typed : FileHeader)
  deriving DecidableEq

def Handle.read (handle : Handle) (count : Nat) : List UInt8 := (handle.archive.drop handle.position).take count

def readRaw (handle : Handle) : Except Outcome (List UInt8 × Handle) :=
  let raw := handle.read 60
  let behind := { handle with position := handle.position + 60, offset := handle.offset + 60 }
  if raw.length ≠ 60 then .error .exitFailure
  else if raw.head? = some 10 then
    match handle.archive[handle.position + 60]? with
    | none => .error (.died "Short read")
    | some c => .ok (raw.tail ++ [c],{ behind with position := behind.position + 1, offset := behind.offset + 1 })
  else .ok (raw,behind)

def numbers (raw : List UInt8) : Option Numbers := do
  let mode := (strtol 8 (raw.drop 40) % 2 ^ 32).toNat
  let mtime ← atoi (raw.drop 16)
  let uid ← atoi (raw.drop 28)
  let gid ← atoi (raw.drop 34)
  let size ← atoi (raw.drop 48)
  return ⟨mode,mtime,(uid % 2 ^ 32).toNat,(gid % 2 ^ 32).toNat,size⟩

/-- `get_header_ar` up to the name: the bytes of the header and its numbers. -/
def readHeader (handle : Handle) : Except Outcome (List UInt8 × Numbers × Handle) :=
  match readRaw handle with
  | .error outcome => .error outcome
  | .ok (raw,handle) =>
    if raw.drop 58 ≠ [96,10] then .error (.died "Invalid ar header")
    else
      match numbers raw with
      | none => .error .undefined
      | some typed => .ok (raw,typed,handle)

def cutName (name : List UInt8) : List UInt8 := (name.takeWhile (· ≠ 0)).takeWhile fun c => c ≠ 32 ∧ c ≠ 47

/-- The entry is passed to the filter and its data are left behind: the position is set to what was counted. -/
def present (name : List UInt8) (typed : Numbers) (handle : Handle) : Outcome × Handle :=
  let offset := handle.offset + typed.size
  (.entry ⟨cutName name,typed⟩,
    { handle with offset := offset, position := if 0 ≤ offset then offset.toNat else handle.position })

/-- `get_header_ar`; a header for names or symbols is followed by another, at least 60 bytes later. -/
def getHeaderArLoop : (fuel : Nat) → Handle → Outcome × Handle
  | 0,handle => (.exitFailure,handle)
  | fuel + 1,handle =>
    match readHeader handle with
    | .error outcome => (outcome,handle)
    | .ok (raw,typed,handle) =>
      if raw.head? = some 47 then
        if raw[1]? = some 47 then
          let size := (typed.size % 2 ^ 32).toNat
          let names := handle.read size
          if names.length < size then (.died "Short read",handle)
          else getHeaderArLoop fuel
            { handle with position := handle.position + size, offset := handle.offset + size, arLongNames := names }
        else if raw[1]? = some 32 then
          getHeaderArLoop fuel
            { handle with
              position := handle.position + (typed.size % 2 ^ 32).toNat, offset := handle.offset + typed.size }
        else
          match atoi (raw.drop 1) with
          | none => (.undefined,handle)
          | some value =>
            let longOffset := (value % 2 ^ 32).toNat
            if longOffset ≥ handle.arLongNames.length then (.died "Cant resolve long filename",handle)
            else present (handle.arLongNames.drop longOffset) typed handle
      else present (raw.take 16) typed handle

def getHeaderAr (handle : Handle) : Outcome × Handle := getHeaderArLoop (handle.archive.length + 1) handle

theorem numbers_eq {date uid gid size : Nat}
    (first : atoi (raw.drop 16) = if date < 2 ^ 31 then some (date : Int) else none)
    (second : atoi (raw.drop 28) = if uid < 2 ^ 31 then some (uid : Int) else none)
    (third : atoi (raw.drop 34) = if gid < 2 ^ 31 then some (gid : Int) else none)
    (last : atoi (raw.drop 48) = if size < 2 ^ 31 then some (size : Int) else none) :
    numbers raw = if date < 2 ^ 31 ∧ uid < 2 ^ 31 ∧ gid < 2 ^ 31 ∧ size < 2 ^ 31 then
      some ⟨(strtol 8 (raw.drop 40) % 2 ^ 32).toNat,date,uid,gid,size⟩ else none := by
  have kept (n : Nat) (less : n < 2 ^ 31) : ((n : Int) % 2 ^ 32).toNat = n := by omega
  rw [numbers,first,second,third,last]
  by_cases all : date < 2 ^ 31 ∧ uid < 2 ^ 31 ∧ gid < 2 ^ 31 ∧ size < 2 ^ 31
  · rw [if_pos all,if_pos all.1,if_pos all.2.1,if_pos all.2.2.1,if_pos all.2.2.2]
    show some (⟨_,_,((uid : Int) % 2 ^ 32).toNat,((gid : Int) % 2 ^ 32).toNat,_⟩ : Numbers) = _
    rw [kept uid all.2.1,kept gid all.2.2.1]
  · split_ifs
    · exact absurd ⟨‹_›,‹_›,‹_›,‹_›⟩ all
    all_goals rfl

/-! ### Headers whose fields hold digits -/

structure Field (base width : Nat) where
  digits : List Nat
  nonempty : digits ≠ []
  short : digits.length ≤ width
  small : ∀ digit ∈ digits, digit < base

namespace Field

variable {base width : Nat}

def bytes (field : Field base width) : List UInt8 :=
  field.digits.map ascii ++ replicate (width - field.digits.length) 32

def value (field : Field base width) : Nat := parse base field.digits

theorem length_bytes (field : Field base width) : field.bytes.length = width := by
  have := field.short
  simp only [bytes,length_append,length_map,length_replicate]
  omega

end Field

structure Header where
  name : List UInt8
  named : name.length = 16
  date : Field 10 12
  uid : Field 10 6
  gid : Field 10 6
  mode : Field 8 8
  size : Field 10 10

def Header.bytes (header : Header) : List UInt8 :=
  header.name ++ (header.date.bytes ++ (header.uid.bytes ++ (header.gid.bytes ++ (header.mode.bytes ++
    (header.size.bytes ++ [96,10])))))

theorem Header.length_bytes (header : Header) : header.bytes.length = 60 := by
  simp [Header.bytes,Field.length_bytes,header.named]

/-- The digits that are read as one number, from a list of fields side by side with their widths. -/
def run : List (Nat × List Nat) → List Nat
  | [] => []
  | (width,digits) :: fields => digits ++ if digits.length = width then run fields else []

def fieldBytes (fields : List (Nat × List Nat)) : List UInt8 :=
  fields.flatMap fun field => field.2.map ascii ++ replicate (field.1 - field.2.length) 32

theorem blanks_end {count base : Nat} (more : 0 < count) (rest : List UInt8) (c : UInt8)
    (first : (replicate count 32 ++ rest).head? = some c) : isDigit base c = false := by
  obtain ⟨count,rfl⟩ := exists_eq_succ_of_ne_zero more.ne'
  cases first
  rfl

theorem run_text {fields : List (Nat × List Nat)} (fit : ∀ field ∈ fields, field.2.length ≤ field.1) :
    ∃ tail, fieldBytes fields ++ [96,10] = (run fields).map ascii ++ tail ∧
      ∀ c, tail.head? = some c → isDigit 10 c = false := by
  induction fields with
  | nil => exact ⟨[96,10],rfl,fun c same => by cases same; rfl⟩
  | cons field fields ih =>
    obtain ⟨width,digits⟩ := field
    obtain ⟨tail,same,ends⟩ := ih (forall_mem_cons.mp fit).2
    have here := fit (width,digits) (.head _)
    by_cases full : digits.length = width
    · refine ⟨tail,?_,ends⟩
      rw [fieldBytes,flatMap_cons,← fieldBytes,run,if_pos full,← full,Nat.sub_self,replicate_zero,
        append_nil,append_assoc,same,map_append,append_assoc]
    · refine ⟨_,?_,blanks_end (by simp only at here; omega : 0 < width - digits.length) (fieldBytes fields ++ [96,10])⟩
      rw [fieldBytes,flatMap_cons,← fieldBytes,run,if_neg full,append_nil,append_assoc,append_assoc]

theorem run_small (small : ∀ field ∈ fields, ∀ digit ∈ field.2, digit < base) : ∀ digit ∈ run fields, digit < base := by
  induction fields with
  | nil => simp [run]
  | cons field fields ih =>
    intro digit listed
    rcases mem_append.mp listed with own | other
    · exact small field (.head _) digit own
    split at other
    · exact ih (forall_mem_cons.mp small).2 digit other
    · cases other

variable {digits : List Nat}

theorem atoi_run (nonempty : digits ≠ []) (fit : ∀ field ∈ (width,digits) :: fields, field.2.length ≤ field.1)
    (small : ∀ field ∈ (width,digits) :: fields, ∀ digit ∈ field.2, digit < 10) :
    atoi (fieldBytes ((width,digits) :: fields) ++ [96,10]) =
      if parse 10 (run ((width,digits) :: fields)) < 2 ^ 31 then some (parse 10 (run ((width,digits) :: fields)) : Int)
      else none := by
  obtain ⟨tail,same,ends⟩ := run_text fit
  have filled : run ((width,digits) :: fields) ≠ [] := by
    exact append_ne_nil_of_left_ne_nil nonempty _
  rw [same,atoi_digits filled (run_small small) tail ends]

/-- A field that is followed by others is read as its own number if it is not full, or if it runs into nothing but
zeros and is zero itself. -/
theorem run_value_iff {next : List Nat} (nonempty : next ≠ []) (short : digits.length ≤ width) :
    parse 10 (run ((width,digits) :: (other,next) :: fields)) = parse 10 digits ↔
      digits.length < width ∨ parse 10 (run ((width,digits) :: (other,next) :: fields)) = 0 := by
  by_cases full : digits.length = width
  · have more : 0 < (run ((other,next) :: fields)).length := by
      rw [run,length_append]
      have := length_pos_iff.mpr nonempty
      omega
    have grows : 10 ≤ 10 ^ (run ((other,next) :: fields)).length := le_self_pow (by omega) 10
    rw [run,if_pos full,parse_append_value]
    constructor
    · intro same
      have bound := mul_le_mul_left (parse 10 digits) grows
      exact .inr (by omega)
    · rintro (less | zero)
      · omega
      · have bound := mul_le_mul_left (parse 10 digits) grows
        omega
  · rw [run,if_neg full,append_nil]
    exact ⟨fun _ => .inl (by omega),fun _ => rfl⟩

theorem octal_text {tail : List UInt8} (small : ∀ digit ∈ digits, digit < 10)
    (ends : ∀ c, tail.head? = some c → isDigit 10 c = false) :
    ∃ rest, digits.map ascii ++ tail = (digits.takeWhile (· < 8)).map ascii ++ rest ∧
      ∀ c, rest.head? = some c → isDigit 8 c = false := by
  induction digits with
  | nil =>
    refine ⟨tail,rfl,fun c first => ?_⟩
    have stop := ends c first
    simp only [isDigit,Bool.and_eq_false_iff,decide_eq_false_iff_not] at stop ⊢
    omega
  | cons digit digits ih =>
    by_cases octal : digit < 8
    · obtain ⟨rest,same,stops⟩ := ih (forall_mem_cons.mp small).2
      refine ⟨rest,?_,stops⟩
      rw [takeWhile_cons_of_pos (by simpa using octal),map_cons,map_cons,cons_append,cons_append,same]
    · refine ⟨(digit :: digits).map ascii ++ tail,by simp [octal],fun c first => ?_⟩
      cases first
      have code := toNat_ascii (small digit (.head _))
      simp only [isDigit,code,Bool.and_eq_false_iff,decide_eq_false_iff_not]
      omega

theorem drop_fieldBytes {tail : List UInt8} (short : digits.length ≤ width) :
    (fieldBytes ((width,digits) :: fields) ++ tail).drop width = fieldBytes fields ++ tail := by
  have whole : (digits.map ascii ++ replicate (width - digits.length) 32).length = width := by
    simp
    omega
  rw [fieldBytes,flatMap_cons,append_assoc,drop_left' whole,← fieldBytes]

/-! ### The numbers of a header -/

namespace Header

def fields (header : Header) : List (Nat × List Nat) :=
  [(12,header.date.digits),(6,header.uid.digits),(6,header.gid.digits),(8,header.mode.digits),(10,header.size.digits)]

def octalRun (header : Header) : List Nat :=
  header.mode.digits ++ if header.mode.digits.length = 8 then header.size.digits.takeWhile (· < 8) else []

theorem fields_fit (header : Header) : ∀ field ∈ header.fields, field.2.length ≤ field.1 := by
  simp [fields,header.date.short,header.uid.short,header.gid.short,header.mode.short,header.size.short]

theorem fields_small (header : Header) : ∀ field ∈ header.fields, ∀ digit ∈ field.2, digit < 10 := by
  have mode : ∀ digit ∈ header.mode.digits, digit < 10 := fun digit listed => by
    have := header.mode.small digit listed
    omega
  intro field listed
  simp only [fields,mem_cons,not_mem_nil,or_false] at listed
  rcases listed with rfl | rfl | rfl | rfl | rfl
  · exact header.date.small
  · exact header.uid.small
  · exact header.gid.small
  · exact mode
  · exact header.size.small

theorem drop_bytes (header : Header) :
    header.bytes.drop 16 = fieldBytes header.fields ++ [96,10] ∧
      header.bytes.drop 28 = fieldBytes (header.fields.drop 1) ++ [96,10] ∧
      header.bytes.drop 34 = fieldBytes (header.fields.drop 2) ++ [96,10] ∧
      header.bytes.drop 40 = fieldBytes (header.fields.drop 3) ++ [96,10] ∧
      header.bytes.drop 48 = fieldBytes (header.fields.drop 4) ++ [96,10] := by
  have first : header.bytes.drop 16 = fieldBytes header.fields ++ [96,10] := by
    rw [bytes,drop_left' header.named]
    simp [fieldBytes,fields,Field.bytes]
  have second : header.bytes.drop (16 + 12) = fieldBytes (header.fields.drop 1) ++ [96,10] := by
    rw [← drop_drop,first]
    exact drop_fieldBytes header.date.short
  have third : header.bytes.drop (28 + 6) = fieldBytes (header.fields.drop 2) ++ [96,10] := by
    rw [← drop_drop,second]
    exact drop_fieldBytes header.uid.short
  have fourth : header.bytes.drop (34 + 6) = fieldBytes (header.fields.drop 3) ++ [96,10] := by
    rw [← drop_drop,third]
    exact drop_fieldBytes header.gid.short
  have fifth : header.bytes.drop (40 + 8) = fieldBytes (header.fields.drop 4) ++ [96,10] := by
    rw [← drop_drop,fourth]
    exact drop_fieldBytes header.mode.short
  exact ⟨first,second,third,fourth,fifth⟩

theorem strtol_mode (header : Header) :
    strtol 8 (fieldBytes (header.fields.drop 3) ++ [96,10]) = parse 8 header.octalRun := by
  have small : ∀ digit ∈ header.octalRun, digit < 8 := by
    intro digit listed
    rcases mem_append.mp listed with own | other
    · exact header.mode.small digit own
    split at other
    · simpa using mem_takeWhile_imp other
    · cases other
  have nonempty : header.octalRun ≠ [] := append_ne_nil_of_left_ne_nil header.mode.nonempty _
  have bounded : parse 8 header.octalRun < 2 ^ 63 := by
    have below := parse_lt small
    have most : header.octalRun.length ≤ 18 := by
      have modeShort := header.mode.short
      have sizeShort := header.size.short
      have cut := (takeWhile_sublist (l := header.size.digits) (· < 8)).length_le
      rw [octalRun,length_append]
      split
      · omega
      · simp only [length_nil]
        omega
    have power : 8 ^ header.octalRun.length ≤ 8 ^ 18 := Nat.pow_le_pow_right (by decide) most
    omega
  obtain ⟨tail,same,ends⟩ : ∃ tail, fieldBytes (header.fields.drop 3) ++ [96,10] = header.octalRun.map ascii ++ tail ∧
      ∀ c, tail.head? = some c → isDigit 8 c = false := by
    obtain ⟨tail,same,ends⟩ := run_text fun field listed =>
      header.fields_fit field (mem_of_mem_drop listed)
    have alone : run (header.fields.drop 4) = header.size.digits := by simp [fields,run]
    rw [alone] at same
    obtain ⟨rest,octal,stops⟩ := octal_text header.size.small ends
    have text : fieldBytes (header.fields.drop 3) ++ [96,10] =
        header.mode.digits.map ascii ++ (replicate (8 - header.mode.digits.length) 32 ++
          (fieldBytes (header.fields.drop 4) ++ [96,10])) := by simp [fieldBytes,fields]
    by_cases full : header.mode.digits.length = 8
    · refine ⟨rest,?_,stops⟩
      rw [text,octalRun,if_pos full,full,same,octal,map_append,append_assoc]
      rfl
    · have short := header.mode.short
      exact ⟨_,by rw [text,octalRun,if_neg full,append_nil],blanks_end (by omega) _⟩
  rw [same]
  exact strtol_digits (by decide) nonempty small tail ends bounded

structure Right (header : Header) (typed : Numbers) : Prop where
  mtime : typed.mtime = header.date.value
  uid : typed.uid = header.uid.value
  gid : typed.gid = header.gid.value
  mode : typed.mode = header.mode.value
  size : typed.size = header.size.value

/-- No field runs into the next one, except where all that is read is zero or, for the mode, makes no difference in the
32 bits that are kept; date and size fit into an `int`. -/
structure Apart (header : Header) : Prop where
  date : header.date.value < 2 ^ 31
  dateEnds : header.date.digits.length < 12 ∨ parse 10 (run header.fields) = 0
  uidEnds : header.uid.digits.length < 6 ∨ parse 10 (run (header.fields.drop 1)) = 0
  gidEnds : header.gid.digits.length < 6 ∨ parse 10 (run (header.fields.drop 2)) = 0
  modeEnds : header.mode.digits.length < 8 ∨ parse 8 header.octalRun % 2 ^ 32 = header.mode.value
  size : header.size.value < 2 ^ 31

theorem numbers_bytes (header : Header) : numbers header.bytes =
    if parse 10 (run header.fields) < 2 ^ 31 ∧ parse 10 (run (header.fields.drop 1)) < 2 ^ 31 ∧
        parse 10 (run (header.fields.drop 2)) < 2 ^ 31 ∧ header.size.value < 2 ^ 31 then
      some ⟨parse 8 header.octalRun % 2 ^ 32,parse 10 (run header.fields),parse 10 (run (header.fields.drop 1)),
        parse 10 (run (header.fields.drop 2)),header.size.value⟩
    else none := by
  obtain ⟨date,uid,gid,mode,size⟩ := header.drop_bytes
  have fit (n : Nat) : ∀ field ∈ header.fields.drop n, field.2.length ≤ field.1 := fun field listed =>
    header.fields_fit field (mem_of_mem_drop listed)
  have small (n : Nat) : ∀ field ∈ header.fields.drop n, ∀ digit ∈ field.2, digit < 10 := fun field listed =>
    header.fields_small field (mem_of_mem_drop listed)
  have first : atoi (header.bytes.drop 16) = _ := date ▸ atoi_run header.date.nonempty (fit 0) (small 0)
  have second : atoi (header.bytes.drop 28) = _ := uid ▸ atoi_run header.uid.nonempty (fit 1) (small 1)
  have third : atoi (header.bytes.drop 34) = _ := gid ▸ atoi_run header.gid.nonempty (fit 2) (small 2)
  have last : atoi (header.bytes.drop 48) = _ := size ▸ atoi_run header.size.nonempty (fit 4) (small 4)
  have alone : run [(10,header.size.digits)] = header.size.digits := by simp [run]
  rw [alone] at last
  have octal (n : Nat) : ((n : Int) % 2 ^ 32).toNat = n % 2 ^ 32 := by omega
  rw [numbers_eq first second third last,mode,strtol_mode,octal]
  rfl

theorem mode_of_short (header : Header) (short : header.mode.digits.length < 8) :
    parse 8 header.octalRun % 2 ^ 32 = header.mode.value := by
  have below := parse_lt header.mode.small
  have most : 8 ^ header.mode.digits.length ≤ 8 ^ 8 := Nat.pow_le_pow_right (by decide) header.mode.short
  rw [octalRun,if_neg (by omega),append_nil,← Field.value]
  exact mod_eq_of_lt (by rw [Field.value]; omega)

theorem value_lt (field : Field 10 width) (narrow : width ≤ 6) : field.value < 2 ^ 31 := by
  have below := parse_lt field.small
  have most : 10 ^ field.digits.length ≤ 10 ^ 6 := Nat.pow_le_pow_right (by decide) (Nat.le_trans field.short narrow)
  rw [Field.value]
  omega

theorem right_iff (header : Header) :
    (∃ typed, numbers header.bytes = some typed ∧ header.Right typed) ↔ header.Apart := by
  have date : parse 10 (run header.fields) = header.date.value ↔ _ :=
    run_value_iff header.uid.nonempty header.date.short
  have uid : parse 10 (run (header.fields.drop 1)) = header.uid.value ↔ _ :=
    run_value_iff header.gid.nonempty header.uid.short
  have gid : parse 10 (run (header.fields.drop 2)) = header.gid.value ↔ _ :=
    run_value_iff header.mode.nonempty header.gid.short
  rw [numbers_bytes]
  constructor
  · rintro ⟨typed,made,right⟩
    rw [Option.ite_none_right_eq_some] at made
    obtain ⟨⟨dateFits,_,_,sizeFits⟩,same⟩ := made
    cases same
    have dateSame := Int.ofNat.inj right.mtime
    exact
      { date := dateSame ▸ dateFits
        dateEnds := date.mp dateSame
        uidEnds := uid.mp right.uid
        gidEnds := gid.mp right.gid
        modeEnds := .inr right.mode
        size := sizeFits }
  · intro apart
    have dateSame := date.mpr apart.dateEnds
    have uidSame := uid.mpr apart.uidEnds
    have gidSame := gid.mpr apart.gidEnds
    have fits : parse 10 (run header.fields) < 2 ^ 31 ∧ parse 10 (run (header.fields.drop 1)) < 2 ^ 31 ∧
        parse 10 (run (header.fields.drop 2)) < 2 ^ 31 ∧ header.size.value < 2 ^ 31 := by
      rw [dateSame,uidSame,gidSame]
      exact ⟨apart.date,value_lt header.uid (by decide),value_lt header.gid (by decide),apart.size⟩
    refine ⟨_,if_pos fits,?_⟩
    exact
      { mtime := congrArg Int.ofNat dateSame
        uid := uidSame
        gid := gidSame
        mode := apart.modeEnds.elim header.mode_of_short id
        size := rfl }

end Header

/-! ### The header in an archive -/

/-- `get_header_ar` reads the numbers of the header from its own digits, and presents them with the name of an entry
whose name is not special. -/
def Yields (handle : Handle) (header : Header) : Prop :=
  ∃ typed after, readHeader handle = .ok (header.bytes,typed,after) ∧ header.Right typed ∧
    (header.name.head? ≠ some 47 → ∃ last, getHeaderAr handle = (.entry ⟨cutName header.name,typed⟩,last))

theorem Header.magic (header : Header) : header.bytes.drop 58 = [96,10] := by
  rw [show (58 : Nat) = 48 + 10 from rfl,← drop_drop,header.drop_bytes.2.2.2.2]
  exact drop_fieldBytes header.size.short

theorem Header.head_bytes (header : Header) : header.bytes.head? = header.name.head? := by
  have named := header.named
  cases name : header.name with
  | nil => rw [name] at named; simp at named
  | cons c rest => simp [Header.bytes,name]

section Archive

variable {handle : Handle} {header : Header} {tail : List UInt8}

theorem getElem_behind (here : handle.archive.drop handle.position = header.bytes ++ tail) :
    handle.archive[handle.position + 60]? = tail.head? := by
  rw [← getElem?_drop,here,getElem?_append_right (by rw [header.length_bytes]),header.length_bytes,head?_eq_getElem?]

theorem Header.bytes_front (header : Header) : ∃ front, front.length = 58 ∧ header.bytes = front ++ [96,10] := by
  refine ⟨header.bytes.take 58,by rw [length_take,header.length_bytes]; rfl,?_⟩
  rw [← header.magic,take_append_drop]

theorem readRaw_padded (here : handle.archive.drop handle.position = 10 :: (header.bytes ++ tail)) :
    ∃ after, readRaw handle = .ok (header.bytes,after) := by
  obtain ⟨front,long,whole⟩ := header.bytes_front
  have split : handle.archive.drop handle.position = (10 :: (front ++ [96])) ++ ([10] ++ tail) := by
    rw [here,whole]
    simp
  have raw : handle.read 60 = 10 :: (front ++ [96]) := by
    rw [Handle.read,split,take_left' (by simp [long])]
  have last : handle.archive[handle.position + 60]? = some 10 := by
    rw [← getElem?_drop,split,getElem?_append_right (by simp [long])]
    simp [long]
  rw [readRaw,raw,last,whole]
  simp [long]

theorem read_bytes (here : handle.archive.drop handle.position = header.bytes ++ tail) :
    handle.read 60 = header.bytes := by
  rw [Handle.read,here,take_left' header.length_bytes]

theorem readRaw_direct (here : handle.archive.drop handle.position = header.bytes ++ tail)
    (plain : header.name.head? ≠ some 10) : ∃ after, readRaw handle = .ok (header.bytes,after) := by
  rw [readRaw,read_bytes here]
  simp only [header.length_bytes,header.head_bytes,plain,ne_eq,not_true_eq_false,if_false]
  exact ⟨_,rfl⟩

/-- A name that starts with a newline is taken for padding, and the magic is missed by one byte. -/
theorem readHeader_shifted (here : handle.archive.drop handle.position = header.bytes ++ tail)
    (newline : header.name.head? = some 10) : ∃ outcome, readHeader handle = .error outcome := by
  obtain ⟨front,long,whole⟩ := header.bytes_front
  have shifted (c : UInt8) : (header.bytes.tail ++ [c]).drop 58 = [10,c] := by
    cases front with
    | nil => simp at long
    | cons first front =>
      have less : (front ++ [96]).length = 58 := by simpa using long
      have same : (first :: front ++ [96,10]).tail ++ [c] = (front ++ [96]) ++ [10,c] := by simp
      rw [whole,same,drop_left' less]
  rw [readHeader,readRaw,read_bytes here,getElem_behind here]
  simp only [header.length_bytes,header.head_bytes,newline,ne_eq,not_true_eq_false,if_false,if_true]
  cases tail.head? with
  | none => exact ⟨_,rfl⟩
  | some c =>
    simp only [shifted]
    exact ⟨_,if_pos (by simp)⟩

theorem readHeader_ok_iff {after other : Handle} (raw : readRaw handle = .ok (header.bytes,after)) :
    readHeader handle = .ok (header.bytes,typed,other) ↔ numbers header.bytes = some typed ∧ after = other := by
  rw [readHeader,raw]
  simp only [header.magic,ne_eq,not_true_eq_false,if_false]
  cases numbers header.bytes with
  | none => simp
  | some other => simp

theorem getHeaderAr_ordinary {after : Handle} (read : readHeader handle = .ok (header.bytes,typed,after))
    (ordinary : header.name.head? ≠ some 47) :
    ∃ last, getHeaderAr handle = (.entry ⟨cutName header.name,typed⟩,last) := by
  have name : header.bytes.take 16 = header.name := by rw [Header.bytes,take_left' header.named]
  rw [getHeaderAr,getHeaderArLoop,read]
  simp only [header.head_bytes,ordinary,if_false,name]
  exact ⟨_,rfl⟩

/-- A header with digits in its number fields gives back the number of each field's own digits exactly if no field runs
into the next one with an effect, date and size fit into an `int`, and its name is not taken for padding. -/
theorem arFields_independent_iff (handle : Handle) (header : Header) (padding tail : List UInt8)
    (pad : padding = [] ∨ padding = [10])
    (here : handle.archive.drop handle.position = padding ++ (header.bytes ++ tail)) :
    Yields handle header ↔ (padding = [] → header.name.head? ≠ some 10) ∧ header.Apart := by
  rw [← header.right_iff]
  have found (after : Handle) (raw : readRaw handle = .ok (header.bytes,after)) :
      Yields handle header ↔ ∃ typed, numbers header.bytes = some typed ∧ header.Right typed := by
    constructor
    · rintro ⟨typed,other,read,right,_⟩
      exact ⟨typed,((readHeader_ok_iff raw).mp read).1,right⟩
    · rintro ⟨typed,number,right⟩
      have read := (readHeader_ok_iff raw).mpr ⟨number,rfl⟩
      exact ⟨typed,after,read,right,getHeaderAr_ordinary read⟩
  rcases pad with rfl | rfl
  · by_cases newline : header.name.head? = some 10
    · obtain ⟨outcome,failed⟩ := readHeader_shifted here newline
      constructor
      · rintro ⟨_,_,read,_⟩
        cases failed.symm.trans read
      · rintro ⟨plain,_⟩
        exact absurd newline (plain rfl)
    · obtain ⟨after,raw⟩ := readRaw_direct here newline
      rw [found after raw]
      exact ⟨fun right => ⟨fun _ => newline,right⟩,fun both => both.2⟩
  · obtain ⟨after,raw⟩ := readRaw_padded here
    rw [found after raw]
    exact ⟨fun right => ⟨fun empty => absurd empty (by simp),right⟩,fun both => both.2⟩

end Archive

def letterHeader (date : Field 10 12) (uid gid : Field 10 6) (mode : Field 8 8) (size : Field 10 10) : Header :=
  ⟨97 :: replicate 15 32,rfl,date,uid,gid,mode,size⟩

def letterUsers : Header :=
  letterHeader ⟨[9],by decide,by decide,by decide⟩ ⟨[1,0,0,0],by decide,by decide,by decide⟩
    ⟨[1,0,0],by decide,by decide,by decide⟩ ⟨[1,0,0,6,4,4],by decide,by decide,by decide⟩
    ⟨[5],by decide,by decide,by decide⟩

def letterFull : Header :=
  letterHeader ⟨[9],by decide,by decide,by decide⟩ ⟨[1,0,0,0,0,0],by decide,by decide,by decide⟩
    ⟨[7],by decide,by decide,by decide⟩ ⟨[1,0,0,6,4,4],by decide,by decide,by decide⟩
    ⟨[5],by decide,by decide,by decide⟩

theorem arFields_independent_users : Yields ⟨10 :: letterUsers.bytes,0,7,[]⟩ letterUsers := by
  refine (arFields_independent_iff ⟨10 :: letterUsers.bytes,0,7,[]⟩ letterUsers [10] [] (.inr rfl)
    (by simp)).mpr ⟨fun empty => absurd empty (by simp),?_⟩
  exact
    { date := by decide
      dateEnds := by decide
      uidEnds := by decide
      gidEnds := by decide
      modeEnds := by decide
      size := by decide }

/-- A user id of six digits is read with the group behind it: 1000007 in place of 100000. -/
theorem fullUid_absorbs_gid :
    (getHeaderAr ⟨10 :: letterFull.bytes,0,7,[]⟩).1 = .entry ⟨[97],⟨33188,9,1000007,7,5⟩⟩ ∧
      letterFull.uid.value = 100000 := by
  constructor
  · decide +kernel
  · decide

end Stablebox.Ar
