import Stablebox.Archival.TarRoundTrip

/-! The number fields of a tar header: `putOctal` for every `long`, and which numbers
`writeTarHeader` stores so that they can be read again. `sprintf` writes no leading space, so
the character that `putOctal` suppresses is a digit. -/
namespace Stablebox.Tar

open List Digits Memory

def octalField (header : Memory) (cp len : Nat) : Option Nat :=
  let text := (header.get cp len).takeWhile (· ≠ 0)
  if text ≠ [] ∧ text.all (isDigit 8) then some (parse 8 (text.map fun c => c.toNat - 48)) else none

/-- `putOctal` with the `long` of its caller, which `%lo` prints without a sign: the result, and the header behind the
call. `none`: the text does not fit into `tempBuffer`. -/
def putOctalLong {w : Nat} (cp len : Nat) (value : BitVec w) (header : Memory) : Option (Bool × Memory) :=
  if (print 8 (len - 1) value.toNat).length + 1 > 32 then none
  else
    match putOctal cp len value.toNat header with
    | some after => some (true,after)
    | none => some (false,header)

/-! ### One field -/

variable {cp len : Nat}

theorem octalField_lt (read : octalField header cp len = some n) : n < 8 ^ len := by
  simp only [octalField,Option.ite_none_right_eq_some,Option.some.injEq] at read
  obtain ⟨⟨_,digits⟩,rfl⟩ := read
  have most := ((header.get cp len).takeWhile_sublist (· ≠ 0)).length_le
  have small : ∀ digit ∈ ((header.get cp len).takeWhile (· ≠ 0)).map fun c => c.toNat - 48, digit < 8 := by
    intro digit listed
    obtain ⟨c,there,rfl⟩ := mem_map.mp listed
    have octal := all_eq_true.mp digits c there
    simp only [isDigit,Bool.and_eq_true,decide_eq_true_eq] at octal
    omega
  exact lt_of_lt_of_le (parse_lt small) (Nat.pow_le_pow_right (by decide) (by simpa using most))

theorem octalField_digits (nonempty : digits ≠ []) (small : ∀ digit ∈ digits, digit < 8)
    (text : (header.get cp len).takeWhile (· ≠ 0) = digits.map ascii) :
    octalField header cp len = some (parse 8 digits) := by
  have every : (digits.map ascii).all (isDigit 8) = true := by
    rw [all_eq_true]
    intro c listed
    obtain ⟨digit,there,rfl⟩ := mem_map.mp listed
    exact isDigit_ascii (small digit there) (by decide)
  rw [octalField,text]
  simp only [every,map_ascii_value (by decide : 8 ≤ 10) small]
  exact if_pos ⟨by simpa using nonempty,trivial⟩

variable {header : Memory} {value : Nat}

theorem Holds.octalField (holds : Holds header cp len value) (room : 2 ≤ len) (fits : value < 8 ^ len) :
    Tar.octalField header cp len = some (value % 8 ^ (len - 1)) := by
  obtain ⟨digits,nonempty,_,small,parsed,field,plain⟩ := holds.digits room fits
  rw [octalField_digits nonempty small,parsed]
  rw [field,(Runs.until_first plain _).1]

theorem Holds.read_iff (holds : Holds header cp len value) (room : 2 ≤ len) (less : value ≤ n) :
    Tar.octalField header cp len = some n ↔ value = n ∧ n < 8 ^ (len - 1) := by
  constructor
  · intro read
    have bound := octalField_lt read
    rw [holds.octalField room (by omega),Option.some.injEq] at read
    have most := Nat.mod_le value (8 ^ (len - 1))
    omega
  · rintro ⟨rfl,small⟩
    have more := Nat.pow_le_pow_right (show 0 < 8 by decide) (Nat.sub_le len 1)
    rw [holds.octalField room (by omega),Nat.mod_eq_of_lt small]

theorem putOctal_eq_none_iff (room : 2 ≤ len) : putOctal cp len value header = none ↔ 8 ^ (len + 1) ≤ value := by
  have digits := render_length_iff (by decide : 1 < 8) (n := value) (show 0 < len + 1 by omega)
  have width := length_print 8 (len - 1) value
  have ends : putOctal cp len value header = none ↔ len + 2 ≤ (print 8 (len - 1) value).length := by
    simp only [putOctal]
    generalize print 8 (len - 1) value = tempString
    by_cases long : tempString.length + 1 > len
    · by_cases longer : tempString.length + 1 - 1 > len
      · simp only [if_pos long,if_pos longer,ite_eq_left_iff,reduceCtorEq,imp_false]
        omega
      · simp only [if_pos long,if_neg longer,reduceCtorEq,false_iff]
        omega
    · simp only [if_neg long,reduceCtorEq,false_iff]
      omega
  rw [ends,width]
  omega

/-- What the call has to do: the number can be read from the field if the result is TRUE, and otherwise nothing has
changed. -/
def PutsOctal {w : Nat} (cp len : Nat) (value : BitVec w) (header : Memory) : Prop :=
  ∃ result after, putOctalLong cp len value header = some (result,after) ∧
    (result = true → (octalField after cp len).map Int.ofNat = some value.toInt) ∧ (result = false → after = header)

theorem map_ofNat_eq_iff (o : Option Nat) (n : Int) : o.map Int.ofNat = some n ↔ 0 ≤ n ∧ o = some n.toNat := by
  cases o with
  | none => simp
  | some m =>
    simp only [Option.map_some,Option.some.injEq,Int.ofNat_eq_natCast]
    omega

theorem octalField_after_iff {after : Memory} (room : 2 ≤ len)
    (put : putOctal cp len value header = some after) {number : Int} (same : number = value ∨ number < 0) :
    (octalField after cp len).map Int.ofNat = some number ↔ 0 ≤ number ∧ number < 8 ^ (len - 1) := by
  have holds : Holds after cp len value := ⟨header,by rw [putField,put,Option.getD_some]⟩
  rw [map_ofNat_eq_iff]
  rcases same with rfl | negative
  · rw [Int.toNat_natCast,holds.read_iff room le_rfl,eq_self,true_and]
    exact and_congr_right fun _ => by norm_cast
  · exact iff_of_false (fun read => by omega) fun fits => by omega

theorem toInt_cases (value : BitVec w) : value.toInt = value.toNat ∨ value.toInt < 0 := by
  rw [BitVec.toInt_eq_toNat_cond]
  split
  · exact .inl rfl
  · exact .inr (by omega)

theorem putsOctal_iff {w : Nat} {value : BitVec w} (long : w ≤ 64) (room : 2 ≤ len) :
    PutsOctal cp len value header ↔
      len ≤ 32 ∧ (0 ≤ value.toInt ∧ value.toInt < 8 ^ (len - 1) ∨ 8 ^ (len + 1) ≤ value.toNat) := by
  have below : value.toNat < 8 ^ 22 := by
    have most : 2 ^ w ≤ 2 ^ 64 := Nat.pow_le_pow_right (by decide) long
    omega
  have few := (render_length_iff (by decide : 1 < 8) (by decide)).mpr below
  have width := length_print 8 (len - 1) value.toNat
  by_cases narrow : len ≤ 32
  · have buffer : ¬ (print 8 (len - 1) value.toNat).length + 1 > 32 := by omega
    simp only [PutsOctal,putOctalLong,if_neg buffer,narrow,true_and]
    cases put : putOctal cp len value.toNat header with
    | none =>
      have refused := (putOctal_eq_none_iff room).mp put
      exact ⟨fun _ => .inr refused,fun _ => ⟨false,header,rfl,by simp,fun _ => rfl⟩⟩
    | some after =>
      have refused : putOctal cp len value.toNat header = none ↔ 8 ^ (len + 1) ≤ value.toNat :=
        putOctal_eq_none_iff room
      have taken : ¬ 8 ^ (len + 1) ≤ value.toNat := by
        rw [← refused,put]
        simp
      have read := octalField_after_iff room put (toInt_cases value)
      constructor
      · rintro ⟨result,_,same,stored,_⟩
        cases same
        exact .inl (read.mp (stored rfl))
      · rintro (small | many)
        · exact ⟨true,after,rfl,fun _ => read.mpr small,by simp⟩
        · exact absurd many taken
  · have buffer : (print 8 (len - 1) value.toNat).length + 1 > 32 := by omega
    simp only [PutsOctal,putOctalLong,if_pos buffer,narrow,false_and,iff_false]
    rintro ⟨result,after,absurdity,_⟩
    cases absurdity

/-! ### A whole header -/

/-- The numbers as `putOctal` gets them, each converted to a `long` of `w` bits; the time may be negative. -/
def Stat.asLong (w : Nat) (statbuf : Stat) (mtime : Int) : Stat :=
  { statbuf with
    uid := statbuf.uid % 2 ^ w
    gid := statbuf.gid % 2 ^ w
    size := statbuf.size % 2 ^ w
    mtime := (mtime % 2 ^ w).toNat
    major := statbuf.major % 2 ^ w
    minor := statbuf.minor % 2 ^ w }

def isDevice (hlInfo : Option HardLinkInfo) (statbuf : Stat) : Prop :=
  hlInfo = none ∧ (statbuf.type = .character ∨ statbuf.type = .block)

/-- Every number that belongs into the header can be read from its field. -/
structure NumbersKept (hlInfo : Option HardLinkInfo) (statbuf : Stat) (mtime : Int) (header : Memory) : Prop where
  mode : octalField header 100 8 = some statbuf.mode
  uid : octalField header 108 8 = some statbuf.uid
  gid : octalField header 116 8 = some statbuf.gid
  size : octalField header 124 12 = some (entrySize hlInfo statbuf)
  mtime : (octalField header 136 12).map Int.ofNat = some mtime
  chksum : octalField header 148 7 = some (sum (header.put 148 (replicate 8 32)) 0 512)
  device : isDevice hlInfo statbuf →
    octalField header 329 8 = some statbuf.major ∧ octalField header 337 8 = some statbuf.minor

/-- The numbers have fewer digits than their fields have bytes, the size and the time are a `long`, and the slash behind
the name of a directory leaves the mode alone. -/
structure NumbersFit (w : Nat) (hlInfo : Option HardLinkInfo) (name : List UInt8) (statbuf : Stat) (mtime : Int) :
    Prop where
  name : isDirectory hlInfo statbuf → name.length < 99
  uid : statbuf.uid < 8 ^ 7
  gid : statbuf.gid < 8 ^ 7
  size : entrySize hlInfo statbuf < 8 ^ 11 ∧ entrySize hlInfo statbuf < 2 ^ w
  mtime : 0 ≤ mtime ∧ mtime < 8 ^ 11 ∧ mtime < 2 ^ w
  device : isDevice hlInfo statbuf → statbuf.major < 8 ^ 7 ∧ statbuf.minor < 8 ^ 7

def Refused (hlInfo : Option HardLinkInfo) (statbuf : Stat) (system : System) : Prop :=
  hlInfo = none ∧ (statbuf.type = .socket ∨ statbuf.type = .symlink ∧ system.target = none)

theorem Holds.long_iff (holds : Holds header cp len value) (reduced : value = n % 2 ^ w) (room : 2 ≤ len) :
    Tar.octalField header cp len = some n ↔ n < 8 ^ (len - 1) ∧ n < 2 ^ w := by
  rw [reduced] at holds
  rw [holds.read_iff room (Nat.mod_le n (2 ^ w)),mod_eq_iff_lt (Nat.pow_pos (by decide)),and_comm]

theorem Holds.int_iff {n : Int} (holds : Holds header cp len value) (reduced : value = (n % 2 ^ w).toNat)
    (room : 2 ≤ len) :
    (Tar.octalField header cp len).map Int.ofNat = some n ↔ 0 ≤ n ∧ n < 8 ^ (len - 1) ∧ n < 2 ^ w := by
  rw [map_ofNat_eq_iff]
  refine and_congr_right fun nonneg => ?_
  obtain ⟨m,rfl⟩ := Int.eq_ofNat_of_zero_le nonneg
  have small : ((m : Int) % 2 ^ w).toNat = m % 2 ^ w := by
    rfl
  rw [Int.toNat_natCast,holds.long_iff (reduced.trans small) room]
  norm_cast

section Fields

variable {hlInfo : Option HardLinkInfo} {name : List UInt8} {statbuf : Stat} {system : System} {header : Memory}

theorem writeTarHeader_take :
    writeTarHeader hlInfo name statbuf system = writeTarHeader hlInfo (name.take 99) statbuf system := by
  have copied (before : Memory) : safeStrncpy 0 (name.take 99) 100 before = safeStrncpy 0 name 100 before := by
    simp only [safeStrncpy,strncpy,take_take,length_take]
    rw [show 100 - 1 - min 99 name.length = 100 - 1 - name.length by omega]
    rfl
  simp only [writeTarHeader,commonHeader,copied]

theorem writeTarHeader_none_iff : writeTarHeader hlInfo name statbuf system = none ↔ Refused hlInfo statbuf system := by
  rw [writeTarHeader,Option.map_eq_none_iff,Refused]
  cases hlInfo with
  | some info => simp [typeHeader]
  | none =>
    cases kind : statbuf.type with
    | symlink => cases linked : system.target <;> simp [typeHeader,kind,linked]
    | _ => simp [typeHeader,kind]

theorem mode_spoiled (written : Written hlInfo name statbuf system header) (directory : isDirectory hlInfo statbuf)
    (full : name.length = 99) :
    octalField header 100 8 = none := by
  have null : header.get 100 1 = [0] := by
    rw [written.directory directory,get_checksum _ (by omega),full]
    simp [Memory.get,Memory.put]
  have field : header.get 100 8 = [0] ++ header.get 101 7 := by rw [← null,← Memory.get_add]
  simp [octalField,field]

variable (written : writeTarHeader hlInfo name statbuf system = some header)

include written

theorem holds_device (device : isDevice hlInfo statbuf) :
    Holds header 329 8 statbuf.major ∧ Holds header 337 8 statbuf.minor := by
  obtain ⟨rfl,kind⟩ := device
  obtain ⟨typed,made,rfl⟩ := Option.map_eq_some_iff.mp written
  have shape : ∃ base, typed = putField 337 8 statbuf.minor (putField 329 8 statbuf.major base) := by
    rcases kind with kind | kind
    · simp only [typeHeader,kind,Option.some.injEq] at made
      exact ⟨_,made.symm⟩
    · simp only [typeHeader,kind,Option.some.injEq] at made
      exact ⟨_,made.symm⟩
  obtain ⟨base,rfl⟩ := shape
  simp (disch := omega) only [Holds,get_checksum,get_putField]
  exact ⟨⟨_,rfl⟩,⟨_,rfl⟩⟩

theorem chksum_kept : octalField header 148 7 = some (sum (header.put 148 (replicate 8 32)) 0 512) := by
  obtain ⟨typed,_,rfl⟩ := Option.map_eq_some_iff.mp written
  have bounded := sum_le (typed.put 148 (replicate 8 32)) 0 512
  have blank : ((checksum typed).put 148 (replicate 8 32)).get 0 512 = (typed.put 148 (replicate 8 32)).get 0 512 := by
    have middle (base : Memory) : (base.put 148 (replicate 8 32)).get 148 8 = replicate 8 32 :=
      get_put_same base 148 (replicate 8 32)
    rw [show (512 : Nat) = 148 + (8 + 356) from rfl]
    simp (disch := first | omega | simp) only [Memory.get_add,zero_add,middle,get_put_outside,get_checksum]
  have same : sum ((checksum typed).put 148 (replicate 8 32)) 0 512 = sum (typed.put 148 (replicate 8 32)) 0 512 := by
    rw [sum,blank,sum]
  rw [same]
  have holds : Holds (checksum typed) 148 7 (sum (typed.put 148 (replicate 8 32)) 0 512) := ⟨_,rfl⟩
  exact (holds.read_iff (by decide) le_rfl).mpr ⟨rfl,by omega⟩

end Fields

theorem Stat.asLong_size (w : Nat) (hlInfo : Option HardLinkInfo) (statbuf : Stat) (mtime : Int) :
    entrySize hlInfo (statbuf.asLong w mtime) = entrySize hlInfo statbuf % 2 ^ w := by
  unfold entrySize
  show (if hlInfo.isNone ∧ statbuf.type = .regular then statbuf.size % 2 ^ w else 0) = _
  split
  · rfl
  · rw [Nat.zero_mod]

section Kept

variable {statbuf : Stat} (word : 32 ≤ w) (plain : 0 ∉ name)
  (written : writeTarHeader hlInfo name (statbuf.asLong w mtime) system = some header)

include word plain written

theorem numbersKept_iff : NumbersKept hlInfo statbuf mtime header ↔ NumbersFit w hlInfo name statbuf mtime := by
  have wide : 8 ^ 7 < 2 ^ w := lt_of_lt_of_le (by decide) (Nat.pow_le_pow_right (by decide) word)
  have cut : Written hlInfo (name.take 99) (statbuf.asLong w mtime) system header :=
    ⟨fun listed => plain (mem_of_mem_take listed),by simp,writeTarHeader_take.symm.trans written⟩
  have uid := cut.holds_uid.long_iff rfl (by decide)
  have gid := cut.holds_gid.long_iff rfl (by decide)
  have size := cut.holds_size.long_iff (Stat.asLong_size w hlInfo statbuf mtime) (by decide)
  have time := cut.holds_mtime.int_iff rfl (by decide)
  have major (own : isDevice hlInfo statbuf) := (holds_device written own).1.long_iff rfl (by decide)
  have minor (own : isDevice hlInfo statbuf) := (holds_device written own).2.long_iff rfl (by decide)
  have mode : octalField header 100 8 = some statbuf.mode ↔ (isDirectory hlInfo statbuf → name.length < 99) := by
    constructor
    · intro kept directory
      by_contra long
      have spoiled := mode_spoiled cut directory (by simp; omega)
      cases spoiled.symm.trans kept
    · intro fits
      have holds := cut.holds_mode fun both => by
        have less := fits both.1
        have full := both.2
        rw [length_take] at full
        omega
      exact (holds.read_iff (by decide) le_rfl).mpr ⟨rfl,statbuf.mode_lt⟩
  constructor
  · intro kept
    exact
      { name := mode.mp kept.mode
        uid := (uid.mp kept.uid).1
        gid := (gid.mp kept.gid).1
        size := size.mp kept.size
        mtime := time.mp kept.mtime
        device := fun own =>
          ⟨((major own).mp (kept.device own).1).1,((minor own).mp (kept.device own).2).1⟩ }
  · intro fit
    exact
      { mode := mode.mpr fit.name
        uid := uid.mpr ⟨fit.uid,lt_trans fit.uid wide⟩
        gid := gid.mpr ⟨fit.gid,lt_trans fit.gid wide⟩
        size := size.mpr fit.size
        mtime := time.mpr fit.mtime
        chksum := chksum_kept written
        device := fun own =>
          have small := fit.device own
          ⟨(major own).mpr ⟨small.1,lt_trans small.1 wide⟩,(minor own).mpr ⟨small.2,lt_trans small.2 wide⟩⟩ }

end Kept

/-- `putOctal` keeps its promise for exactly the numbers with fewer digits than the field has bytes and for those it
refuses, in fields of at most 32 bytes; a header is written with every number in it, or not at all, for exactly the
files whose numbers fit. -/
theorem octal_faithful_iff {w : Nat} (word : w = 32 ∨ w = 64) :
    (∀ (cp len : Nat) (value : BitVec w) (header : Memory), 2 ≤ len →
      (PutsOctal cp len value header ↔
        len ≤ 32 ∧ (0 ≤ value.toInt ∧ value.toInt < 8 ^ (len - 1) ∨ 8 ^ (len + 1) ≤ value.toNat))) ∧
    (∀ (hlInfo : Option HardLinkInfo) (name : List UInt8) (statbuf : Stat) (mtime : Int) (system : System), 0 ∉ name →
      ((∀ header, writeTarHeader hlInfo name (statbuf.asLong w mtime) system = some header →
          NumbersKept hlInfo statbuf mtime header) ↔
        Refused hlInfo statbuf system ∨ NumbersFit w hlInfo name statbuf mtime)) := by
  refine ⟨fun cp len value header room => putsOctal_iff (by omega) room,?_⟩
  intro hlInfo name statbuf mtime system plain
  have refused : writeTarHeader hlInfo name (statbuf.asLong w mtime) system = none ↔ Refused hlInfo statbuf system :=
    writeTarHeader_none_iff
  cases written : writeTarHeader hlInfo name (statbuf.asLong w mtime) system with
  | none => exact ⟨fun _ => .inl (refused.mp written),fun _ header absurdity => by cases absurdity⟩
  | some header =>
    have kept := numbersKept_iff (by omega) plain written
    have taken : ¬ Refused hlInfo statbuf system := by
      rw [← refused,written]
      simp
    constructor
    · intro all
      exact .inr (kept.mp (all header rfl))
    · rintro (absurdity | fits) other same
      · exact absurd absurdity taken
      · cases same
        exact kept.mpr fits

/-- User 1000 of a file with five bytes. -/
theorem octal_faithful_user :
    PutsOctal 108 8 (1000 : BitVec 64) (fun _ => 0) ∧
      ∀ header, writeTarHeader none [97] (Stat.asLong 64 ⟨.regular,420,1000,100,5,0,0,0,1,1,2⟩ 10)
          ⟨true,false,none,none,none⟩ = some header →
        NumbersKept none ⟨.regular,420,1000,100,5,0,0,0,1,1,2⟩ 10 header := by
  obtain ⟨field,file⟩ := octal_faithful_iff (.inr rfl : 64 = 32 ∨ 64 = 64)
  refine ⟨(field 108 8 1000 (fun _ => 0) (by decide)).mpr (by decide),(file none [97] _ 10 _ (by decide)).mpr (.inr ?_)⟩
  exact
    { name := fun directory => absurd directory (by decide)
      uid := by decide
      gid := by decide
      size := by decide
      mtime := by decide
      device := fun device => absurd device.2 (by decide) }

/-- User 2097152, which has eight octal digits: the result is TRUE, and the field says user 0. -/
theorem eightDigits_lost :
    (putOctalLong 108 8 (2097152 : BitVec 64) fun _ => 0).map (fun put => (put.1,octalField put.2 108 8)) =
        some (true,some 0) ∧
      (writeTarHeader none [97] (Stat.asLong 64 ⟨.regular,420,2097152,100,5,0,0,0,1,1,2⟩ 10)
          ⟨true,false,none,none,none⟩).map (octalField · 108 8) = some (some 0) := by
  constructor
  · decide +kernel
  · decide +kernel

end Stablebox.Tar
