import Mathlib.Algebra.Order.BigOperators.Group.List
import Mathlib.Data.List.DropRight
import Mathlib.Data.List.GetD
import Stablebox.Archival.TarHeader
import Stablebox.Lib.Runs

/-! Reading the header of an archived file back. A number field keeps one digit less than it has
room for, the slash after the name of a directory may reach the mode, and a link name that
fills its field runs into the magic. -/
namespace Stablebox.Tar

open Libbb List Memory Option Digits Nat

/-! ### Every write stays in its field -/

variable {count : Nat}

theorem get_strncpy (header : Memory) (src : List UInt8) (outside : p + count ≤ dst ∨ dst + n ≤ p) :
    (strncpy dst src n header).get p count = header.get p count := by
  apply get_put_outside
  simp only [length_append,length_take,length_replicate]
  omega

theorem get_safeStrncpy (header : Memory) {size : Nat} (src : List UInt8) (room : 0 < size)
    (outside : p + count ≤ dst ∨ dst + size ≤ p) :
    (safeStrncpy dst src size header).get p count = header.get p count := by
  rw [safeStrncpy,get_strncpy _ _ (by omega),get_put_outside]
  simp only [length_singleton]
  omega

variable {len : Nat}

theorem get_putField (header : Memory) (value : Nat) (outside : p + count ≤ cp ∨ cp + len ≤ p) :
    (putField cp len value header).get p count = header.get p count := by
  unfold putField
  cases written : putOctal cp len value header with
  | none => rfl
  | some after =>
    simp only [putOctal,ite_none_left_eq_some,some.injEq] at written
    rw [getD_some,← written.2]
    apply get_put_outside
    rw [length_take]
    omega

theorem get_putOwner (header : Memory) (name : Option (List UInt8)) (id : Nat)
    (outside : p + count ≤ dst ∨ dst + 32 ≤ p) : (putOwner dst name id header).get p count = header.get p count := by
  unfold putOwner
  split
  · exact get_safeStrncpy header _ (by decide) outside
  have root : (text "root" ++ [0]).length = 5 := rfl
  rw [strcpy,get_put_outside,get_put_outside]
  · simp only [length_append,length_take,length_singleton]
    omega
  · omega

theorem get_magic (header : Memory) (outside : p + count ≤ 257 ∨ 265 ≤ p) :
    (strcpy 257 (text "ustar  ") header).get p count = header.get p count :=
  get_put_outside _ _ _ _ _ outside

theorem get_put_byte (header : Memory) (c : UInt8) (outside : p + count ≤ q ∨ q + 1 ≤ p) :
    (header.put q [c]).get p count = header.get p count :=
  get_put_outside _ _ _ _ _ outside

theorem get_put_slash (header : Memory) (outside : p + count ≤ q ∨ q + 2 ≤ p) :
    (header.put q [47,0]).get p count = header.get p count :=
  get_put_outside _ _ _ _ _ outside

theorem get_checksum (header : Memory) (outside : p + count ≤ 148 ∨ 156 ≤ p) :
    (checksum header).get p count = header.get p count := by
  rw [checksum,get_putField _ _ (by omega),get_put_outside _ _ _ _ _ outside]

/-! ### Number fields -/

theorem putField_eq {value : Nat} (cp : Nat) (header : Memory) (room : 2 ≤ len) (fits : value < 8 ^ len) :
    ∃ digits : List Nat, digits.length + 1 = len ∧ (∀ digit ∈ digits, digit < 8) ∧
      parse 8 digits = value % 8 ^ (len - 1) ∧
      putField cp len value header = header.put cp (digits.map ascii ++ [0]) := by
  obtain ⟨digits,shape,nonempty,small,parsed⟩ := print_digits (by decide : 1 < 8) (len - 1) value
  have printed := congrArg List.length shape
  have rendered := (render_length_iff (by decide : 1 < 8) (by omega)).mpr fits
  simp only [print,length_map,length_append,length_replicate] at printed
  have fitting {kept : List Nat} (width : kept.length = len - 1) :
      (kept.map ascii ++ [0]).take len = kept.map ascii ++ [0] := by
    simp
    omega
  rcases lt_or_ge (len - 1) digits.length with full | notFull
  · obtain ⟨first,rest,rfl⟩ := exists_cons_of_ne_nil nonempty
    have width : rest.length = len - 1 := by
      rw [length_cons] at printed full
      omega
    have restSmall : ∀ digit ∈ rest, digit < 8 := (forall_mem_cons.mp small).2
    refine ⟨rest,by omega,restSmall,?_,?_⟩
    · have restBelow := parse_lt restSmall
      rw [parse_cons,width] at parsed
      rw [width] at restBelow
      rw [← parsed,add_comm,add_mul_mod_self_right,mod_eq_of_lt restBelow]
    · have above : rest.length + 1 + 1 > len := by omega
      have enough : ¬ rest.length + 1 + 1 - 1 > len := by omega
      simp only [putField,putOctal,shape,map_cons,length_cons,length_map,tail_cons,if_pos above,
        if_neg enough,fitting width,getD_some]
  · have width : digits.length = len - 1 := by omega
    refine ⟨digits,by omega,small,?_,?_⟩
    · have below := parse_lt small
      rw [width] at below
      rw [← parsed,mod_eq_of_lt below]
    have enough : ¬ digits.length + 1 > len := by omega
    simp only [putField,putOctal,shape,length_map,if_neg enough,fitting width,getD_some]

theorem ascii_ne_zero {digit : Nat} (small : digit < 8) : ascii digit ≠ 0 := by
  intro zero
  have code := toNat_ascii (show digit < 10 by omega)
  rw [zero] at code
  simp at code
  omega

theorem cstring_of_get (inside : offset + count ≤ 512) (field : header.get offset count = bytes ++ 0 :: rest)
    (plain : 0 ∉ bytes) : cstring header offset = bytes := by
  have whole : 512 - offset = count + (512 - offset - count) := by omega
  rw [cstring,whole,get_add,field,append_assoc,cons_append,(Runs.until_first plain _).1]

/-- The bytes of a field are those that `putOctal` left for a number. -/
def Holds (header : Memory) (cp len value : Nat) : Prop :=
  ∃ before, header.get cp len = (putField cp len value before).get cp len

variable {header : Memory}

variable {value : Nat}

theorem Holds.digits (holds : Holds header cp len value) (room : 2 ≤ len) (fits : value < 8 ^ len) :
    ∃ digits : List Nat, digits ≠ [] ∧ digits.length + 1 = len ∧ (∀ digit ∈ digits, digit < 8) ∧
      parse 8 digits = value % 8 ^ (len - 1) ∧ header.get cp len = digits.map ascii ++ 0 :: [] ∧
      0 ∉ digits.map ascii := by
  obtain ⟨before,same⟩ := holds
  obtain ⟨digits,width,small,parsed,written⟩ := putField_eq cp before room fits
  refine ⟨digits,?_,width,small,parsed,?_,fun listed => ?_⟩
  · rintro rfl
    simp at width
    omega
  · have here := get_put_same before cp (digits.map ascii ++ [0])
    rw [length_append,length_map,length_singleton,width] at here
    rw [same,written,here]
  · obtain ⟨digit,there,zero⟩ := mem_map.mp listed
    exact ascii_ne_zero (small digit there) zero

theorem Holds.read (holds : Holds header cp len value) (inside : cp + len ≤ 512) (room : 2 ≤ len)
    (narrow : len ≤ 12) (fits : value < 8 ^ len) : octal header cp = (value % 8 ^ (len - 1) : Nat) := by
  obtain ⟨digits,nonempty,width,small,parsed,field,plain⟩ := holds.digits room fits
  have bounded : parse 8 digits < 2 ^ 63 := by
    have below := parse_lt small
    have most : 8 ^ digits.length ≤ 8 ^ 11 := Nat.pow_le_pow_right (by decide) (by omega)
    omega
  have read := strtol_digits (by decide) nonempty small [] (by simp) bounded
  rw [append_nil] at read
  rw [octal,cstring_of_get inside field plain,read,parsed]

/-! ### The checksum -/

theorem sum_add (header : Memory) (offset a b : Nat) :
    sum header offset (a + b) = sum header offset a + sum header (offset + a) b := by
  simp [sum,get_add]

theorem sum_le (header : Memory) (offset count : Nat) : sum header offset count ≤ count * 255 := by
  have each : ∀ n ∈ (header.get offset count).map UInt8.toNat, n ≤ 255 := by
    intro n listed
    obtain ⟨c,_,rfl⟩ := mem_map.mp listed
    have := c.toNat_lt
    omega
  simpa [sum] using sum_le_card_nsmul _ 255 each

theorem validChecksum_checksum (header : Memory) : validChecksum (checksum header) := by
  have blank : (header.put 148 (replicate 8 32)).get 148 8 = replicate 8 32 := get_put_same header 148 (replicate 8 32)
  have parts : sum (header.put 148 (replicate 8 32)) 0 512 =
      sum (checksum header) 0 148 + 32 * 8 + sum (checksum header) 156 356 := by
    have front : (checksum header).get 0 148 = (header.put 148 (replicate 8 32)).get 0 148 :=
      get_putField _ _ (by omega)
    have back : (checksum header).get 156 356 = (header.put 148 (replicate 8 32)).get 156 356 :=
      get_putField _ _ (by omega)
    rw [show (512 : Nat) = 148 + (8 + 356) from rfl,sum_add,sum_add]
    simp only [sum,front,back,blank]
    simp
    omega
  have bounded := sum_le (header.put 148 (replicate 8 32)) 0 512
  have read : octal (checksum header) 148 = (sum (header.put 148 (replicate 8 32)) 0 512 % 8 ^ (7 - 1) : Nat) :=
    Holds.read ⟨_,rfl⟩ (by decide) (by decide) (by decide) (by omega)
  rw [mod_eq_of_lt (by omega)] at read
  rw [validChecksum,read,parts]
  exact beq_self_eq_true _

/-! ### What the writer leaves in the header -/

def isDirectory (hlInfo : Option HardLinkInfo) (statbuf : Stat) : Prop := hlInfo = none ∧ statbuf.type = .directory

instance (hlInfo : Option HardLinkInfo) (statbuf : Stat) : Decidable (isDirectory hlInfo statbuf) :=
  match hlInfo with
  | none => decidable_of_iff (statbuf.type = .directory) (by simp [isDirectory])
  | some _ => isFalse (by simp [isDirectory])

def entryKind (hlInfo : Option HardLinkInfo) (statbuf : Stat) : FileType :=
  if hlInfo.isSome then .regular else statbuf.type

def entrySize (hlInfo : Option HardLinkInfo) (statbuf : Stat) : Nat :=
  if hlInfo.isNone ∧ statbuf.type = .regular then statbuf.size else 0

def entryLink (hlInfo : Option HardLinkInfo) (statbuf : Stat) (system : System) : Option (List UInt8) :=
  match hlInfo with
  | some hlInfo => some hlInfo.name.bytes
  | none => if statbuf.type = .symlink then system.target.map Path.bytes else none

section Common

variable (name : List UInt8) (statbuf : Stat) (system : System)

theorem commonHeader_name (short : name.length ≤ 99) :
    (commonHeader name statbuf system).get 0 100 = name ++ replicate (100 - name.length) 0 := by
  have copied : name.take 99 = name := take_of_length_le short
  have width : (name ++ replicate (99 - name.length) 0).length = 99 := by
    simp
    omega
  have front (header : Memory) : (header.put 0 (name ++ replicate (99 - name.length) 0)).get 0 99 =
      name ++ replicate (99 - name.length) 0 := by
    have here := header.get_put_same 0 (name ++ replicate (99 - name.length) 0)
    rwa [width] at here
  have last (header : Memory) (zero : header 99 = 0) :
      (header.put 0 (name ++ replicate (99 - name.length) 0)).get 99 1 = [0] := by
    rw [get_put_outside _ _ _ _ _ (by omega)]
    simp [Memory.get,zero]
  simp (disch := omega) only [commonHeader,get_putOwner,get_magic,get_putField]
  rw [safeStrncpy,strncpy,show (100 : Nat) - 1 = 99 from rfl,copied,show (100 : Nat) = 99 + 1 from rfl,
    get_add,front,last _ (by simp [Memory.put]),append_assoc,← replicate_succ',
    show 99 - name.length + 1 = 99 + 1 - name.length by omega]

theorem commonHeader_zero {p count : Nat} (outside : 148 ≤ p ∧ p + count ≤ 257 ∨ 329 ≤ p) :
    (commonHeader name statbuf system).get p count = replicate count 0 := by
  simp (disch := omega) only [commonHeader,get_putOwner,get_magic,get_putField,get_safeStrncpy]
  simp [Memory.get,map_const']

theorem commonHeader_holds :
    let header := commonHeader name statbuf system
    Holds header 100 8 statbuf.mode ∧ Holds header 108 8 statbuf.uid ∧ Holds header 116 8 statbuf.gid ∧
      Holds header 124 12 0 ∧ Holds header 136 12 statbuf.mtime := by
  refine ⟨?_,?_,?_,?_,?_⟩ <;>
  · rw [Holds]
    simp (disch := omega) only [commonHeader,get_putOwner,get_magic,get_putField]
    exact ⟨_,rfl⟩

theorem commonHeader_magic : (commonHeader name statbuf system).get 257 8 = text "ustar  " ++ [0] := by
  simp (disch := omega) only [commonHeader,get_putOwner]
  exact get_put_same _ 257 (text "ustar  " ++ [0])

end Common

def typeflag (hlInfo : Option HardLinkInfo) (statbuf : Stat) : UInt8 :=
  match hlInfo, statbuf.type with
  | some _,_ => 49
  | none,.symlink => 50
  | none,.character => 51
  | none,.block => 52
  | none,.directory => 53
  | none,.fifo => 54
  | none,_ => 48

section Written

variable {hlInfo : Option HardLinkInfo} {name : List UInt8} {statbuf : Stat} {system : System} {header : Memory}

/-- The header was written, and its name leaves room for a null. -/
structure Written (hlInfo : Option HardLinkInfo) (name : List UInt8) (statbuf : Stat) (system : System)
    (header : Memory) : Prop where
  plain : 0 ∉ name
  short : name.length ≤ 99
  made : writeTarHeader hlInfo name statbuf system = some header

variable (written : Written hlInfo name statbuf system header)

include written

namespace Written

theorem cases :
    ∃ typed, header = checksum typed ∧
      let base := (commonHeader name statbuf system).put 156 [typeflag hlInfo statbuf]
      ((∃ link, entryLink hlInfo statbuf system = some link ∧ entrySize hlInfo statbuf = 0 ∧
          ¬ isDirectory hlInfo statbuf ∧ typed = strncpy 157 link 100 base) ∨
        (entryLink hlInfo statbuf system = none ∧ entrySize hlInfo statbuf = 0 ∧ isDirectory hlInfo statbuf ∧
          typed = base.put name.length [47,0]) ∨
        (entryLink hlInfo statbuf system = none ∧ entrySize hlInfo statbuf = 0 ∧ ¬ isDirectory hlInfo statbuf ∧
          (typed = putField 337 8 statbuf.minor (putField 329 8 statbuf.major base) ∨ typed = base)) ∨
        (entryLink hlInfo statbuf system = none ∧ entrySize hlInfo statbuf = statbuf.size ∧
          ¬ isDirectory hlInfo statbuf ∧ typed = putField 124 12 statbuf.size base)) := by
  obtain ⟨plain,short,written⟩ := written
  obtain ⟨typed,made,rfl⟩ := map_eq_some_iff.mp written
  refine ⟨typed,rfl,?_⟩
  cases hlInfo with
  | some info =>
    cases made
    exact .inl ⟨info.name.bytes,rfl,rfl,by simp [isDirectory],rfl⟩
  | none =>
    cases kind : statbuf.type with
    | socket => simp [typeHeader,kind] at made
    | symlink =>
      cases linked : system.target with
      | none => simp [typeHeader,kind,linked] at made
      | some target =>
        simp only [typeHeader,kind,linked,some.injEq] at made
        exact .inl ⟨target.bytes,by simp [entryLink,kind,linked],by simp [entrySize,kind],
          by simp [isDirectory,kind],by simp [← made,typeflag,kind]⟩
    | regular =>
      simp only [typeHeader,kind,some.injEq] at made
      exact .inr (.inr (.inr ⟨by simp [entryLink,kind],by simp [entrySize,kind],by simp [isDirectory,kind],
        by simp [← made,typeflag,kind]⟩))
    | directory =>
      have field : ((commonHeader name statbuf system).put 156 [53]).get 0 100 =
          name ++ 0 :: replicate (99 - name.length) 0 := by
        rw [get_put_byte _ _ (by omega),commonHeader_name name statbuf system short,← replicate_succ,
          show 99 - name.length + 1 = 100 - name.length by omega]
      simp only [typeHeader,kind,some.injEq,strncat,cstring_of_get (by decide) field plain,zero_add] at made
      exact .inr (.inl ⟨by simp [entryLink,kind],by simp [entrySize,kind],⟨rfl,kind⟩,by simp [← made,typeflag,kind]⟩)
    | character | block =>
      simp only [typeHeader,kind,some.injEq] at made
      exact .inr (.inr (.inl ⟨by simp [entryLink,kind],by simp [entrySize,kind],by simp [isDirectory,kind],
        .inl (by simp [← made,typeflag,kind])⟩))
    | fifo =>
      simp only [typeHeader,kind,some.injEq] at made
      exact .inr (.inr (.inl ⟨by simp [entryLink,kind],by simp [entrySize,kind],by simp [isDirectory,kind],
        .inr (by simp [← made,typeflag,kind])⟩))

/-- What the type of an entry leaves as it was. -/
theorem base {p count : Nat} (checked : p + count ≤ 148 ∨ 156 ≤ p) (sized : p + count ≤ 124 ∨ 136 ≤ p)
    (device : p + count ≤ 329 ∨ 345 ≤ p) (link : entryLink hlInfo statbuf system = none ∨ p + count ≤ 157 ∨ 257 ≤ p)
    (slash : ¬ isDirectory hlInfo statbuf ∨ p + count ≤ name.length ∨ name.length + 2 ≤ p) :
    header.get p count = ((commonHeader name statbuf system).put 156 [typeflag hlInfo statbuf]).get p count := by
  obtain ⟨typed,made,shape⟩ := written.cases
  rw [made,get_checksum _ checked]
  rcases shape with ⟨_,linked,_,_,rfl⟩ | ⟨_,_,directory,rfl⟩ | ⟨_,_,_,rfl | rfl⟩ | ⟨_,_,_,rfl⟩
  · exact get_strncpy _ _ (link.resolve_left (by rw [linked]; nofun))
  · exact get_put_slash _ (slash.resolve_left (not_not_intro directory))
  · rw [get_putField _ _ (by omega),get_putField _ _ (by omega)]
  · rfl
  · exact get_putField _ _ sized

theorem directory (directory : isDirectory hlInfo statbuf) :
    header = checksum (((commonHeader name statbuf system).put 156 [typeflag hlInfo statbuf]).put name.length
      [47,0]) := by
  obtain ⟨typed,made,shape⟩ := written.cases
  rcases shape with ⟨_,_,_,other,_⟩ | ⟨_,_,_,rfl⟩ | ⟨_,_,other,_⟩ | ⟨_,_,other,_⟩
  · exact absurd directory other
  · exact made
  · exact absurd directory other
  · exact absurd directory other

theorem get {p count : Nat} (outside : 101 ≤ p ∧ p + count ≤ 124 ∨ 136 ≤ p ∧ p + count ≤ 148 ∨
    257 ≤ p ∧ p + count ≤ 329 ∨ 345 ≤ p) :
    header.get p count = (commonHeader name statbuf system).get p count := by
  have short := written.short
  rw [written.base (by omega) (by omega) (by omega) (by omega) (by omega),get_put_byte _ _ (by omega)]

theorem flag : header 156 = typeflag hlInfo statbuf := by
  have short := written.short
  have field : header.get 156 1 = [typeflag hlInfo statbuf] := by
    rw [written.base (by omega) (by omega) (by omega) (by omega) (by omega)]
    exact get_put_same _ 156 [typeflag hlInfo statbuf]
  simpa [Memory.get] using field

theorem front : (header.get 0 100).takeWhile (· ≠ 0) =
    if isDirectory hlInfo statbuf then name ++ [47] else name := by
  have every : ∀ c ∈ name, decide (c ≠ 0) = true := by
    intro c listed
    exact decide_eq_true fun zero => written.plain (zero ▸ listed)
  have short := written.short
  have field := commonHeader_name name statbuf system short
  have cut : (name ++ replicate (100 - name.length) 0).takeWhile (· ≠ 0) = name := by
    rw [show 100 - name.length = 99 - name.length + 1 by omega,replicate_succ,(Runs.until_first written.plain _).1]
  by_cases directory : isDirectory hlInfo statbuf
  · have front : (commonHeader name statbuf system).get 0 name.length = name := by
      rw [show 100 = name.length + (100 - name.length) by omega,get_add] at field
      exact append_inj_left field (by simp)
    have slash (base : Memory) : (base.put name.length [47,0]).get name.length 1 = [47] := by
      simp [Memory.get,Memory.put]
    have null (base : Memory) : base.put name.length [47,0] (name.length + 1) = 0 := by
      simp [Memory.put]
    have rest (base : Memory) :
        ((base.put name.length [47,0]).get (name.length + 1) (99 - name.length)).takeWhile (· ≠ 0) = [] := by
      cases 99 - name.length with
      | zero => rfl
      | succ count =>
        rw [add_comm count,get_add,show Memory.get _ (name.length + 1) 1 = [0] by simp [Memory.get,null]]
        rfl
    rw [if_pos directory,written.directory directory,get_checksum _ (by omega),
      show 100 = name.length + (1 + (99 - name.length)) by omega,get_add,get_add,zero_add,
      slash,get_put_slash _ (by omega),get_put_byte _ _ (by omega),front,takeWhile_append_of_pos every,
      singleton_append,takeWhile_cons_of_pos (by decide),rest]
  · rw [if_neg directory,written.base (by omega) (by omega) (by omega) (by omega) (.inl directory),
      get_put_byte _ _ (by omega),field,cut]

theorem holds_mode (other : ¬ (isDirectory hlInfo statbuf ∧ name.length = 99)) : Holds header 100 8 statbuf.mode := by
  have short := written.short
  have slash : ¬ isDirectory hlInfo statbuf ∨ 100 + 8 ≤ name.length ∨ name.length + 2 ≤ 100 := by
    rcases not_and_or.1 other with other | less
    · exact .inl other
    · exact .inr (.inr (by omega))
  rw [Holds,written.base (by omega) (by omega) (by omega) (by omega) slash,get_put_byte _ _ (by omega)]
  exact (commonHeader_holds ..).1

theorem holds_uid : Holds header 108 8 statbuf.uid := by
  rw [Holds,written.get (by omega)]
  exact (commonHeader_holds ..).2.1

theorem holds_gid : Holds header 116 8 statbuf.gid := by
  rw [Holds,written.get (by omega)]
  exact (commonHeader_holds ..).2.2.1

theorem holds_mtime : Holds header 136 12 statbuf.mtime := by
  rw [Holds,written.get (by omega)]
  exact (commonHeader_holds ..).2.2.2.2

end Written

omit written in
theorem Stat.mode_lt (statbuf : Stat) : statbuf.mode < 8 ^ 7 := by
  have := statbuf.perm.isLt
  unfold Stat.mode
  cases statbuf.type <;> simp only [FileType.bits] <;> omega

theorem Written.mode :
    octal header 100 = if isDirectory hlInfo statbuf ∧ name.length = 99 then 0 else (statbuf.mode : Int) := by
  by_cases spoiled : isDirectory hlInfo statbuf ∧ name.length = 99
  · have null : header.get 100 1 = [] ++ 0 :: [] := by
      rw [written.directory spoiled.1,get_checksum _ (by omega),spoiled.2]
      simp [Memory.get,Memory.put]
    rw [if_pos spoiled,octal,cstring_of_get (by decide) null (by simp)]
    rfl
  · have small := statbuf.mode_lt
    rw [if_neg spoiled,(written.holds_mode spoiled).read (by decide) (by decide) (by decide) (by omega),
      mod_eq_of_lt small]

theorem Written.holds_size : Holds header 124 12 (entrySize hlInfo statbuf) := by
  obtain ⟨typed,made,shape⟩ := written.cases
  have empty := (commonHeader_holds name statbuf system).2.2.2.1
  rw [Holds,made,get_checksum _ (by omega)]
  rcases shape with ⟨_,_,size,_,rfl⟩ | ⟨_,size,_,rfl⟩ | ⟨_,size,_,rfl | rfl⟩ | ⟨_,size,_,rfl⟩
  · rwa [size,get_strncpy _ _ (by omega),get_put_byte _ _ (by omega)]
  · have short := written.short
    rwa [size,get_put_slash _ (by omega),get_put_byte _ _ (by omega)]
  · rwa [size,get_putField _ _ (by omega),get_putField _ _ (by omega),get_put_byte _ _ (by omega)]
  · rwa [size,get_put_byte _ _ (by omega)]
  · exact ⟨_,by rw [size]⟩

theorem Written.link : header.get 157 100 =
    match entryLink hlInfo statbuf system with
    | some link => link.take 100 ++ replicate (100 - link.length) 0
    | none => replicate 100 0 := by
  have short := written.short
  have empty := commonHeader_zero name statbuf system (show 148 ≤ 157 ∧ 157 + 100 ≤ 257 ∨ 329 ≤ 157 by omega)
  cases linked : entryLink hlInfo statbuf system with
  | none =>
    rw [written.base (by omega) (by omega) (by omega) (.inl linked) (by omega),get_put_byte _ _ (by omega),empty]
  | some link =>
    obtain ⟨typed,made,shape⟩ := written.cases
    rw [made,get_checksum _ (by omega)]
    rcases shape with ⟨_,same,_,_,rfl⟩ | ⟨unlinked,_⟩ | ⟨unlinked,_⟩ | ⟨unlinked,_⟩
    · obtain rfl := mem_unique linked same
      have width : (link.take 100 ++ replicate (100 - link.length) 0).length = 100 := by
        simp
        omega
      have here := ((commonHeader name statbuf system).put 156 [typeflag hlInfo statbuf]).get_put_same 157
        (link.take 100 ++ replicate (100 - link.length) 0)
      rwa [width] at here
    · cases linked.symm.trans unlinked
    · cases linked.symm.trans unlinked
    · cases linked.symm.trans unlinked

end Written

theorem cstring_link (plain : 0 ∉ link) (field : header.get 157 100 = link.take 100 ++ replicate (100 - link.length) 0)
    (magic : header.get 257 8 = text "ustar  " ++ [0]) :
    cstring header 157 = if link.length < 100 then link else link.take 100 ++ text "ustar  " := by
  split
  · rw [take_of_length_le (by omega),show 100 - link.length = 99 - link.length + 1 by omega,replicate_succ] at field
    exact cstring_of_get (by decide) field plain
  · have whole : header.get 157 (100 + 8) = (link.take 100 ++ text "ustar  ") ++ 0 :: [] := by
      rw [get_add,field,magic,show 100 - link.length = 0 by omega]
      simp
    refine cstring_of_get (by decide) whole fun listed => ?_
    rcases mem_append.mp listed with inLink | inMagic
    · exact plain (mem_of_mem_take inLink)
    · revert inMagic
      decide

/-! ### Names -/

def memberName (fileName : Path) : List UInt8 := (headerName fileName).rdropWhile (· = 47)

def unslash (name : List UInt8) : List UInt8 := if lastCharIs name 47 then name.dropLast else name

theorem slash_suffix (front : List UInt8) (last : UInt8) : [47] <:+ front ++ [last] ↔ last = 47 := by
  simp [eq_comm]

theorem slashes_suffix (front : List UInt8) (last : UInt8) :
    [47,47] <:+ front ++ [last] ↔ last = 47 ∧ [47] <:+ front := by
  rw [suffix_concat_iff]
  constructor
  · rintro (absurdity | ⟨others,same,ends⟩)
    · simp at absurdity
    · obtain ⟨rfl,rest⟩ := append_inj' (show [47] ++ [47] = others ++ [last] from same) rfl
      exact ⟨(singleton_injective rest).symm,ends⟩
  · rintro ⟨rfl,ends⟩
    exact .inr ⟨[47],rfl,ends⟩

theorem rdropWhile_slash_iff (name : List UInt8) : name = name.rdropWhile (· = 47) ↔ ¬ [47] <:+ name := by
  rw [eq_comm,rdropWhile_eq_self_iff]
  rcases eq_nil_or_concat name with rfl | ⟨front,last,rfl⟩
  · simp
  · rw [concat_eq_append,slash_suffix]
    simp

theorem unslash_eq_iff (name : List UInt8) : unslash name = name.rdropWhile (· = 47) ↔ ¬ [47,47] <:+ name := by
  rcases eq_nil_or_concat name with rfl | ⟨front,last,rfl⟩
  · simp [unslash,lastCharIs]
  by_cases slash : last = 47
  · subst slash
    rw [concat_eq_append,rdropWhile_concat_pos _ _ _ (by decide)]
    have cut : unslash (front ++ [47]) = front := by simp [unslash,lastCharIs]
    rw [cut,slashes_suffix,rdropWhile_slash_iff]
    simp
  · have kept : unslash (front ++ [last]) = front ++ [last] := by simp [unslash,lastCharIs,slash]
    rw [concat_eq_append,kept,rdropWhile_slash_iff,slashes_suffix,slash_suffix]
    simp [slash]

/-! ### Reading -/

theorem getD_block (header : Memory) (rest : List UInt8) (inside : i < 512) :
    (header.get 0 512 ++ rest).getD i 0 = header i := by
  have bound : i < (header.get 0 512).length := by simpa using inside
  rw [getD_append _ _ _ _ bound,getD_eq_getElem _ _ bound]
  simp [Memory.get]

section Block

variable {a b : Memory} (same : ∀ i, i < 512 → a i = b i)

include same

theorem get_block {p count : Nat} (inside : p + count ≤ 512) : a.get p count = b.get p count :=
  get_congr fun i bound => same (p + i) (by omega)

theorem cstring_block (inside : offset ≤ 512) : cstring a offset = cstring b offset := by
  rw [cstring,cstring,get_block same (by omega)]

theorem fileHeader_block (handle : Handle) : fileHeader a handle = fileHeader b handle := by
  have name : entryName a handle = entryName b handle := by
    simp only [entryName,get_block same (show 0 + 100 ≤ 512 by decide),cstring_block same (show 345 ≤ 512 by decide),
      same 345 (by decide)]
  simp (disch := omega) only [fileHeader,name,octal,cstring_block same,same]

theorem validMagic_block : validMagic a = validMagic b := by
  simp (disch := omega) only [validMagic,get_block same,same]

theorem validChecksum_block : validChecksum a = validChecksum b := by
  simp (disch := omega) only [validChecksum,sum,octal,get_block same,cstring_block same]

end Block

theorem fileHeader_rest (header : Memory) (handle : Handle) (rest : List UInt8) :
    fileHeader header { handle with rest } = fileHeader header handle := rfl

theorem readHeader_entry (fuel : Nat) (handle : Handle) (aligned : handle.offset % 512 = 0)
    (enough : 512 ≤ handle.rest.length) (same : ∀ i, i < 512 → handle.rest.getD i 0 = header i) (first : header 0 ≠ 0)
    (magic : validMagic header) (valid : validChecksum header) (flag : header 156 ≠ 76 ∧ header 156 ≠ 75) :
    readHeader (fuel + 1) handle =
      (.entry (fileHeader header handle),{ handle with
          rest := handle.rest.drop 512, offset := handle.offset + 512, longname := none
          linkname := if handle.longname.isSome then handle.linkname else none, ended := false }) := by
  have start : ¬ handle.rest.getD 0 0 = 0 := by
    rw [same 0 (by decide)]
    exact first
  have kind : ¬ (handle.rest.getD 156 0 = 76 ∨ handle.rest.getD 156 0 = 75) := by
    rw [same 156 (by decide)]
    exact fun either => either.elim flag.1 flag.2
  have few : ¬ handle.rest.length < 512 := by omega
  have skip : (512 - handle.offset % 512) % 512 = 0 := by omega
  rw [readHeader]
  simp only [skip,drop_zero,add_zero,if_neg few,if_neg start,validMagic_block same,magic,Bool.not_true,
    Bool.false_eq_true,if_false,validChecksum_block same,valid,if_neg kind,fileHeader_block same]
  rfl

section Read

variable (nonempty : name ≠ []) (written : Written hlInfo name statbuf system header)

include written

theorem Written.ustar : header.get 257 8 = text "ustar  " ++ [0] := by
  rw [written.get (by omega),commonHeader_magic]

theorem Written.magic : validMagic header := by
  have field := written.ustar
  have front : header.get 257 5 = text "ustar" :=
    append_inj_left (show header.get 257 5 ++ header.get (257 + 5) 3 = text "ustar" ++ [32,32,0] from field)
      (by simp [text])
  simp [validMagic,front]

include nonempty

theorem Written.first : header 0 ≠ 0 := by
  have front := written.front
  intro zero
  rw [show (100 : Nat) = 1 + 99 from rfl,get_add,show header.get 0 1 = [0] by simp [Memory.get,zero]] at front
  split at front
  · simp at front
  · exact nonempty front.symm

theorem Written.reads (aligned : handle.offset % 512 = 0) :
    getHeaderTar { handle with rest := header.get 0 512 ++ handle.rest } =
      (.entry (fileHeader header handle),{ handle with
          offset := handle.offset + 512, longname := none
          linkname := if handle.longname.isSome then handle.linkname else none, ended := false }) := by
  have same : ∀ i, i < 512 → (header.get 0 512 ++ handle.rest).getD i 0 = header i := fun i inside =>
    getD_block header handle.rest inside
  have valid : validChecksum header := by
    obtain ⟨typed,made,_⟩ := written.cases
    rw [made]
    exact validChecksum_checksum typed
  have flag : header 156 ≠ 76 ∧ header 156 ≠ 75 := by
    rw [written.flag]
    unfold typeflag
    split <;> decide
  have enough : 512 ≤ (header.get 0 512 ++ handle.rest).length := by
    rw [length_append,get_length]
    omega
  have rest : (header.get 0 512 ++ handle.rest).drop 512 = handle.rest := drop_left' (get_length header 0 512)
  rw [getHeaderTar,readHeader_entry _ { handle with rest := header.get 0 512 ++ handle.rest } aligned enough same
    (written.first nonempty) written.magic valid flag,rest]
  rw [fileHeader_rest]

end Read

/-! ### The round trip -/

structure SameEntry (entry : FileHeader) (hlInfo : Option HardLinkInfo) (fileName : Path) (statbuf : Stat)
    (system : System) : Prop where
  perm : entry.perm = statbuf.perm
  uid : entry.uid = statbuf.uid
  gid : entry.gid = statbuf.gid
  size : entry.size = entrySize hlInfo statbuf
  mtime : entry.mtime = statbuf.mtime
  type : entry.type = some (entryKind hlInfo statbuf)
  name : entry.name = memberName fileName
  linkName : entry.linkName = entryLink hlInfo statbuf system

/-- Wherever the header is found, `get_header_tar` accepts it and gives the attributes of the file. -/
def ReadsBack (header : Memory) (hlInfo : Option HardLinkInfo) (fileName : Path) (statbuf : Stat)
    (system : System) : Prop :=
  ∀ handle : Handle, handle.offset % 512 = 0 → handle.longname = none → handle.linkname = none →
    ∃ entry, getHeaderTar { handle with rest := header.get 0 512 ++ handle.rest } =
        (.entry entry,{ handle with offset := handle.offset + 512, ended := false }) ∧
      SameEntry entry hlInfo fileName statbuf system

/-- The numbers have at most as many octal digits as their fields have bytes. -/
structure Fits (statbuf : Stat) : Prop where
  uid : statbuf.uid < 8 ^ 8
  gid : statbuf.gid < 8 ^ 8
  size : statbuf.size < 8 ^ 12
  mtime : statbuf.mtime < 8 ^ 12

/-- The files whose attributes survive. -/
structure Kept (hlInfo : Option HardLinkInfo) (fileName : Path) (statbuf : Stat) (system : System) : Prop where
  uid : statbuf.uid < 8 ^ 7
  gid : statbuf.gid < 8 ^ 7
  size : entrySize hlInfo statbuf < 8 ^ 11
  mtime : statbuf.mtime < 8 ^ 11
  mode : isDirectory hlInfo statbuf → (headerName fileName).length = 99 → (statbuf.perm : Nat) = 0
  slash : ¬ [47,47] <:+ headerName fileName
  noSlash : hlInfo = none → statbuf.type = .directory ∨ statbuf.type = .regular → ¬ [47] <:+ headerName fileName
  link : ∀ link, entryLink hlInfo statbuf system = some link → link.length < 100 ∨ link.drop 100 = text "ustar  "

theorem mod_eq_iff_lt (positive : 0 < bound) : n % bound = n ↔ n < bound :=
  ⟨fun same => same ▸ mod_lt n positive,mod_eq_of_lt⟩

theorem entryType_typeflag (hlInfo : Option HardLinkInfo) {statbuf : Stat} (name : List UInt8)
    (accepted : statbuf.type ≠ .socket) :
    entryType (typeflag hlInfo statbuf) name =
      if hlInfo = none ∧ statbuf.type = .regular ∧ lastCharIs name 47 then some .directory
      else some (entryKind hlInfo statbuf) := by
  cases hlInfo with
  | some info => simp [entryType,typeflag,entryKind]
  | none =>
    cases kind : statbuf.type with
    | socket => exact absurd kind accepted
    | _ => simp [entryType,typeflag,entryKind,kind]

theorem lastCharIs_slash (name : List UInt8) : lastCharIs name 47 = true ↔ [47] <:+ name := by
  rcases eq_nil_or_concat name with rfl | ⟨front,last,rfl⟩
  · simp [lastCharIs]
  · rw [concat_eq_append,slash_suffix]
    simp [lastCharIs]

theorem slashes_end {name : List UInt8} (ends : [47,47] <:+ name) : [47] <:+ name :=
  List.IsSuffix.trans ⟨[47],rfl⟩ ends

theorem link_iff (link : List UInt8) :
    (if link.length < 100 then link else link.take 100 ++ text "ustar  ") = link ↔
      link.length < 100 ∨ link.drop 100 = text "ustar  " := by
  split
  · rename_i short
    simp [short]
  rename_i long
  simp only [long,false_or]
  constructor
  · intro same
    have parts : link.take 100 ++ text "ustar  " = link.take 100 ++ link.drop 100 := by
      rw [same,take_append_drop]
    exact (append_cancel_left parts).symm
  · intro same
    rw [← same,take_append_drop]

theorem entryLink_path (linked : entryLink hlInfo statbuf system = some link) : 0 ∉ link ∧ link ≠ [] := by
  cases hlInfo with
  | some info =>
    cases linked
    exact ⟨info.name.plain,info.name.nonempty⟩
  | none =>
    simp only [entryLink,ite_none_right_eq_some,map_eq_some_iff] at linked
    obtain ⟨_,target,_,rfl⟩ := linked
    exact ⟨target.plain,target.nonempty⟩

section Fields

variable {handle : Handle} (written : Written hlInfo (headerName fileName) statbuf system header)

include written

theorem perm_iff : (fileHeader header handle).perm = statbuf.perm ↔
    (isDirectory hlInfo statbuf → (headerName fileName).length = 99 → (statbuf.perm : Nat) = 0) := by
  simp only [fileHeader,written.mode]
  split
  · rename_i both
    simp only [both.1,both.2,forall_const]
    constructor <;> intro same <;> simpa using same.symm
  · rename_i other
    have read : ((statbuf.mode : Int) % 4096).toNat = statbuf.perm := by
      unfold Stat.mode
      omega
    simp only [read,true_iff]
    exact fun directory full => absurd ⟨directory,full⟩ other

theorem uid_iff (fits : Fits statbuf) : (fileHeader header handle).uid = statbuf.uid ↔ statbuf.uid < 8 ^ 7 := by
  rw [← mod_eq_iff_lt (by decide),fileHeader,written.holds_uid.read (by decide) (by decide) (by decide) fits.uid]
  simp only
  omega

theorem gid_iff (fits : Fits statbuf) : (fileHeader header handle).gid = statbuf.gid ↔ statbuf.gid < 8 ^ 7 := by
  rw [← mod_eq_iff_lt (by decide),fileHeader,written.holds_gid.read (by decide) (by decide) (by decide) fits.gid]
  simp only
  omega

theorem size_iff (fits : Fits statbuf) :
    (fileHeader header handle).size = entrySize hlInfo statbuf ↔ entrySize hlInfo statbuf < 8 ^ 11 := by
  have less : entrySize hlInfo statbuf ≤ statbuf.size := by
    unfold entrySize
    split <;> omega
  have bound := lt_of_le_of_lt less fits.size
  rw [← mod_eq_iff_lt (by decide),fileHeader,written.holds_size.read (by decide) (by decide) (by decide) bound]
  simp only
  omega

theorem mtime_iff (fits : Fits statbuf) :
    (fileHeader header handle).mtime = statbuf.mtime ↔ statbuf.mtime < 8 ^ 11 := by
  rw [← mod_eq_iff_lt (by decide),fileHeader,written.holds_mtime.read (by decide) (by decide) (by decide) fits.mtime]
  simp only
  omega

theorem linkName_iff : (fileHeader header handle).linkName = entryLink hlInfo statbuf system ↔
    ∀ link, entryLink hlInfo statbuf system = some link → link.length < 100 ∨ link.drop 100 = text "ustar  " := by
  have field := written.link
  have front : header.get 157 100 = header 157 :: header.get 158 99 := by
    rw [show (100 : Nat) = 1 + 99 from rfl,get_add]
    simp [Memory.get]
  cases linked : entryLink hlInfo statbuf system with
  | none =>
    rw [linked,front] at field
    have empty : header 157 = 0 := by simpa [replicate_succ] using congrArg List.head? field
    simp [fileHeader,empty]
  | some link =>
    obtain ⟨linkPlain,linkNonempty⟩ := entryLink_path linked
    rw [linked] at field
    have first : header 157 ≠ 0 := by
      obtain ⟨c,rest,rfl⟩ := exists_cons_of_ne_nil linkNonempty
      rw [front] at field
      have same : header 157 = c := by simpa using congrArg List.head? field
      rw [same]
      exact fun zero => linkPlain (by simp [zero])
    have read : (fileHeader header handle).linkName = some (cstring header 157) := by simp [fileHeader,first]
    rw [read,cstring_link linkPlain field written.ustar,some.injEq,link_iff]
    constructor
    · rintro kept other same
      rwa [← Option.some.inj same]
    · exact fun kept => kept link rfl

variable (noLongname : handle.longname = none) (noLinkname : handle.linkname = none)

include noLongname noLinkname

theorem entryName_written : entryName header handle =
    if isDirectory hlInfo statbuf then headerName fileName ++ [47] else headerName fileName := by
  have noPrefix : header 345 = 0 := by
    have field : header.get 345 1 = replicate 1 0 := by
      rw [written.get (by omega),commonHeader_zero _ _ _ (by omega)]
    simpa [Memory.get] using field
  simp only [entryName,noLongname,noLinkname,noPrefix,ne_eq,not_true_eq_false,if_false]
  exact written.front

/-- Name and type together: the slash of a directory is the one that the reader takes away. -/
theorem name_type_iff (accepted : statbuf.type ≠ .socket) :
    (fileHeader header handle).name = memberName fileName ∧
        (fileHeader header handle).type = some (entryKind hlInfo statbuf) ↔
      ¬ [47,47] <:+ headerName fileName ∧
        (hlInfo = none → statbuf.type = .directory ∨ statbuf.type = .regular → ¬ [47] <:+ headerName fileName) := by
  have name := entryName_written written noLongname noLinkname
  have nameField : (fileHeader header handle).name = unslash (entryName header handle) := rfl
  have typeField : (fileHeader header handle).type = entryType (typeflag hlInfo statbuf) (entryName header handle) := by
    rw [← written.flag]
    rfl
  rw [nameField,typeField,name,entryType_typeflag _ _ accepted,memberName]
  split
  · rename_i directory
    have stripped : unslash (headerName fileName ++ [47]) = headerName fileName := by simp [unslash,lastCharIs]
    have notRegular : ¬ (hlInfo = none ∧ statbuf.type = .regular ∧
        lastCharIs (headerName fileName ++ [47]) 47 = true) := by
      simp [directory.2]
    rw [stripped,if_neg notRegular,rdropWhile_slash_iff]
    constructor
    · exact fun kept => ⟨fun ends => kept.1 (slashes_end ends),fun _ _ => kept.1⟩
    · exact fun kept => ⟨kept.2 directory.1 (.inl directory.2),rfl⟩
  · rename_i other
    rw [unslash_eq_iff]
    refine and_congr_right fun _ => ?_
    constructor
    · intro kept noLink kind ends
      rcases kind with directory | regular
      · exact other ⟨noLink,directory⟩
      · rw [if_pos ⟨noLink,regular,(lastCharIs_slash _).mpr ends⟩] at kept
        simp [entryKind,noLink,regular] at kept
    · intro kept
      rw [if_neg]
      exact fun ends => kept ends.1 (.inr ends.2.1) ((lastCharIs_slash _).mp ends.2.2)

end Fields

theorem path_plain (fileName : Path) : 0 ∉ headerName fileName := fun listed =>
  fileName.plain ((dropWhile_sublist _).subset listed)

theorem readsBack_iff (fits : Fits statbuf) (accepted : statbuf.type ≠ .socket) (nonempty : headerName fileName ≠ [])
    (written : Written hlInfo (headerName fileName) statbuf system header) :
    ReadsBack header hlInfo fileName statbuf system ↔ Kept hlInfo fileName statbuf system := by
  constructor
  · intro back
    obtain ⟨entry,read,same⟩ := back ⟨[],0,none,none,false⟩ rfl rfl rfl
    rw [written.reads nonempty rfl,Prod.mk.injEq,Outcome.entry.injEq] at read
    obtain ⟨rfl,_⟩ := read
    obtain ⟨slash,noSlash⟩ := (name_type_iff written rfl rfl accepted).mp ⟨same.name,same.type⟩
    exact
      { uid := (uid_iff written fits).mp same.uid
        gid := (gid_iff written fits).mp same.gid
        size := (size_iff written fits).mp same.size
        mtime := (mtime_iff written fits).mp same.mtime
        mode := (perm_iff written).mp same.perm
        slash
        noSlash
        link := (linkName_iff written).mp same.linkName }
  · intro kept handle aligned noLongname noLinkname
    refine ⟨fileHeader header handle,?_,?_⟩
    · rw [written.reads nonempty aligned]
      simp [noLongname,noLinkname]
    obtain ⟨name,type⟩ := (name_type_iff written noLongname noLinkname accepted).mpr ⟨kept.slash,kept.noSlash⟩
    exact
      { perm := (perm_iff written).mpr kept.mode
        uid := (uid_iff written fits).mpr kept.uid
        gid := (gid_iff written fits).mpr kept.gid
        size := (size_iff written fits).mpr kept.size
        mtime := (mtime_iff written fits).mpr kept.mtime
        type
        name
        linkName := (linkName_iff written).mpr kept.link }

theorem writeFileToTarball_header (archived : (writeFileToTarball tbInfo fileName statbuf system).1 = .header header) :
    statbuf.type ≠ .socket ∧ headerName fileName ≠ [] ∧
      Written (hardLink tbInfo statbuf) (headerName fileName) statbuf system header := by
  have shorter := (dropWhile_sublist (fun c : UInt8 => decide (c = 47)) (l := fileName.bytes)).length_le
  simp only [writeFileToTarball] at archived
  generalize (if statbuf.nlink > 1 ∧ (hardLink tbInfo statbuf).isNone then
    { tbInfo with hlInfoHead := ⟨statbuf.dev,statbuf.ino,fileName⟩ :: tbInfo.hlInfoHead } else tbInfo) = recorded
    at archived
  split at archived
  · cases archived
  rename_i accepted
  split at archived
  · cases archived
  split at archived
  · cases archived
  split at archived
  · cases archived
  rename_i nonempty
  split at archived
  · cases archived
  split at archived
  · cases archived
  split at archived
  · cases archived
  rename_i made
  cases archived
  exact ⟨accepted,nonempty,path_plain fileName,by simp only [headerName]; omega,made⟩

/-- The header of a file gives its attributes back exactly when its numbers leave a byte of their
fields for the null, its name leaves one for the slash of a directory, and its link name leaves one
for the null. -/
theorem writeFileToTarball_readsBack_iff (tbInfo : TarBallInfo) (fileName : Path) (statbuf : Stat) (system : System)
    (header : Memory) (fits : Fits statbuf)
    (archived : (writeFileToTarball tbInfo fileName statbuf system).1 = .header header) :
    ReadsBack header (hardLink tbInfo statbuf) fileName statbuf system ↔
      Kept (hardLink tbInfo statbuf) fileName statbuf system := by
  obtain ⟨accepted,nonempty,written⟩ := writeFileToTarball_header archived
  exact readsBack_iff fits accepted nonempty written

/-- A symbolic link `/a` to `b`. -/
theorem symlink_readsBack :
    ∃ header, (writeFileToTarball ⟨1,2,[]⟩ ⟨[47,97],by decide,by decide⟩ ⟨.symlink,511,8,9,1,10,0,0,1,1,3⟩
        ⟨true,false,some ⟨[98],by decide,by decide⟩,none,none⟩).1 = .header header ∧
      ReadsBack header none ⟨[47,97],by decide,by decide⟩ ⟨.symlink,511,8,9,1,10,0,0,1,1,3⟩
        ⟨true,false,some ⟨[98],by decide,by decide⟩,none,none⟩ := by
  have fits : Fits ⟨.symlink,511,8,9,1,10,0,0,1,1,3⟩ := by constructor <;> decide
  refine ⟨_,rfl,(writeFileToTarball_readsBack_iff ⟨1,2,[]⟩ _ _ _ _ fits rfl).mpr ?_⟩
  exact
    { uid := by decide
      gid := by decide
      size := by decide
      mtime := by decide
      mode := by simp [isDirectory]
      slash := by decide
      noSlash := by simp
      link := by simp [entryLink,hardLink] }

/-- A directory whose name has 99 bytes is read back with no permission at all. -/
theorem long_directory_mode :
    ∃ header, (writeFileToTarball ⟨1,2,[]⟩ ⟨replicate 99 97,by decide,by decide⟩
        ⟨.directory,493,8,9,4096,10,0,0,2,1,3⟩ ⟨true,false,none,none,none⟩).1 = .header header ∧
      Fits ⟨.directory,493,8,9,4096,10,0,0,2,1,3⟩ ∧
      ¬ ReadsBack header none ⟨replicate 99 97,by decide,by decide⟩
        ⟨.directory,493,8,9,4096,10,0,0,2,1,3⟩ ⟨true,false,none,none,none⟩ := by
  have fits : Fits ⟨.directory,493,8,9,4096,10,0,0,2,1,3⟩ := by constructor <;> decide
  refine ⟨_,rfl,fits,fun back => ?_⟩
  have kept := (readsBack_iff fits (by decide) (by decide) ⟨by decide,by decide,rfl⟩).mp back
  exact absurd (kept.mode ⟨rfl,rfl⟩ (by decide)) (by decide)

end Stablebox.Tar
