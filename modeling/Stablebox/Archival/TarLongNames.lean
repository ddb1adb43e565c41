import Stablebox.Archival.TarRoundTrip

/-! Long names in a tar archive: the headers `L` and `K` of `get_header_tar` leave their data in two static variables
for the header that follows. Every header takes one of the two as its name, so only the last extension in front of an
entry counts, and the data of a `K` becomes a name and not a link name. -/
namespace Stablebox.Tar

open Libbb List Memory

/-- A header that passes the tests of the reader, with its data filled up to a whole number of blocks. -/
structure Record where
  header : Memory
  data : List UInt8
  padding : List UInt8
  first : header 0 ≠ 0
  magic : validMagic header
  checksum : validChecksum header
  size : octal header 124 = data.length
  padded : padding.length = (512 - data.length % 512) % 512

namespace Record

def bytes (record : Record) : List UInt8 := record.header.get 0 512 ++ record.data ++ record.padding

def flag (record : Record) : UInt8 := record.header 156

def text (record : Record) : List UInt8 := record.data.takeWhile (· ≠ 0)

def IsExtension (record : Record) : Prop := record.flag = 76 ∨ record.flag = 75

def IsEntry (record : Record) : Prop := record.flag ∈ [48,0,55,49,50,53]

def ownName (record : Record) : List UInt8 :=
  let name := (record.header.get 0 100).takeWhile (· ≠ 0)
  if record.header 345 ≠ 0 then concatPathFile ((record.header.get 345 155).takeWhile (· ≠ 0)) name else name

def ownLink (record : Record) : Option (List UInt8) :=
  if record.header 157 ≠ 0 then some ((record.header.get 157 100).takeWhile (· ≠ 0)) else none

end Record

def lastText (flag : UInt8) (extensions : List Record) : Option (List UInt8) :=
  (extensions.filter (·.flag = flag)).getLast?.map Record.text

def givenName (extensions : List Record) (member : Record) : List UInt8 :=
  (lastText 76 extensions).getD member.ownName

def givenLink (extensions : List Record) (member : Record) : Option (List UInt8) :=
  (lastText 75 extensions).or member.ownLink

/-- The data of an entry are passed over or extracted. -/
def Handle.skipData (handle : Handle) (size : Nat) : Handle :=
  { handle with rest := handle.rest.drop size, offset := handle.offset + size }

def Handle.fresh (handle : Handle) : Handle := { handle with longname := none, linkname := none }

/-- The entry is presented with the names of its extensions, and the next one as if there had been none. A trailing
slash is stripped from every name. -/
def Presented (handle : Handle) (extensions : List Record) (member next : Record) : Prop :=
  ∃ entry after, getHeaderTar handle = (.entry entry,after) ∧
    entry.name = unslash (givenName extensions member) ∧ entry.linkName = givenLink extensions member ∧
    ∃ last, getHeaderTar (after.skipData entry.size.toNat) = (.entry (fileHeader next.header handle.fresh),last)

/-! ### One header -/

def Handle.align (handle : Handle) : Handle :=
  let skip := (512 - handle.offset % 512) % 512
  { handle with rest := handle.rest.drop skip, offset := handle.offset + skip }

theorem readHeader_align (fuel : Nat) (handle : Handle) :
    readHeader fuel.succ handle = readHeader fuel.succ handle.align := by
  have none : (512 - handle.align.offset % 512) % 512 = 0 := by
    simp only [Handle.align]
    omega
  rw [readHeader,readHeader]
  simp only [none,drop_zero,Nat.add_zero]
  rfl

def Handle.taken (handle : Handle) : Handle :=
  { handle with longname := none, linkname := if handle.longname.isSome then handle.linkname else none }

def Record.leave (record : Record) (handle : Handle) : Handle :=
  if record.flag = 76 then { handle.taken with longname := some record.text }
  else { handle.taken with linkname := some record.text }

variable {tail : List UInt8}

theorem record_front {handle : Handle} {record : Record} (archive : handle.rest = record.bytes ++ tail) :
    (∀ i, i < 512 → handle.rest.getD i 0 = record.header i) ∧ 512 ≤ handle.rest.length ∧
      handle.rest.drop 512 = record.data ++ (record.padding ++ tail) := by
  rw [archive,Record.bytes,append_assoc,append_assoc]
  refine ⟨fun i inside => getD_block record.header _ inside,?_,drop_left' (get_length record.header 0 512)⟩
  rw [length_append,get_length]
  omega

theorem readHeader_extension (fuel : Nat) (handle : Handle) {record : Record}
    (extension : record.IsExtension) (aligned : handle.offset % 512 = 0)
    (archive : handle.rest = record.bytes ++ tail) :
    readHeader (fuel + 1) handle = readHeader fuel
      { record.leave handle with
        rest := record.padding ++ tail, offset := handle.offset + 512 + record.data.length, ended := false } := by
  obtain ⟨same,enough,behind⟩ := record_front archive
  have start : ¬ handle.rest.getD 0 0 = 0 := by
    rw [same 0 (by decide)]
    exact record.first
  have flag : handle.rest.getD 156 0 = record.flag := same 156 (by decide)
  have skip : (512 - handle.offset % 512) % 512 = 0 := by omega
  have size (other : Handle) : (fileHeader record.header other).size = record.data.length := record.size
  have whole : ¬ ((record.data.length : Int) < 0 ∨
      (record.data ++ (record.padding ++ tail)).length < record.data.length) := by
    rw [length_append]
    omega
  rw [readHeader]
  simp only [skip,drop_zero,Nat.add_zero,if_neg (not_lt.mpr enough),if_neg start,validMagic_block same,record.magic,
    Bool.not_true,
    Bool.false_eq_true,if_false,validChecksum_block same,record.checksum,fileHeader_block same,flag,size,behind,
    Int.toNat_natCast,take_left,drop_left,if_neg whole]
  rw [if_pos (show record.flag = 76 ∨ record.flag = 75 from extension)]
  unfold Record.leave
  split
  · rfl
  · rfl

/-! ### A run of extensions -/

def Handle.Exclusive (handle : Handle) : Prop := handle.longname = none ∨ handle.linkname = none

def pendingName (extensions : List Record) (handle : Handle) : Option (List UInt8) :=
  match extensions.getLast? with
  | none => handle.longname
  | some last => if last.flag = 76 then some last.text else none

def pendingLink (extensions : List Record) (handle : Handle) : Option (List UInt8) :=
  match extensions.getLast? with
  | none => handle.linkname
  | some last => if last.flag = 76 then none else some last.text

def Handle.pend (handle : Handle) (extensions : List Record) : Handle :=
  { handle with longname := pendingName extensions handle, linkname := pendingLink extensions handle }

variable {handle : Handle}

theorem Record.leave_eq (record : Record) (exclusive : handle.Exclusive) :
    (record.leave handle).longname = pendingName [record] handle ∧
      (record.leave handle).linkname = pendingLink [record] handle := by
  have gone : (if handle.longname.isSome then handle.linkname else none) = none := by
    rcases exclusive with absent | absent <;> simp [absent]
  simp only [Record.leave,pendingName,pendingLink,getLast?_singleton]
  split
  · exact ⟨rfl,gone⟩
  · exact ⟨rfl,rfl⟩

theorem Record.leave_exclusive (record : Record) (exclusive : handle.Exclusive) : (record.leave handle).Exclusive := by
  obtain ⟨name,link⟩ := record.leave_eq exclusive
  rw [Handle.Exclusive,name,link]
  simp only [pendingName,pendingLink,getLast?_singleton]
  split
  · exact .inr rfl
  · exact .inl rfl

variable (extensions : List Record)

/-- Only the last of the extensions is pending at the header behind them. -/
theorem readHeader_extensions (fuel : Nat) (handle : Handle)
    (all : ∀ record ∈ extensions, record.IsExtension) (aligned : handle.offset % 512 = 0)
    (exclusive : handle.Exclusive) (archive : handle.rest = extensions.flatMap Record.bytes ++ tail) :
    ∃ before : Handle, readHeader (fuel + extensions.length + 1) handle = readHeader (fuel + 1) before ∧
      before.rest = tail ∧ before.offset % 512 = 0 ∧ before.longname = pendingName extensions handle ∧
      before.linkname = pendingLink extensions handle := by
  induction extensions generalizing handle with
  | nil => exact ⟨handle,rfl,archive,aligned,rfl,rfl⟩
  | cons record extensions ih =>
    have front : handle.rest = record.bytes ++ (extensions.flatMap Record.bytes ++ tail) := by
      rw [archive,flatMap_cons,append_assoc]
    have padded := record.padded
    let next : Handle :=
      { record.leave handle with
        rest := extensions.flatMap Record.bytes ++ tail
        offset := handle.offset + 512 + record.data.length + record.padding.length
        ended := false }
    have step : readHeader (fuel + (record :: extensions).length + 1) handle =
        readHeader (fuel + extensions.length + 1) next := by
      have skip : (512 - (handle.offset + 512 + record.data.length) % 512) % 512 = record.padding.length := by omega
      rw [length_cons,← Nat.add_assoc,
        readHeader_extension _ handle (all record (.head _)) aligned front,readHeader_align]
      simp only [Handle.align,skip,drop_left]
      rfl
    obtain ⟨before,same,rest,whole,name,link⟩ :=
      ih next (fun other listed => all other (mem_cons_of_mem record listed)) (by simp only [next]; omega)
        (record.leave_exclusive exclusive) rfl
    obtain ⟨leftName,leftLink⟩ := record.leave_eq exclusive
    refine ⟨before,step.trans same,rest,whole,name.trans ?_,link.trans ?_⟩
    · cases last : extensions.getLast? with
      | none => simpa [pendingName,getLast?_cons,last] using leftName
      | some other => simp [pendingName,getLast?_cons,last]
    · cases last : extensions.getLast? with
      | none => simpa [pendingLink,getLast?_cons,last] using leftLink
      | some other => simp [pendingLink,getLast?_cons,last]

theorem Record.length_bytes (record : Record) : 512 ≤ record.bytes.length := by
  simp only [Record.bytes,length_append,get_length]
  omega

theorem length_extensions : extensions.length ≤ (extensions.flatMap Record.bytes).length := by
  induction extensions with
  | nil => exact le_rfl
  | cons record extensions ih =>
    have := record.length_bytes
    rw [flatMap_cons,length_append,length_cons]
    omega

variable {member : Record}

theorem readHeader_member (fuel : Nat) {handle : Handle} (entry : member.IsEntry)
    (aligned : handle.offset % 512 = 0) (archive : handle.rest = member.bytes ++ tail) :
    readHeader (fuel + 1) handle = (.entry (fileHeader member.header handle),{ handle.taken with
        rest := member.data ++ (member.padding ++ tail), offset := handle.offset + 512, ended := false }) := by
  obtain ⟨same,enough,behind⟩ := record_front archive
  have flag : member.flag ≠ 76 ∧ member.flag ≠ 75 := by
    unfold Record.IsEntry at entry
    constructor
    · intro long
      rw [long] at entry
      revert entry
      decide
    · intro long
      rw [long] at entry
      revert entry
      decide
  rw [readHeader_entry fuel handle aligned enough same member.first member.magic member.checksum flag,behind]
  rfl

theorem fileHeader_names (header : Memory) (name : a.longname = b.longname) (link : a.linkname = b.linkname) :
    fileHeader header a = fileHeader header b := by
  have same : entryName header a = entryName header b := by
    unfold entryName
    rw [name,link]
  simp only [fileHeader,same]

theorem taken_none (exclusive : handle.Exclusive) : handle.taken.longname = none ∧ handle.taken.linkname = none := by
  refine ⟨rfl,?_⟩
  rcases exclusive with absent | absent <;> simp [Handle.taken,absent]

/-- An entry behind its extensions: its fields, with what the last extension left as its name. Nothing is pending
afterwards. -/
theorem getHeaderTar_entry (handle : Handle)
    (all : ∀ record ∈ extensions, record.IsExtension) (entry : member.IsEntry) (aligned : handle.offset % 512 = 0)
    (fresh : handle.longname = none ∧ handle.linkname = none)
    (archive : handle.rest = extensions.flatMap Record.bytes ++ (member.bytes ++ tail)) :
    ∃ after : Handle, getHeaderTar handle = (.entry (fileHeader member.header (handle.pend extensions)),after) ∧
      after.longname = none ∧ after.linkname = none ∧ after.rest = member.data ++ (member.padding ++ tail) ∧
      after.offset % 512 = 0 := by
  have few := length_extensions extensions
  have long := congrArg List.length archive
  rw [length_append,length_append] at long
  have fuel : handle.rest.length + 1 = handle.rest.length - extensions.length + extensions.length + 1 := by omega
  obtain ⟨before,same,rest,whole,name,link⟩ :=
    readHeader_extensions extensions (handle.rest.length - extensions.length) handle all aligned (.inl fresh.1) archive
  have exclusive : before.Exclusive := by
    rw [Handle.Exclusive,name,link,pendingName,pendingLink]
    cases extensions.getLast? with
    | none => exact .inl fresh.1
    | some last =>
      by_cases long : last.flag = 76
      · simp [long]
      · simp [long]
  obtain ⟨noName,noLink⟩ := taken_none exclusive
  refine ⟨{ before.taken with
    rest := member.data ++ (member.padding ++ tail), offset := before.offset + 512, ended := false },?_,noName,noLink,
    rfl,?_⟩
  · rw [getHeaderTar,fuel,same,readHeader_member _ entry whole rest]
    exact congrArg (fun header => (Outcome.entry header,_)) (fileHeader_names member.header name link)
  · simp only
    omega

/-! ### The names -/

variable {header : Memory} {count : Nat}

theorem takeWhile_field (inside : offset + count ≤ 512) (ends : 0 ∈ header.get offset count) :
    cstring header offset = (header.get offset count).takeWhile (· ≠ 0) := by
  have whole : 512 - offset = count + (512 - offset - count) := by omega
  have short : ((header.get offset count).takeWhile (· ≠ 0)).length ≠ (header.get offset count).length := by
    intro same
    have all := (takeWhile_eq_self_iff.mp ((takeWhile_sublist _).eq_of_length same)) 0 ends
    simp at all
  rw [cstring,whole,get_add,takeWhile_append,if_neg short]

theorem cstring_full (inside : offset + count < 512) (full : 0 ∉ header.get offset count) :
    cstring header offset = header.get offset count ++ cstring header (offset + count) := by
  have whole : 512 - offset = count + (512 - (offset + count)) := by omega
  have every : ∀ c ∈ header.get offset count, decide (c ≠ 0) = true := fun c listed =>
    decide_eq_true fun zero => full (zero ▸ listed)
  rw [cstring,whole,get_add,takeWhile_append_of_pos every,cstring]

theorem cstring_eq_nil_iff (inside : offset < 512) : cstring header offset = [] ↔ header offset = 0 := by
  have whole : 512 - offset = 1 + (511 - offset) := by omega
  rw [cstring,whole,get_add]
  by_cases zero : header offset = 0
  · simp [Memory.get,zero]
  · simp [Memory.get,zero]

theorem cstring_eq_field_iff (inside : offset + count < 512) :
    cstring header offset = (header.get offset count).takeWhile (· ≠ 0) ↔
      0 ∈ header.get offset count ∨ header (offset + count) = 0 := by
  by_cases ends : 0 ∈ header.get offset count
  · simp only [ends,true_or,iff_true]
    exact takeWhile_field (by omega) ends
  · have every : (header.get offset count).takeWhile (· ≠ 0) = header.get offset count :=
      takeWhile_eq_self_iff.mpr fun c listed => decide_eq_true fun zero => ends (zero ▸ listed)
    rw [cstring_full inside ends,every,append_right_eq_self,cstring_eq_nil_iff inside]
    simp [ends]

/-- The prefix in front of the name, if there is one, ends in its field or is followed by a null. -/
def Record.PrefixEnds (record : Record) : Prop :=
  record.header 345 ≠ 0 → 0 ∈ record.header.get 345 155 ∨ record.header 500 = 0

theorem entryName_own (ends : member.PrefixEnds) (fresh : handle.longname = none ∧ handle.linkname = none) :
    entryName member.header handle = member.ownName := by
  simp only [entryName,fresh.1,fresh.2,Record.ownName]
  split
  · rename_i prefixed
    rw [(cstring_eq_field_iff (show 345 + 155 < 512 by decide)).mpr (ends prefixed)]
  · rfl

theorem linkName_own_iff (member : Record) (handle : Handle) :
    (fileHeader member.header handle).linkName = member.ownLink ↔
      (member.header 157 ≠ 0 → 0 ∈ member.header.get 157 100 ∨ member.header 257 = 0) := by
  have field : cstring member.header 157 = (member.header.get 157 100).takeWhile (· ≠ 0) ↔
      0 ∈ member.header.get 157 100 ∨ member.header 257 = 0 := cstring_eq_field_iff (by decide)
  simp only [fileHeader,Record.ownLink]
  split
  · rename_i linked
    rw [Option.some.injEq,field]
    exact ⟨fun ends _ => ends,fun ends => ends linked⟩
  · rename_i linked
    exact ⟨fun _ linked' => absurd linked' linked,fun _ => rfl⟩

/-- What the names of an entry depend on: without a `K` its link name ends in its field; a `K` repeats the link name of
the header, and repeats the name as well if it comes last. -/
def Harmless (extensions : List Record) (member : Record) : Prop :=
  (match lastText 75 extensions with
    | none => member.header 157 ≠ 0 → 0 ∈ member.header.get 157 100 ∨ member.header 257 = 0
    | some text => member.header 157 ≠ 0 ∧ cstring member.header 157 = text) ∧
  ∀ last, extensions.getLast? = some last → last.flag = 75 → unslash last.text = unslash (givenName extensions member)

theorem lastText_of_last {extensions : List Record} {last : Record} (here : extensions.getLast? = some last) :
    lastText last.flag extensions = some last.text := by
  obtain ⟨front,rfl⟩ := getLast?_eq_some_iff.mp here
  simp [lastText,filter_append]

theorem name_given_iff {extensions : List Record} (all : ∀ record ∈ extensions, record.IsExtension)
    (ends : extensions = [] → member.PrefixEnds) (fresh : handle.longname = none ∧ handle.linkname = none) :
    (fileHeader member.header (handle.pend extensions)).name = unslash (givenName extensions member) ↔
    ∀ last, extensions.getLast? = some last → last.flag = 75 →
      unslash last.text = unslash (givenName extensions member) := by
  show unslash (entryName member.header _) = _ ↔ _
  cases here : extensions.getLast? with
  | none =>
    have empty : extensions = [] := getLast?_eq_none_iff.mp here
    have own : entryName member.header (handle.pend extensions) = member.ownName := by
      apply entryName_own (ends empty)
      simpa [Handle.pend,pendingName,pendingLink,here] using fresh
    rw [own,empty]
    simp [givenName,lastText]
  | some last =>
    have taken : entryName member.header (handle.pend extensions) = last.text := by
      by_cases long : last.flag = 76 <;> simp [entryName,Handle.pend,pendingName,pendingLink,here,long]
    have given := lastText_of_last here
    rw [taken]
    rcases all last (mem_of_getLast? here) with long | link
    · rw [long] at given
      simp only [givenName,given,Option.getD_some,true_iff]
      intro other same flag
      cases same
      exact absurd (long.symm.trans flag) (by decide)
    · refine ⟨fun same other equal _ => ?_,fun same => same last rfl link⟩
      cases equal
      exact same

theorem link_given_iff (member : Record) (handle : Handle) :
    (fileHeader member.header handle).linkName = givenLink extensions member ↔
      match lastText 75 extensions with
      | none => member.header 157 ≠ 0 → 0 ∈ member.header.get 157 100 ∨ member.header 257 = 0
      | some text => member.header 157 ≠ 0 ∧ cstring member.header 157 = text := by
  rw [givenLink]
  cases lastText 75 extensions with
  | none => exact linkName_own_iff member handle
  | some text =>
    simp only [Option.some_or,fileHeader]
    split
    · rename_i linked
      simp [linked]
    · rename_i linked
      simp [linked]

theorem getHeaderTar_next {after : Handle} {next : Record} (entry : next.IsEntry)
    (fresh : after.longname = none ∧ after.linkname = none) (aligned : after.offset % 512 = 0)
    (archive : after.rest = member.data ++ (member.padding ++ (next.bytes ++ tail))) :
    ∃ last, getHeaderTar (after.skipData member.data.length) = (.entry (fileHeader next.header handle.fresh),last) := by
  have padded := member.padded
  have skip : (512 - (after.offset + member.data.length) % 512) % 512 = member.padding.length := by omega
  have whole : (after.skipData member.data.length).align.rest = next.bytes ++ tail := by
    simp [Handle.align,Handle.skipData,archive,skip]
  have even : (after.skipData member.data.length).align.offset % 512 = 0 := by
    simp only [Handle.align,Handle.skipData]
    omega
  have read := readHeader_member (after.skipData member.data.length).rest.length entry even whole
  have own : fileHeader next.header (after.skipData member.data.length).align = fileHeader next.header handle.fresh :=
    fileHeader_names next.header fresh.1 fresh.2
  rw [own] at read
  exact ⟨_,(readHeader_align _ _).trans read⟩

/-- An entry behind any sequence of extensions gets the names they carry exactly if no `K` is among them or the `K`
happens to repeat what the header says; the entry behind it is never affected. Without extensions, its own name must
not run on behind the prefix. -/
theorem longNames_presented_iff (handle : Handle) (extensions : List Record) (member next : Record) (tail : List UInt8)
    (all : ∀ record ∈ extensions, record.IsExtension) (entry : member.IsEntry) (another : next.IsEntry)
    (ends : extensions = [] → member.PrefixEnds) (aligned : handle.offset % 512 = 0)
    (fresh : handle.longname = none ∧ handle.linkname = none)
    (archive : handle.rest = extensions.flatMap Record.bytes ++ (member.bytes ++ (next.bytes ++ tail))) :
    Presented handle extensions member next ↔ Harmless extensions member := by
  obtain ⟨after,read,noName,noLink,rest,even⟩ := getHeaderTar_entry extensions handle all entry aligned fresh archive
  have size (other : Handle) : (fileHeader member.header other).size.toNat = member.data.length := by
    rw [show (fileHeader member.header other).size = octal member.header 124 from rfl,member.size,Int.toNat_natCast]
  have unaffected : ∃ last, getHeaderTar (after.skipData member.data.length) =
      (.entry (fileHeader next.header handle.fresh),last) := getHeaderTar_next another ⟨noName,noLink⟩ even rest
  have names := name_given_iff all ends fresh
  rw [Presented,Harmless,← names,← link_given_iff extensions member]
  constructor
  · rintro ⟨_,_,same,name,link,_⟩
    cases read.symm.trans same
    exact ⟨link,name⟩
  · rintro ⟨link,name⟩
    exact ⟨_,after,read,name,link,by rwa [size]⟩

def letterHeader (flag : UInt8) (size chksum : List UInt8) : Memory :=
  put (put (put (put (fun _ => 0) 0 [97]) 124 size) 148 chksum) 156
    (flag :: 100 :: replicate 99 0 ++ text "ustar")

def letterLink : Record where
  header := letterHeader 50 (text "0") (text "2126")
  data := []
  padding := []
  first := by decide +kernel
  magic := by decide +kernel
  checksum := by decide +kernel
  size := by decide +kernel
  padded := by decide

theorem letterLink_isEntry : letterLink.IsEntry := by
  unfold Record.IsEntry
  decide +kernel

def letterName : Record where
  header := letterHeader 76 (text "2") (text "2162")
  data := [98,0]
  padding := replicate 510 0
  first := by decide +kernel
  magic := by decide +kernel
  checksum := by decide +kernel
  size := by decide +kernel
  padded := length_replicate

def letterLinkName : Record where
  header := letterHeader 75 (text "2") (text "2161")
  data := [99,0]
  padding := replicate 510 0
  first := by decide +kernel
  magic := by decide +kernel
  checksum := by decide +kernel
  size := by decide +kernel
  padded := length_replicate

def letterArchive (extension : Record) : Handle :=
  ⟨[extension].flatMap Record.bytes ++ (letterLink.bytes ++ (letterLink.bytes ++ [])),0,none,none,false⟩

/-- A long name in front of a link is its name. -/
theorem longNames_presented_letter : Presented (letterArchive letterName) [letterName] letterLink letterLink := by
  have extension : ∀ record ∈ [letterName], record.IsExtension := forall_mem_singleton.mpr (.inl (by decide +kernel))
  refine (longNames_presented_iff (letterArchive letterName) [letterName] letterLink letterLink [] extension
    letterLink_isEntry letterLink_isEntry nofun rfl ⟨rfl,rfl⟩ rfl).mpr ⟨fun _ => .inl (by decide +kernel),?_⟩
  intro last here flag
  cases here
  exact absurd flag (by decide +kernel)

/-- A long link name in front of a link becomes its name, and its link name is the one of the header. -/
theorem longLink_becomes_name :
    ∃ entry after, getHeaderTar (letterArchive letterLinkName) = (.entry entry,after) ∧
      entry.name = [99] ∧ entry.linkName = some [100] ∧
      givenName [letterLinkName] letterLink = [97] ∧ givenLink [letterLinkName] letterLink = some [99] := by
  have extension : ∀ record ∈ [letterLinkName], record.IsExtension :=
    forall_mem_singleton.mpr (.inr (by decide +kernel))
  obtain ⟨after,read,_⟩ :=
    getHeaderTar_entry [letterLinkName] (letterArchive letterLinkName) extension letterLink_isEntry rfl ⟨rfl,rfl⟩ rfl
  exact ⟨_,after,read,by decide +kernel,by decide +kernel,by decide +kernel,by decide +kernel⟩

end Stablebox.Tar
