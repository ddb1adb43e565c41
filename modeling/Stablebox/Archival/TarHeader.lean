import Stablebox.Lib.Digits
import Stablebox.Lib.Memory
import Stablebox.Libbb.GetLine

/-! The 512-byte header of a tar archive: `writeTarHeader` and `writeFileToTarball` of tar.c, and
`get_header_tar`. `CONFIG_FEATURE_TAR_GNU_EXTENSIONS` and
`CONFIG_FEATURE_TAR_OLDGNU_COMPATIBILITY` are on. -/
namespace Stablebox.Tar

open Libbb

inductive FileType where
  | socket
  | symlink
  | regular
  | block
  | directory
  | character
  | fifo
  deriving DecidableEq

def FileType.bits : FileType → Nat
  | .socket => 12
  | .symlink => 10
  | .regular => 8
  | .block => 6
  | .directory => 4
  | .character => 2
  | .fifo => 1

/-- `struct stat`; `major` and `minor` are those of `st_rdev`. -/
structure Stat where
  type : FileType
  perm : Fin 4096
  uid : Nat
  gid : Nat
  size : Nat
  mtime : Nat
  major : Nat
  minor : Nat
  nlink : Nat
  dev : Nat
  ino : Nat

def Stat.mode (statbuf : Stat) : Nat := statbuf.type.bits * 4096 + statbuf.perm

structure Path where
  bytes : List UInt8
  plain : 0 ∉ bytes
  nonempty : bytes ≠ []

structure HardLinkInfo where
  dev : Nat
  ino : Nat
  name : Path

structure TarBallInfo where
  dev : Nat
  ino : Nat
  hlInfoHead : List HardLinkInfo

/-- What the system says about a file: does it open, do the exclude patterns match, where does it
link to, and the names of its user and group. -/
structure System where
  opens : Bool
  excluded : Bool
  target : Option Path
  user : Option (List UInt8)
  group : Option (List UInt8)

def putOctal (cp len value : Nat) (header : Memory) : Option Memory :=
  let tempString := Digits.print 8 (len - 1) value
  let tempLength := tempString.length + 1
  -- suppress the leading character
  let suppress := tempLength > len
  let tempString := if suppress then tempString.tail else tempString
  let tempLength := if suppress then tempLength - 1 else tempLength
  -- suppress the trailing null
  let tempLength := if tempLength > len then tempLength - 1 else tempLength
  if tempLength > len then none else some (header.put cp ((tempString ++ [0]).take len))

def putField (cp len value : Nat) (header : Memory) : Memory := (putOctal cp len value header).getD header

def strncpy (dst : Nat) (src : List UInt8) (n : Nat) (header : Memory) : Memory :=
  header.put dst (src.take n ++ List.replicate (n - src.length) 0)

def safeStrncpy (dst : Nat) (src : List UInt8) (size : Nat) (header : Memory) : Memory :=
  strncpy dst src (size - 1) (header.put (dst + size - 1) [0])

def strcpy (dst : Nat) (src : List UInt8) (header : Memory) : Memory := header.put dst (src ++ [0])

def cstring (header : Memory) (offset : Nat) : List UInt8 := (header.get offset (512 - offset)).takeWhile (· ≠ 0)

def strncat (dst : Nat) (c : UInt8) (header : Memory) : Memory :=
  header.put (dst + (cstring header dst).length) [c,0]

/-- `bb_getpwuid` and `bb_getgrgid` into a field, and `root` when there is no name. -/
def putOwner (dst : Nat) (name : Option (List UInt8)) (id : Nat) (header : Memory) : Memory :=
  match name with
  | some name => safeStrncpy dst name 32 header
  | none => strcpy dst (text "root") (header.put dst ((Digits.print 10 0 id).take 31 ++ [0]))

def sum (header : Memory) (offset count : Nat) : Nat := ((header.get offset count).map UInt8.toNat).sum

def commonHeader (headerName : List UInt8) (statbuf : Stat) (system : System) : Memory :=
  let header : Memory := fun _ => 0
  let header := safeStrncpy 0 headerName 100 header
  let header := putField 100 8 statbuf.mode header
  let header := putField 108 8 statbuf.uid header
  let header := putField 116 8 statbuf.gid header
  let header := putField 124 12 0 header
  let header := putField 136 12 statbuf.mtime header
  let header := strcpy 257 (text "ustar  ") header
  let header := putOwner 265 system.user statbuf.uid header
  putOwner 297 system.group statbuf.gid header

def typeHeader (hlInfo : Option HardLinkInfo) (statbuf : Stat) (system : System) (header : Memory) : Option Memory :=
  match hlInfo with
  | some hlInfo => some (strncpy 157 hlInfo.name.bytes 100 (header.put 156 [49]))
  | none =>
    match statbuf.type with
    | .symlink =>
      match system.target with
      | none => none
      | some target => some (strncpy 157 target.bytes 100 (header.put 156 [50]))
    | .directory => some (strncat 0 47 (header.put 156 [53]))
    | .character => some (putField 337 8 statbuf.minor (putField 329 8 statbuf.major (header.put 156 [51])))
    | .block => some (putField 337 8 statbuf.minor (putField 329 8 statbuf.major (header.put 156 [52])))
    | .fifo => some (header.put 156 [54])
    | .regular => some (putField 124 12 statbuf.size (header.put 156 [48]))
    | .socket => none

def checksum (header : Memory) : Memory :=
  let header := header.put 148 (List.replicate 8 32)
  putField 148 7 (sum header 0 512) header

def writeTarHeader (hlInfo : Option HardLinkInfo) (headerName : List UInt8) (statbuf : Stat) (system : System) :
    Option Memory :=
  (typeHeader hlInfo statbuf system (commonHeader headerName statbuf system)).map checksum

/-- What becomes of a file: a message and no entry, an error, or a header. -/
inductive Added where
  | ignored (message : List UInt8)
  | nothing
  | skip
  | failed
  | header (bytes : Memory)

def findHardLinkInfo (hlInfo : List HardLinkInfo) (statbuf : Stat) : Option HardLinkInfo :=
  hlInfo.find? fun info => statbuf.ino = info.ino ∧ statbuf.dev = info.dev

def hardLink (tbInfo : TarBallInfo) (statbuf : Stat) : Option HardLinkInfo :=
  if statbuf.nlink > 1 then findHardLinkInfo tbInfo.hlInfoHead statbuf else none

def headerName (fileName : Path) : List UInt8 := fileName.bytes.dropWhile (· = 47)

def writeFileToTarball (tbInfo : TarBallInfo) (fileName : Path) (statbuf : Stat) (system : System) :
    Added × TarBallInfo :=
  let hlInfo := hardLink tbInfo statbuf
  let tbInfo :=
    if statbuf.nlink > 1 ∧ hlInfo.isNone then
      { tbInfo with hlInfoHead := ⟨statbuf.dev,statbuf.ino,fileName⟩ :: tbInfo.hlInfoHead }
    else tbInfo
  if statbuf.type = .socket then (.ignored (fileName.bytes ++ text ": socket ignored"),tbInfo)
  else if tbInfo.dev = statbuf.dev ∧ tbInfo.ino = statbuf.ino then
    (.ignored (fileName.bytes ++ text ": file is the archive; skipping"),tbInfo)
  else if fileName.bytes.length ≥ 100 then (.ignored (text "Names longer than 100 chars not supported."),tbInfo)
  else if headerName fileName = [] then (.nothing,tbInfo)
  else if system.excluded then (.skip,tbInfo)
  else if hlInfo.isNone ∧ statbuf.type = .regular ∧ system.opens = false then (.failed,tbInfo)
  else
    match writeTarHeader hlInfo (headerName fileName) statbuf system with
    | none => (.failed,tbInfo)
    | some header => (.header header,tbInfo)

/-- `file_header_t`; there is no type for an extension. -/
structure FileHeader where
  name : List UInt8
  linkName : Option (List UInt8)
  size : Int
  uid : Nat
  gid : Nat
  perm : Nat
  type : Option FileType
  mtime : Int
  device : Int × Int
  deriving DecidableEq

/-- The bytes that are still to be read, how many there were, and the static variables. -/
structure Handle where
  rest : List UInt8
  offset : Nat
  longname : Option (List UInt8)
  linkname : Option (List UInt8)
  ended : Bool

/-- How `get_header_tar` ends: `bb_error_msg_and_die`, a return value, or an entry for the filter. -/
inductive Outcome where
  | died (message : List UInt8)
  | exitFailure
  | exitSuccess
  | entry (header : FileHeader)
  deriving DecidableEq

def lastCharIs (s : List UInt8) (c : UInt8) : Bool := s.getLast? == some c

def octal (header : Memory) (offset : Nat) : Int := Digits.strtol 8 (cstring header offset)

def concatPathFile (path filename : List UInt8) : List UInt8 :=
  path ++ (if lastCharIs path 47 then [] else [47]) ++ filename.dropWhile (· = 47)

def entryName (header : Memory) (handle : Handle) : List UInt8 :=
  match handle.longname, handle.linkname with
  | some longname,_ => longname
  | none,some linkname => linkname
  | none,none =>
    let name := (header.get 0 100).takeWhile (· ≠ 0)
    if header 345 ≠ 0 then concatPathFile (cstring header 345) name else name

def entryType (typeflag : UInt8) (name : List UInt8) : Option FileType :=
  if typeflag = 49 then some .regular
  else if typeflag = 55 ∨ typeflag = 0 ∨ typeflag = 48 then
    if lastCharIs name 47 then some .directory else some .regular
  else if typeflag = 50 then some .symlink
  else if typeflag = 51 then some .character
  else if typeflag = 52 then some .block
  else if typeflag = 53 then some .directory
  else if typeflag = 54 then some .fifo
  else none

def fileHeader (header : Memory) (handle : Handle) : FileHeader :=
  let name := entryName header handle
  { name := if lastCharIs name 47 then name.dropLast else name
    linkName := if header 157 ≠ 0 then some (cstring header 157) else none
    size := octal header 124
    uid := (octal header 108 % 2 ^ 32).toNat
    gid := (octal header 116 % 2 ^ 32).toNat
    perm := (octal header 100 % 4096).toNat
    type := entryType (header 156) name
    mtime := octal header 136
    device := (octal header 329,octal header 337) }

/-- Compared with five null bytes, `strncmp` stops at the first one. -/
def validMagic (header : Memory) : Bool := header.get 257 5 == text "ustar" || header 257 == 0

def validChecksum (header : Memory) : Bool :=
  ((sum header 0 148 + 32 * 8 + sum header 156 356 : Nat) : Int) == octal header 148

/-- `get_header_tar`; each header that is followed by another takes 512 bytes. -/
def readHeader : (fuel : Nat) → Handle → Outcome × Handle
  | 0,handle => (.died (text "Short header"),handle)
  | fuel + 1,handle =>
    let skip := (512 - handle.offset % 512) % 512
    let handle := { handle with rest := handle.rest.drop skip, offset := handle.offset + skip }
    if handle.rest.length < 512 then (.died (text "Short header"),handle)
    else
      let header : Memory := fun i => handle.rest.getD i 0
      let handle := { handle with rest := handle.rest.drop 512, offset := handle.offset + 512 }
      if header 0 = 0 then
        if handle.ended then (.exitFailure,{ handle with rest := [] }) else (.exitSuccess,{ handle with ended := true })
      else
        let handle := { handle with ended := false }
        if !validMagic header then (.died (text "Invalid tar magic"),handle)
        else if !validChecksum header then (.exitFailure,handle)
        else
          let entry := fileHeader header handle
          let handle :=
            { handle with
              longname := none
              linkname := if handle.longname.isSome then handle.linkname else none }
          let size := entry.size.toNat
          if header 156 = 76 ∨ header 156 = 75 then
            if entry.size < 0 ∨ handle.rest.length < size then (.died (text "Short read"),handle)
            else
              let data := (handle.rest.take size).takeWhile (· ≠ 0)
              let handle := { handle with rest := handle.rest.drop size, offset := handle.offset + size }
              if header 156 = 76 then readHeader fuel { handle with longname := some data }
              else readHeader fuel { handle with linkname := some data }
          else (.entry entry,handle)

def getHeaderTar (handle : Handle) : Outcome × Handle := readHeader (handle.rest.length + 1) handle

end Stablebox.Tar
