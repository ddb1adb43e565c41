import Stablebox.Lib.Crc
import Stablebox.Lib.Machine

/-! The second half of the bzip2 decoder (decompress_bunzip2.c): `get_next_block` once
the Huffman symbols of a block are in `dbuf`, and `read_bunzip`, which follows the
sequence vector, undoes the run lengths and can stop at every byte. -/
namespace Stablebox.Bunzip2

abbrev retvalOk : Int := 0
abbrev retvalLastBlock : Int := -1
abbrev retvalUnexpectedInputEof : Int := -3
abbrev retvalDataError : Int := -5

/-! The CRC table (libbb/crc32.c). -/

def crcStep (big : Bool) (polynomial c : BitVec 32) : BitVec 32 :=
  if big then
    if c &&& 0x80000000 ≠ 0 then (c <<< 1) ^^^ polynomial else c <<< 1
  else
    if c &&& 1 ≠ 0 then (c >>> 1) ^^^ polynomial else c >>> 1

def bbCrc32FillTable (big : Bool) : List (BitVec 32) :=
  let polynomial : BitVec 32 := if big then 0x04c11db7 else 0xedb88320
  (List.range 256).map fun i =>
    (crcStep big polynomial)^[8] (if big then BitVec.ofNat 32 i <<< 24 else BitVec.ofNat 32 i)

/-- What the first half of `get_next_block` comes to: an error, the end of the stream
among them, or the bytes of a block in `dbuf`. -/
inductive Decoded where
  | stops (retval : Int) (headerCRC : BitVec 32)
  | block (headerCRC : BitVec 32) (origPtr : Nat) (bytes : List UInt8)
  deriving DecidableEq

/-- The members of `bunzip_data` that the second half uses. -/
structure BunzipData where
  writeCopies : Nat
  writePos : Nat
  writeRunCountdown : Int
  writeCount : Int
  writeCurrent : UInt8
  headerCRC : BitVec 32
  totalCRC : BitVec 32
  writeCRC : BitVec 32
  crc32Table : List (BitVec 32)
  dbuf : List UInt32
  dbufSize : Nat
  /-- the blocks that are still to come -/
  input : List Decoded

def cumulate : (j : Nat) → List Nat → List Nat
  | _,[] => []
  | j,count :: rest => j :: cumulate (j + count) rest

def link (state : List UInt32 × List Nat) (i : Nat) : List UInt32 × List Nat :=
  let (dbuf,byteCount) := state
  let uc := (dbuf.getD i 0 &&& 0xff).toNat
  (dbuf.modify (byteCount.getD uc 0) (· ||| UInt32.ofNat (i <<< 8)),byteCount.modify uc (· + 1))

def sequenceVector (bytes : List UInt8) : List UInt32 :=
  let byteCount := (List.range 256).map fun c => bytes.count (UInt8.ofNat c)
  ((List.range bytes.length).foldl link (bytes.map UInt8.toUInt32,cumulate 0 byteCount)).1

/-- A byte and the place that follows it, from an entry of the vector. The entry is
converted to `int`; a place outside of the vector, or a negative one, is an error. -/
def follow (dbuf : List UInt32) (pos : Nat) : Option (UInt8 × Nat) :=
  match dbuf[pos]? with
  | none => none
  | some entry =>
    if entry < 0x80000000 then some (entry.toUInt8,(entry >>> 8).toNat) else none

/-- `get_next_block` from where the bytes are in `dbuf`. -/
def getNextBlock (bd : BunzipData) : Option (Int × BunzipData) :=
  match bd.input with
  | [] => some (retvalUnexpectedInputEof,bd)
  | .stops retval headerCRC :: rest => some (retval,{ bd with headerCRC := headerCRC, input := rest })
  | .block headerCRC origPtr bytes :: rest =>
    let dbuf := sequenceVector bytes
    let bd := { bd with headerCRC := headerCRC, input := rest, dbuf := dbuf }
    if bytes.length = 0 then some (retvalOk,{ bd with writeCount := 0 })
    else if origPtr ≥ bytes.length then some (retvalDataError,bd)
    else
      match follow dbuf origPtr with
      | none => none
      | some (current,pos) =>
        some (retvalOk,{ bd with
          writePos := pos, writeCurrent := current, writeRunCountdown := 5, writeCount := bytes.length })

inductive Label where
  | output
  | decodeNextByte
  | blockDone
  | refill
  deriving DecidableEq

structure Frame where
  label : Label
  bd : BunzipData
  pos : Nat
  current : UInt8
  outbuf : List UInt8

structure ReadResult where
  value : Int
  outbuf : List UInt8
  bd : BunzipData

def updateCRC (table : List (BitVec 32)) (crc : BitVec 32) (current : UInt8) : BitVec 32 :=
  (crc <<< 8) ^^^ table.getD ((crc >>> 24) ^^^ current.toBitVec.setWidth 32).toNat 0

/-- The code from one label to the next; `none` is undefined behaviour. -/
def step (len : Nat) (f : Frame) : Frame ⊕ Option ReadResult :=
  match f.label with
  | .output =>
    if f.outbuf.length ≥ len then
      .inr (some ⟨len,f.outbuf,{ f.bd with
        writePos := f.pos, writeCurrent := f.current, writeCopies := f.bd.writeCopies + 1 }⟩)
    else
      let bd := { f.bd with writeCRC := updateCRC f.bd.crc32Table f.bd.writeCRC f.current }
      let f := { f with outbuf := f.outbuf ++ [f.current] }
      if bd.writeCopies ≠ 0 then .inl { f with bd := { bd with writeCopies := bd.writeCopies - 1 } }
      else .inl { f with bd := bd, label := .decodeNextByte }
  | .decodeNextByte =>
    let bd := { f.bd with writeCount := f.bd.writeCount - 1 }
    if f.bd.writeCount = 0 then .inl { f with bd := bd, label := .blockDone }
    else
      match follow bd.dbuf f.pos with
      | none => .inr none
      | some (current,pos) =>
        let countdown := bd.writeRunCountdown - 1
        if countdown ≠ 0 then
          let countdown := if current ≠ f.current then 4 else countdown
          .inl { f with
            bd := { bd with writeRunCountdown := countdown }, pos := pos, current := current, label := .output }
        else
          let bd := { bd with writeCopies := current.toNat, writeRunCountdown := 5 }
          if bd.writeCopies = 0 then .inl { f with bd := bd, pos := pos }
          else .inl { f with
            bd := { bd with writeCopies := bd.writeCopies - 1 }, pos := pos, label := .output }
  | .blockDone =>
    let writeCRC := ~~~ f.bd.writeCRC
    let totalCRC := ((f.bd.totalCRC <<< 1) ||| (f.bd.totalCRC >>> 31)) ^^^ writeCRC
    let bd := { f.bd with writeCRC := writeCRC, totalCRC := totalCRC }
    if writeCRC ≠ bd.headerCRC then
      .inr (some ⟨retvalLastBlock,f.outbuf,{ bd with totalCRC := bd.headerCRC + 1 }⟩)
    else .inl { f with bd := bd, label := .refill }
  | .refill =>
    match getNextBlock f.bd with
    | none => .inr none
    | some (previous,bd) =>
      if previous ≠ retvalOk then
        .inr (some ⟨if previous ≠ retvalLastBlock then previous else f.outbuf.length,f.outbuf,
          { bd with writeCount := previous }⟩)
      else .inl { f with
        bd := { bd with writeCRC := ~~~ 0 }, pos := bd.writePos, current := bd.writeCurrent,
        label := .decodeNextByte }

def entry (bd : BunzipData) : Frame ⊕ Option ReadResult :=
  if bd.writeCount < 0 then .inr (some ⟨bd.writeCount,[],bd⟩)
  else if bd.writeCopies ≠ 0 then
    .inl ⟨.output,{ bd with writeCopies := bd.writeCopies - 1 },bd.writePos,bd.writeCurrent,[]⟩
  else .inl ⟨.refill,bd,bd.writePos,bd.writeCurrent,[]⟩

/-- A call of `read_bunzip` that ends within `fuel` steps. -/
def readBunzip (fuel : Nat) (bd : BunzipData) (len : Nat) : Option ReadResult :=
  match entry bd with
  | .inr result => result
  | .inl f => (exec (step len) fuel f).join

def startBunzip (level : Fin 9) (input : List Decoded) : BunzipData :=
  ⟨0,0,0,0,0,0,0,0,bbCrc32FillTable true,[],100000 * (level + 1),input⟩

end Stablebox.Bunzip2
