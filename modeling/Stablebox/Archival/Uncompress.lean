import Stablebox.Lib.Digits
import Stablebox.Lib.Machine
import Stablebox.Lib.Memory
import Stablebox.Libbb.GetLine

/-! `uncompress`: the decoder of compress files. `htab` holds the last byte of each phrase from its
start and the stack of the phrase that is being spelled from its end. -/
namespace Stablebox.Uncompress

open Function

open Libbb

def ibufsiz : Nat := 2048
def obufsiz : Nat := 2048
def hsize : Nat := 131072
def initBits : Nat := 9
def clear : Nat := 256

def first : Nat := 257

structure Chunk where
  bytes : List UInt8
  nonempty : bytes ≠ []
  fits : bytes.length ≤ ibufsiz

/-- Where the loops are: at `resetbuf`, or before the next code, of `inbits` bits that may be read. -/
inductive Phase where
  | resetbuf
  | codes (inbits : Int)

/-- The variables; `inbuf` is the first `insize` bytes of the buffer and `outbuf` the first
`outpos`. There is no old code for -1, and `bitmask` is always that of `n_bits`. -/
structure State where
  fdIn : List Chunk
  inbuf : List UInt8
  rsize : Nat
  posbits : Nat
  phase : Phase
  outbuf : List UInt8
  written : List UInt8
  htab : Memory
  codetab : Nat → Nat
  oldcode : Option Nat
  finchar : UInt8
  freeEnt : Nat
  maxcode : Nat
  nBits : Nat

/-- The end: 0, -1 with a message, or a stack that has run out of `htab`. -/
inductive Result where
  | done (written : List UInt8)
  | failed (written : List UInt8) (message : List UInt8)
  | overrun
  deriving DecidableEq

def groupEnd (posbits nBits : Nat) : Nat :=
  ((posbits : Int) - 1 + (nBits * 8 - ((posbits : Int) - 1 + nBits * 8) % (nBits * 8))).toNat

def codeAt (inbuf : List UInt8) (posbits nBits : Nat) : Nat :=
  let p := inbuf.drop (posbits / 8)
  ((p.getD 0 0).toNat + (p.getD 1 0).toNat * 2 ^ 8 + (p.getD 2 0).toNat * 2 ^ 16) / 2 ^ (posbits % 8) % 2 ^ nBits

def deStack : Nat := hsize - 1

def push (stackp : Nat) (c : UInt8) (htab : Memory) : Option (Nat × Memory) :=
  match stackp with
  | 0 => none
  | stackp + 1 => some (stackp,update htab stackp c)

def walk (codetab : Nat → Nat) (stackp code : Nat) (htab : Memory) : Option (Nat × Nat × Memory) :=
  if code ≥ 256 then
    match stackp with
    | 0 => none
    | stackp + 1 => walk codetab stackp (codetab code) (update htab stackp (htab code))
  else some (stackp,code,htab)

/-- The phrase of a code on the stack: the top of the stack, the table and the first byte. -/
def spell (s : State) (code oldcode : Nat) : Option (Nat × Memory × UInt8) := do
  let (stackp,htab) ← if code ≥ s.freeEnt then push deStack s.finchar s.htab else some (deStack,s.htab)
  let (stackp,code,htab) ← walk s.codetab stackp (if code ≥ s.freeEnt then oldcode else code) htab
  let finchar := htab code
  let (stackp,htab) ← push stackp finchar htab
  return (stackp,htab,finchar)

def flush : (fuel : Nat) → (bytes outbuf written : List UInt8) → List UInt8 × List UInt8
  | 0,_,outbuf,written => (outbuf,written)
  | fuel + 1,bytes,outbuf,written =>
    let i := min bytes.length (obufsiz - outbuf.length)
    let outbuf := outbuf ++ bytes.take i
    let (outbuf,written) := if outbuf.length ≥ obufsiz then ([],written ++ outbuf) else (outbuf,written)
    if bytes.drop i = [] then (outbuf,written) else flush fuel (bytes.drop i) outbuf written

def putOut (bytes outbuf written : List UInt8) : List UInt8 × List UInt8 :=
  if outbuf.length + bytes.length ≥ obufsiz then flush (bytes.length + 1) bytes outbuf written
  else (outbuf ++ bytes,written)

/-- A read, if there is little left: the buffer, what the last read returned and what is to be read. -/
def refill (inbuf : List UInt8) (rsize : Nat) (fdIn : List Chunk) : List UInt8 × Nat × List Chunk :=
  if inbuf.length < 64 then
    match fdIn with
    | [] => (inbuf,0,[])
    | chunk :: fdIn => (inbuf ++ chunk.bytes,chunk.bytes.length,fdIn)
  else (inbuf,rsize,fdIn)

def inbitsOf (insize rsize nBits : Nat) : Int :=
  if rsize > 0 then ((insize - insize % nBits) * 8 : Nat) else (insize * 8 : Nat) - ((nBits : Int) - 1)

/-- What is left moves to the front, and there may be more to read. -/
def resetbuf (s : State) : State :=
  let (inbuf,rsize,fdIn) := refill (s.inbuf.drop (s.posbits / 8)) s.rsize s.fdIn
  { s with inbuf, rsize, fdIn, posbits := 0, phase := .codes (inbitsOf inbuf.length rsize s.nBits) }

section Steps

variable (maxbits : Nat) (blockMode : Bool)

def widen (s : State) : State :=
  let nBits := s.nBits + 1
  { s with
    posbits := groupEnd s.posbits s.nBits
    nBits
    maxcode := if nBits = maxbits then 2 ^ maxbits else 2 ^ nBits - 1
    phase := .resetbuf }

/-- The table starts anew; the next code makes an entry for `CLEAR` that is never used. -/
def clearTable (s : State) : State :=
  { s with
    codetab := fun i => if i < 128 then 0 else s.codetab i
    freeEnt := first - 1
    posbits := groupEnd s.posbits s.nBits
    nBits := initBits
    maxcode := 2 ^ initBits - 1
    phase := .resetbuf }

def putPhrase (code stackp : Nat) (htab : Memory) (finchar : UInt8) (s : State) : State :=
  let (outbuf,written) := putOut (htab.get stackp (deStack - stackp)) s.outbuf s.written
  { s with outbuf, written, htab, finchar, oldcode := some code }

def newEntry (oldcode : Nat) (s : State) : State :=
  if s.freeEnt < 2 ^ maxbits then
    { s with
      codetab := update s.codetab s.freeEnt (oldcode % 2 ^ 16)
      htab := update s.htab s.freeEnt s.finchar
      freeEnt := s.freeEnt + 1 }
  else s

def putCode (code oldcode : Nat) (s : State) : State ⊕ Result :=
  if code > s.freeEnt then .inr (.failed s.written (text "uncompress: corrupt input"))
  else
    match spell s code oldcode with
    | none => .inr .overrun
    | some (stackp,htab,finchar) => .inl (newEntry maxbits oldcode (putPhrase code stackp htab finchar s))

def firstCode (code : Nat) (s : State) : State :=
  { s with
    outbuf := s.outbuf ++ [UInt8.ofNat code]
    finchar := UInt8.ofNat code
    oldcode := some code }

def nextCode (s : State) : State ⊕ Result :=
  let code := codeAt s.inbuf s.posbits s.nBits
  let s := { s with posbits := s.posbits + s.nBits }
  match s.oldcode with
  | none => .inl (firstCode code s)
  | some oldcode =>
    if code = clear ∧ blockMode then .inl (clearTable s)
    else putCode maxbits code oldcode s

def step (s : State) : State ⊕ Result :=
  match s.phase with
  | .resetbuf => .inl (resetbuf s)
  | .codes inbits =>
    if inbits > s.posbits then
      if s.freeEnt > s.maxcode then .inl (widen maxbits s) else nextCode maxbits blockMode s
    else if s.rsize > 0 then .inl { s with phase := .resetbuf }
    else .inr (.done (s.written ++ s.outbuf))

end Steps

def start (blockMode : Bool) (fdIn : List Chunk) (htab : Memory) (codetab : Nat → Nat) : State where
  fdIn
  inbuf := []
  rsize := 0
  posbits := 0
  phase := .resetbuf
  outbuf := []
  written := []
  htab := fun i => if i < 256 then UInt8.ofNat i else htab i
  codetab := fun i => if i < 128 then 0 else codetab i
  oldcode := none
  finchar := 0
  freeEnt := if blockMode then first else 256
  maxcode := 2 ^ initBits - 1
  nBits := initBits

def maxbitsOf (header : UInt8) : Nat := (header &&& 31).toNat

def blockModeOf (header : UInt8) : Bool := header &&& 128 ≠ 0

def Returns (header : UInt8) (fdIn : List Chunk) (htab : Memory) (codetab : Nat → Nat) (result : Result) : Prop :=
  if maxbitsOf header > 16 then
    result = .failed [] (text "compressed with " ++ Digits.print 10 0 (maxbitsOf header) ++
      text " bits, can only handle 16 bits")
  else Yields (step (maxbitsOf header) (blockModeOf header)) (start (blockModeOf header) fdIn htab codetab) result

end Stablebox.Uncompress
