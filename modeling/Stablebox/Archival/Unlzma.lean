import Mathlib.Algebra.Order.Ring.Nat
import Stablebox.Lib.Machine

/-! The LZMA decoder (decompress_unlzma.c). The decoder is written over the dictionary it
reads from and writes to, so that the same decoder also runs with its whole output in
place of the circular buffer. `size_t` has 64 bits. -/
namespace Stablebox.Unlzma

open Function

/-- How a run can end early: `bb_error_msg_and_die`, or an access outside of the buffer. -/
inductive Failure where
  | die (message : String)
  | undefined
  deriving DecidableEq

/-! The range decoder. -/

/-- An adaptive probability. The two updates stay within these bounds. -/
structure Prob where
  val : Nat
  low : 31 ≤ val
  high : val ≤ 2017

def Prob.initial : Prob := ⟨(1 <<< 11) >>> 1,by decide,by decide⟩

def Prob.raise (p : Prob) : Prob where
  val := p.val + (((1 <<< 11) - p.val) >>> 5)
  low := Nat.le_trans p.low (Nat.le_add_right ..)
  high := by
    have := p.high
    rw [Nat.shiftRight_eq_div_pow]
    omega

def Prob.lower (p : Prob) : Prob where
  val := p.val - (p.val >>> 5)
  low := by
    have := p.low
    rw [Nat.shiftRight_eq_div_pow]
    omega
  high := Nat.le_trans (Nat.sub_le ..) p.high

/-- `rc_t`, with the probabilities that its functions update. `input` is what `read` has
still to give, in whatever pieces. -/
structure Rc where
  code : Nat
  range : Nat
  bound : Nat
  p : Nat → Prob
  input : List UInt8

abbrev Decode := StateT Rc (Except Failure)

def unexpectedEof : Failure := .die "unexpected EOF"

def rcDoNormalize : Decode Unit := fun rc =>
  match rc.input with
  | [] => .error unexpectedEof
  | byte :: input => .ok ((),{ rc with
      range := rc.range <<< 8 % 2 ^ 32, code := (rc.code <<< 8 % 2 ^ 32) ||| byte.toNat, input := input })

def rcNormalize : Decode Unit := fun rc => if rc.range < 1 <<< 24 then rcDoNormalize rc else .ok ((),rc)

def rcIsBit0 (prob : Nat) : Decode Bool := do
  rcNormalize
  modify fun rc => { rc with bound := (rc.p prob).val * (rc.range >>> 11) % 2 ^ 32 }
  let rc ← get
  return decide (rc.code < rc.bound)

def rcUpdateBit0 (prob : Nat) : Decode Unit :=
  modify fun rc => { rc with range := rc.bound, p := update rc.p prob (rc.p prob).raise }

def rcUpdateBit1 (prob : Nat) : Decode Unit :=
  modify fun rc => { rc with
    range := rc.range - rc.bound, code := rc.code - rc.bound,
    p := update rc.p prob (rc.p prob).lower }

def rcBit (prob : Nat) : Decode Bool := do
  if ← rcIsBit0 prob then
    rcUpdateBit0 prob
    return false
  else
    rcUpdateBit1 prob
    return true

def rcGetBit (prob symbol : Nat) : Decode (Bool × Nat) := do
  let bit ← rcBit prob
  return (bit,symbol * 2 + bit.toNat)

def rcDirectBit : Decode Nat := do
  rcNormalize
  modify fun rc => { rc with range := rc.range >>> 1 }
  let rc ← get
  if rc.code ≥ rc.range then
    set { rc with code := rc.code - rc.range }
    return 1
  else return 0

def rcBitTree (prob : Nat) : (i symbol : Nat) → Decode Nat
  | 0,symbol => return symbol
  | i + 1,symbol => do
    let (_,symbol) ← rcGetBit (prob + symbol) symbol
    rcBitTree prob i symbol

def rcBitTreeDecode (prob numLevels : Nat) : Decode Nat := do
  let symbol ← rcBitTree prob numLevels 1
  return symbol - 1 <<< numLevels

/-! The places of the probabilities. -/

abbrev lenChoice : Nat := 0
abbrev lenChoice2 : Nat := lenChoice + 1
abbrev lenLow : Nat := lenChoice2 + 1
abbrev lenMid : Nat := lenLow + 1 <<< (4 + 3)
abbrev lenHigh : Nat := lenMid + 1 <<< (4 + 3)
abbrev numLenProbs : Nat := lenHigh + 1 <<< 8
abbrev numStates : Nat := 12
abbrev numLitStates : Nat := 7
abbrev startPosModelIndex : Nat := 4
abbrev endPosModelIndex : Nat := 14
abbrev numFullDistances : Nat := 1 <<< (endPosModelIndex >>> 1)
abbrev numPosSlotBits : Nat := 6
abbrev numLenToPosStates : Nat := 4
abbrev numAlignBits : Nat := 4
abbrev matchMinLen : Nat := 2
abbrev litSize : Nat := 768
abbrev isMatch : Nat := 0
abbrev isRep : Nat := isMatch + numStates <<< 4
abbrev isRepG0 : Nat := isRep + numStates
abbrev isRepG1 : Nat := isRepG0 + numStates
abbrev isRepG2 : Nat := isRepG1 + numStates
abbrev isRep0Long : Nat := isRepG2 + numStates
abbrev posSlot : Nat := isRep0Long + numStates <<< 4
abbrev specPos : Nat := posSlot + numLenToPosStates <<< numPosSlotBits
abbrev align : Nat := specPos + numFullDistances - endPosModelIndex
abbrev lenCoder : Nat := align + 1 <<< numAlignBits
abbrev repLenCoder : Nat := lenCoder + numLenProbs
abbrev literalProbs : Nat := repLenCoder + numLenProbs

/-- `lzma_header_t`, as `unlzma` takes it apart. -/
structure Header where
  lc : Nat
  lp : Nat
  pb : Nat
  dictSize : Nat
  dstSize : Nat

/-- What the decoder does with its dictionary: how much has been put out, the byte at a
distance, one more byte, and the test for room inside of a match. -/
structure Window (σ : Type) where
  position : σ → Nat
  peek : σ → (rep0 : Nat) → Except Failure UInt8
  put : σ → UInt8 → Except Failure σ
  room : σ → Except Failure Bool

/-- The locals of `unlzma` that live from one symbol to the next. -/
structure Locals (σ : Type) where
  window : σ
  previousByte : UInt8
  state : Nat
  rep0 : Nat
  rep1 : Nat
  rep2 : Nat
  rep3 : Nat

section

variable {σ : Type} (h : Header) (w : Window σ)

/-- The bits of a literal that are decoded along with those of the match byte, up to the
first that differs. -/
def matchedBits (prob : Nat) : (left matchByte mi : Nat) → Decode Nat
  | 0,_,mi => return mi
  | left + 1,matchByte,mi => do
    let matchByte := matchByte <<< 1
    let bit := matchByte &&& 0x100
    let (one,mi) ← rcGetBit (prob + 0x100 + bit + mi) mi
    if one ≠ decide (bit ≠ 0) then return mi
    else if mi < 0x100 then matchedBits prob left matchByte mi
    else return mi

def plainBits (prob : Nat) : (left mi : Nat) → Decode Nat
  | 0,mi => return mi
  | left + 1,mi =>
    if mi < 0x100 then do
      let (_,mi) ← rcGetBit (prob + mi) mi
      plainBits prob left mi
    else return mi

def literal (l : Locals σ) : Decode (Locals σ) := do
  let prob := literalProbs + litSize * (((w.position l.window &&& (1 <<< h.lp - 1)) <<< h.lc) +
    l.previousByte.toNat >>> (8 - h.lc))
  let mi ←
    if l.state ≥ numLitStates then do
      let matchByte ← w.peek l.window l.rep0
      matchedBits prob 8 matchByte.toNat 1
    else pure 1
  let mi ← plainBits prob 8 mi
  let previousByte := UInt8.ofNat mi
  let window ← w.put l.window previousByte
  let state := if l.state < 4 then 0 else if l.state < 10 then l.state - 3 else l.state - 6
  return { l with window := window, previousByte := previousByte, state := state }

def shortRep (l : Locals σ) : Decode (Locals σ) := do
  let state := if l.state < numLitStates then 9 else 11
  let previousByte ← w.peek l.window l.rep0
  let window ← w.put l.window previousByte
  return { l with window := window, previousByte := previousByte, state := state }

def olderRep (l : Locals σ) : Decode (Locals σ) := do
  if ← rcBit (isRepG1 + l.state) then
    if ← rcBit (isRepG2 + l.state) then
      return { l with rep0 := l.rep3, rep1 := l.rep0, rep2 := l.rep1, rep3 := l.rep2 }
    else return { l with rep0 := l.rep2, rep1 := l.rep0, rep2 := l.rep1 }
  else return { l with rep0 := l.rep1, rep1 := l.rep0 }

def matchLen (prob posState : Nat) : Decode Nat := do
  if ← rcBit (prob + lenChoice) then
    if ← rcBit (prob + lenChoice2) then
      let len ← rcBitTreeDecode (prob + lenHigh) 8
      return len + (1 <<< 3 + 1 <<< 3)
    else
      let len ← rcBitTreeDecode (prob + lenMid + posState <<< 3) 3
      return len + 1 <<< 3
  else rcBitTreeDecode (prob + lenLow + posState <<< 3) 3

def directBits : (numBits rep0 : Nat) → Decode Nat
  | 0,rep0 => return rep0
  | numBits + 1,rep0 => do
    let bit ← rcDirectBit
    directBits numBits ((rep0 <<< 1 % 2 ^ 32) ||| bit)

def reverseBits (prob : Nat) : (numBits i mi rep0 : Nat) → Decode Nat
  | 0,_,_,rep0 => return rep0
  | numBits + 1,i,mi,rep0 => do
    let (one,mi) ← rcGetBit (prob + mi) mi
    reverseBits prob numBits (i <<< 1) mi (if one then rep0 ||| i else rep0)

def matchDistance (len : Nat) : Decode Nat := do
  let slot ← rcBitTreeDecode
    (posSlot + (if len < numLenToPosStates then len else numLenToPosStates - 1) <<< numPosSlotBits) numPosSlotBits
  if slot ≥ startPosModelIndex then
    let numBits := slot >>> 1 - 1
    let rep0 := 2 ||| (slot &&& 1)
    if slot < endPosModelIndex then
      let rep0 := rep0 <<< numBits % 2 ^ 32
      reverseBits (specPos + rep0 - slot - 1) numBits 1 1 rep0
    else
      let rep0 ← directBits (numBits - numAlignBits) rep0
      reverseBits align numAlignBits 1 1 (rep0 <<< numAlignBits % 2 ^ 32)
  else return slot

def copyMatch (rep0 : Nat) : (len : Nat) → σ → UInt8 → Except Failure (σ × UInt8)
  | 0,window,previousByte => return (window,previousByte)
  | len + 1,window,_ => do
    let previousByte ← w.peek window rep0
    let window ← w.put window previousByte
    if len ≠ 0 then
      if ← w.room window then copyMatch rep0 len window previousByte
      else return (window,previousByte)
    else return (window,previousByte)

def copy (len : Nat) (l : Locals σ) : Decode (Option (Locals σ)) := do
  let copied ← copyMatch w l.rep0 (len + matchMinLen) l.window l.previousByte
  return some { l with window := copied.1, previousByte := copied.2 }

/-- A match once its kind is known: the length, a new distance, the copy. There is no next
symbol after the end marker. -/
def lengthAndCopy (prob posState : Nat) (l : Locals σ) : Decode (Option (Locals σ)) := do
  let len ← matchLen prob posState
  if l.state < 4 then
    let rep0 ← matchDistance len
    if (rep0 + 1) % 2 ^ 32 = 0 then return none
    else copy w len { l with state := l.state + numLitStates, rep0 := (rep0 + 1) % 2 ^ 32 }
  else copy w len l

def symbol (l : Locals σ) : Decode (Option (Locals σ)) := do
  let posState := w.position l.window &&& (1 <<< h.pb - 1)
  if ← rcBit (isMatch + l.state <<< 4 + posState) then
    if ← rcBit (isRep + l.state) then
      let repState := if l.state < numLitStates then 8 else 11
      if ← rcBit (isRepG0 + l.state) then
        let l ← olderRep l
        lengthAndCopy w repLenCoder posState { l with state := repState }
      else if ← rcBit (isRep0Long + l.state <<< 4 + posState) then
        lengthAndCopy w repLenCoder posState { l with state := repState }
      else return some (← shortRep w l)
    else
      lengthAndCopy w lenCoder posState { l with
        rep1 := l.rep0, rep2 := l.rep1, rep3 := l.rep2, state := if l.state < numLitStates then 0 else 3 }
  else return some (← literal h w l)

structure Outcome (σ : Type) where
  failure : Option Failure
  window : σ

def step (s : Rc × Locals σ) : (Rc × Locals σ) ⊕ Outcome σ :=
  if w.position s.2.window < h.dstSize then
    match symbol h w s.2 s.1 with
    | .error failure => .inr ⟨some failure,s.2.window⟩
    | .ok (none,_) => .inr ⟨none,s.2.window⟩
    | .ok (some l,rc) => .inl (rc,l)
  else .inr ⟨none,s.2.window⟩

end

/-! The circular buffer. -/

structure Dictionary where
  buffer : Nat → UInt8
  bufferPos : Nat
  globalPos : Nat
  /-- what has been written to `dst_fd` -/
  written : List UInt8

def wrap (dictSize : Nat) : (turns pos : Nat) → Nat
  | 0,pos => pos
  | turns + 1,pos => if pos ≥ dictSize then wrap dictSize turns ((pos + dictSize) % 2 ^ 32) else pos

def dictionaryPos (dictSize bufferPos rep0 : Nat) : Nat :=
  wrap dictSize (2 ^ 32) ((bufferPos + (2 ^ 32 - rep0)) % 2 ^ 32)

def Header.capacity (h : Header) : Nat := min h.dstSize h.dictSize

def circular (h : Header) : Window Dictionary where
  position d := (d.bufferPos + d.globalPos) % 2 ^ 64
  peek d rep0 :=
    let pos := dictionaryPos h.dictSize d.bufferPos rep0
    if pos < h.capacity then .ok (d.buffer pos) else .error .undefined
  put d byte :=
    if d.bufferPos < h.capacity then
      let buffer := update d.buffer d.bufferPos byte
      if d.bufferPos + 1 = h.dictSize then
        .ok ⟨buffer,0,(d.globalPos + h.dictSize) % 2 ^ 64,d.written ++ (List.range h.dictSize).map buffer⟩
      else .ok { d with buffer := buffer, bufferPos := d.bufferPos + 1 }
    else .error .undefined
  room d := .ok (decide (d.bufferPos < h.dstSize))

/-! The program. -/

def littleEndian (bytes : List UInt8) : Nat := bytes.foldr (fun byte value => byte.toNat + 256 * value) 0

def readHeader (input : List UInt8) : Except Failure (Header × List UInt8) :=
  match input with
  | pos :: rest =>
    if rest.length < 12 then .error (.die "can't read header")
    else if pos.toNat ≥ 9 * 5 * 5 then .error (.die "bad header")
    else
      let mi := pos.toNat / 9
      let dictSize := littleEndian (rest.take 4)
      .ok (⟨pos.toNat % 9,mi % 5,mi / 5,if dictSize = 0 then 1 else dictSize,
        littleEndian ((rest.drop 4).take 8)⟩,rest.drop 12)
  | [] => .error (.die "can't read header")

def rcInit : (i : Nat) → Rc → Except Failure Rc
  | 0,rc => .ok rc
  | i + 1,rc =>
    match rc.input with
    | [] => .error unexpectedEof
    | byte :: input => rcInit i { rc with code := (rc.code <<< 8 % 2 ^ 32) ||| byte.toNat, input := input }

def start {σ : Type} (window : σ) (input : List UInt8) : Except Failure (Rc × Locals σ) := do
  let rc ← rcInit 5 ⟨0,0xFFFFFFFF,0,fun _ => .initial,input⟩
  return (rc,⟨window,0,0,1,1,1,1⟩)

structure Result where
  failure : Option Failure
  written : List UInt8
  deriving DecidableEq

/-- The last `write` and the return, or what has been written before a failure. -/
def finish (outcome : Outcome Dictionary) : Result :=
  match outcome.failure with
  | some failure => ⟨some failure,outcome.window.written⟩
  | none => ⟨none,outcome.window.written ++ (List.range outcome.window.bufferPos).map outcome.window.buffer⟩

/-- `unlzma`, for at most `fuel` symbols; `heap` is what `xmalloc` happens to return. -/
def unlzma (heap : Nat → UInt8) (fuel : Nat) (input : List UInt8) : Option Result :=
  match readHeader input with
  | .error failure => some ⟨some failure,[]⟩
  | .ok (h,rest) =>
    match start ⟨heap,0,0,[]⟩ rest with
    | .error failure => some ⟨some failure,[]⟩
    | .ok s => (exec (step h (circular h)) fuel s).map finish

end Stablebox.Unlzma
