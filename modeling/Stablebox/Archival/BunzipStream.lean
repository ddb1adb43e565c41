import Stablebox.Archival.BunzipVector

/-! `read_bunzip` over a whole stream of blocks. What is left of the stream and how it
will end do not change inside a call, so every call writes the next bytes of the texts,
wherever the buffers end. -/
namespace Stablebox.Bunzip2

open List Option Nat

/-! The run length code. -/

/-- A text and its code: up to three equal bytes stand for themselves, four or more are
four bytes and a count of the others. -/
inductive RunLength : (text data : List UInt8) → Prop where
  | nil : RunLength [] []
  | short (n : Nat) (b : UInt8) (text data : List UInt8) (few : n ≤ 2) (ends : text.head? ≠ some b)
      (rest : RunLength text data) :
      RunLength (replicate (n + 1) b ++ text) (replicate (n + 1) b ++ data)
  | long (count b : UInt8) (text data : List UInt8) (rest : RunLength text data) :
      RunLength (replicate (4 + count.toNat) b ++ text) (replicate 4 b ++ count :: data)

def unrle : (countdown : Int) → (previous : UInt8) → List UInt8 → List UInt8
  | _,_,[] => []
  | countdown,previous,b :: data =>
    if countdown - 1 ≠ 0 then b :: unrle (if b ≠ previous then 4 else countdown - 1) b data
    else replicate b.toNat previous ++ unrle 5 previous data

theorem unrle_same (countdown : Int) (b : UInt8) (n : Nat) (data : List UInt8) (room : n < countdown) :
    unrle countdown b (replicate n b ++ data) = replicate n b ++ unrle (countdown - n) b data := by
  induction n generalizing countdown with
  | zero => simp
  | succ n ih =>
    have more : countdown - 1 ≠ 0 := by omega
    rw [replicate_succ,cons_append,unrle,if_pos more,if_neg (by simp),ih _ (by omega)]
    congr 3
    omega

theorem unrle_first (countdown : Int) (previous b : UInt8) (data : List UInt8)
    (fresh : countdown = 5 ∨ 2 ≤ countdown ∧ previous ≠ b) :
    unrle countdown previous (b :: data) = b :: unrle 4 b data := by
  rcases fresh with rfl | ⟨more,differs⟩
  · simp [unrle]
  · rw [unrle,if_pos (by omega),if_pos differs.symm]

theorem unrle_runLength (text data : List UInt8) (code : RunLength text data) (countdown : Int) (previous : UInt8)
    (fresh : countdown = 5 ∨ 2 ≤ countdown ∧ text.head? ≠ some previous) : unrle countdown previous data = text := by
  induction code generalizing countdown previous with
  | nil => rfl
  | short n b text data few ends rest ih =>
    have start : countdown = 5 ∨ 2 ≤ countdown ∧ previous ≠ b := by
      rcases fresh with five | ⟨more,differs⟩
      · exact .inl five
      · exact .inr ⟨more,fun same => differs (congrArg some same.symm)⟩
    rw [replicate_succ,cons_append,unrle_first _ _ _ _ start,unrle_same _ _ _ _ (by omega),
      ih _ b (.inr ⟨by omega,ends⟩),cons_append]
  | long count b text data rest ih =>
    have start : countdown = 5 ∨ 2 ≤ countdown ∧ previous ≠ b := by
      rcases fresh with five | ⟨more,differs⟩
      · exact .inl five
      · rw [add_comm,replicate_succ] at differs
        exact .inr ⟨more,fun same => differs (congrArg some same.symm)⟩
    have last : unrle 1 b (count :: data) = replicate count.toNat b ++ text := by
      rw [unrle,if_neg (by decide),ih 5 b (.inl rfl)]
    rw [replicate_succ,cons_append,unrle_first _ _ _ _ start,unrle_same _ _ _ _ (by decide)]
    show b :: (replicate 3 b ++ unrle 1 b (count :: data)) = _
    rw [last,replicate_add,append_assoc]
    rfl

theorem runLength_length (code : RunLength text data) : 4 * data.length ≤ 5 * text.length := by
  induction code with
  | nil => simp
  | short n b text data few ends rest ih =>
    simp only [length_append,length_replicate]
    omega
  | long count b text data rest ih =>
    simp only [length_append,length_replicate,length_cons]
    omega

/-! The checksum. -/

/-- The checksum of a block: polynomial division of its bits, both ends inverted. -/
def blockCRC (text : List UInt8) : BitVec 32 := ~~~ text.foldl (Crc.feed 0x04c11db7) (~~~ 0)

theorem crcStep_big (polynomial c : BitVec 32) : crcStep true polynomial c = Crc.shift polynomial c := by
  have top : c &&& 0x80000000 ≠ 0 ↔ c.msb = true := by
    have bit := BitVec.and_twoPow c 31
    rw [show BitVec.twoPow 32 31 = 0x80000000 from rfl] at bit
    rw [bit,BitVec.msb_eq_getLsbD_last]
    cases c.getLsbD 31 <;> decide
  by_cases high : c.msb = true
  · simp only [crcStep,Crc.shift,if_true,high,if_pos (top.mpr high)]
  · simp only [crcStep,Crc.shift,if_true,if_neg high,if_neg (mt top.mp high)]

theorem shifts_iterate (polynomial c : BitVec 32) (n : Nat) :
    (crcStep true polynomial)^[n] c = Crc.shifts polynomial n c := by
  induction n generalizing c with
  | zero => rfl
  | succ n ih => rw [Function.iterate_succ_apply,ih,crcStep_big,Crc.shifts]

theorem fillTable_getD (bound : index < 256) :
    (bbCrc32FillTable true).getD index 0 = Crc.shifts 0x04c11db7 8 (BitVec.ofNat 32 index <<< 24) := by
  rw [bbCrc32FillTable,getD_eq_getElem?_getD,getElem?_map,getElem?_range bound,map_some,
    getD_some,if_pos rfl,if_pos rfl,shifts_iterate]

theorem updateCRC_feed (crc : BitVec 32) (byte : UInt8) :
    updateCRC (bbCrc32FillTable true) crc byte = Crc.feed 0x04c11db7 crc byte := by
  have bound : ((crc >>> 24) ^^^ byte.toBitVec.setWidth 32).toNat < 256 := by
    have high : crc.toNat >>> 24 < 2 ^ 8 := by
      omega
    have low : (byte.toBitVec.setWidth 32).toNat < 2 ^ 8 := by
      rw [BitVec.toNat_setWidth]
      omega
    exact xor_lt_two_pow high low
  rw [updateCRC,fillTable_getD bound,Crc.feed_table,BitVec.ofNat_toNat,BitVec.setWidth_eq]

/-! The stream and how it ends. -/

structure Chunk where
  headerCRC : BitVec 32
  text : List UInt8

/-- The bytes of a block, as the first half of `get_next_block` leaves them. -/
inductive Codes : Chunk → Decoded → Prop where
  | block (headerCRC : BitVec 32) (text data : List UInt8) (origPtr : Nat) (code : RunLength text data)
      (original : data ≠ [] → Original data origPtr) (bound : data.length < 2 ^ 23) :
      Codes ⟨headerCRC,text⟩ (.block headerCRC origPtr (burrowsWheeler data))

/-- The blocks that come before the stream stops. -/
inductive Follows (retval : Int) (lastCRC : BitVec 32) : List Decoded → List Chunk → Prop where
  | stops (rest : List Decoded) (negative : retval < 0) : Follows retval lastCRC (.stops retval lastCRC :: rest) []
  | block (chunk : Chunk) (chunks : List Chunk) (decoded : Decoded) (rest : List Decoded)
      (codes : Codes chunk decoded) (follows : Follows retval lastCRC rest chunks) :
      Follows retval lastCRC (decoded :: rest) (chunk :: chunks)

/-- What is left when the stream is over. `mismatch` is a wrong checksum in a header. -/
structure Ending where
  writeCRC : BitVec 32
  totalCRC : BitVec 32
  headerCRC : BitVec 32
  code : Int
  mismatch : Bool

def Ending.value (ending : Ending) (gotcount : Nat) : Int :=
  if ending.mismatch then retvalLastBlock
  else if ending.code ≠ retvalLastBlock then ending.code else gotcount

def rotate (crc : BitVec 32) : BitVec 32 := (crc <<< 1) ||| (crc >>> 31)

section

variable (retval : Int) (lastCRC : BitVec 32)

def delivered : List Chunk → List UInt8
  | [] => []
  | chunk :: rest => chunk.text ++ if blockCRC chunk.text = chunk.headerCRC then delivered rest else []

def remains (headerCRC : BitVec 32) (before todo : List UInt8) (chunks : List Chunk) : List UInt8 :=
  todo ++ if blockCRC (before ++ todo) = headerCRC then delivered chunks else []

def endingFrom : (writeCRC totalCRC : BitVec 32) → List Chunk → Ending
  | writeCRC,totalCRC,[] => ⟨writeCRC,totalCRC,lastCRC,retval,false⟩
  | _,totalCRC,chunk :: rest =>
    let crc := blockCRC chunk.text
    if crc = chunk.headerCRC then endingFrom crc (rotate totalCRC ^^^ crc) rest
    else ⟨crc,chunk.headerCRC + 1,chunk.headerCRC,retvalLastBlock,true⟩

/-- A call has ended: the stream is over, or a byte is waiting. -/
inductive Suspended : BunzipData → (stream : List UInt8) → Ending → Prop where
  | closed (bd : BunzipData) (ending : Ending) (negative : bd.writeCount < 0)
      (same : ending.writeCRC = bd.writeCRC ∧ ending.totalCRC = bd.totalCRC ∧ ending.headerCRC = bd.headerCRC ∧
        ending.code = bd.writeCount) : Suspended bd [] ending
  | waiting (bd : BunzipData) (copies : Nat) (before todo data : List UInt8) (chunks : List Chunk)
      (walk : Walk bd.dbuf bd.writePos data) (count : bd.writeCount = data.length)
      (waits : bd.writeCopies = copies + 1)
      (shape : todo = replicate (copies + 1) bd.writeCurrent ++ unrle bd.writeRunCountdown bd.writeCurrent data)
      (table : bd.crc32Table = bbCrc32FillTable true)
      (crc : bd.writeCRC = before.foldl (Crc.feed 0x04c11db7) (~~~ 0))
      (follows : Follows retval lastCRC bd.input chunks) :
      Suspended bd (remains bd.headerCRC before todo chunks)
        (endingFrom retval lastCRC bd.writeCRC bd.totalCRC (⟨bd.headerCRC,before ++ todo⟩ :: chunks))

section

variable (len : Nat) (stream : List UInt8) (ending : Ending)

structure Inside (f : Frame) (before todo : List UInt8) (chunks : List Chunk) : Prop where
  table : f.bd.crc32Table = bbCrc32FillTable true
  crc : f.bd.writeCRC = before.foldl (Crc.feed 0x04c11db7) (~~~ 0)
  follows : Follows retval lastCRC f.bd.input chunks
  room : f.outbuf.length ≤ len
  rest : stream = f.outbuf ++ remains f.bd.headerCRC before todo chunks
  ends : ending = endingFrom retval lastCRC f.bd.writeCRC f.bd.totalCRC (⟨f.bd.headerCRC,before ++ todo⟩ :: chunks)

/-- Between the steps of a call the stream and its ending stay the same, and the weight
goes down. -/
inductive Keeps : Nat × Nat → Frame → Prop where
  | output (f : Frame) (before todo data : List UInt8) (chunks : List Chunk) (label : f.label = .output)
      (walk : Walk f.bd.dbuf f.pos data) (count : f.bd.writeCount = data.length)
      (shape : todo = replicate (f.bd.writeCopies + 1) f.current ++ unrle f.bd.writeRunCountdown f.current data)
      (inside : Inside retval lastCRC len stream ending f before todo chunks) :
      Keeps (f.bd.input.length,2 + todo.length + data.length) f
  | decode (f : Frame) (before todo data : List UInt8) (chunks : List Chunk) (label : f.label = .decodeNextByte)
      (walk : Walk f.bd.dbuf f.pos data) (count : f.bd.writeCount = data.length) (copies : f.bd.writeCopies = 0)
      (shape : todo = unrle f.bd.writeRunCountdown f.current data)
      (inside : Inside retval lastCRC len stream ending f before todo chunks) :
      Keeps (f.bd.input.length,2 + todo.length + data.length) f
  | blockDone (f : Frame) (text : List UInt8) (chunks : List Chunk) (label : f.label = .blockDone)
      (count : f.bd.writeCount = -1) (copies : f.bd.writeCopies = 0)
      (inside : Inside retval lastCRC len stream ending f text [] chunks) :
      Keeps (f.bd.input.length,1) f
  | refill (f : Frame) (chunks : List Chunk) (label : f.label = .refill)
      (copies : f.bd.writeCopies = 0) (table : f.bd.crc32Table = bbCrc32FillTable true)
      (follows : Follows retval lastCRC f.bd.input chunks) (room : f.outbuf.length ≤ len)
      (rest : stream = f.outbuf ++ delivered chunks)
      (ends : ending = endingFrom retval lastCRC f.bd.writeCRC f.bd.totalCRC chunks) :
      Keeps (f.bd.input.length,0) f

/-- What a call returns: the next bytes of the stream, and a state for the others. -/
def Ends : Option ReadResult → Prop
  | none => False
  | some r => r.outbuf = stream.take len ∧ Suspended retval lastCRC r.bd (stream.drop len) ending ∧
    r.value = if len < stream.length then (len : Int) else ending.value stream.length

def Turns (w : Nat × Nat) (f : Frame) : Prop :=
  (∃ lighter next, step len f = .inl next ∧ Keeps retval lastCRC len stream ending lighter next ∧
    Prod.Lex (· < ·) (· < ·) lighter w) ∨
  ∃ result, step len f = .inr result ∧ Ends retval lastCRC len stream ending result

end

variable {retval lastCRC} {len : Nat} {stream : List UInt8} {ending : Ending}

theorem remains_cons (headerCRC : BitVec 32) (before todo : List UInt8) (b : UInt8) (chunks : List Chunk) :
    remains headerCRC before (b :: todo) chunks = b :: remains headerCRC (before ++ [b]) todo chunks := by
  simp [remains]

def Frame.write (f : Frame) (label : Label) (copies : Nat) : Frame :=
  { f with
    label := label, outbuf := f.outbuf ++ [f.current],
    bd := { f.bd with
      writeCRC := updateCRC f.bd.crc32Table f.bd.writeCRC f.current, writeCopies := copies } }

variable {f : Frame} {chunks : List Chunk}

theorem Inside.write (inside : Inside retval lastCRC len stream ending f before (f.current :: todo) chunks)
    (space : f.outbuf.length < len) (label : Label) (copies : Nat) :
    Inside retval lastCRC len stream ending (f.write label copies) (before ++ [f.current]) todo chunks  where
  table := inside.table
  crc := by
    show updateCRC f.bd.crc32Table f.bd.writeCRC f.current = _
    rw [inside.table,updateCRC_feed,inside.crc,foldl_append]
    rfl
  follows := inside.follows
  room := by
    show (f.outbuf ++ [f.current]).length ≤ len
    rw [length_append,length_singleton]
    omega
  rest := by
    show stream = f.outbuf ++ [f.current] ++ remains f.bd.headerCRC (before ++ [f.current]) todo chunks
    rw [append_assoc,inside.rest,remains_cons,singleton_append]
  ends := by
    rw [inside.ends,append_assoc]
    rfl

theorem turns_output (label : f.label = .output) (walk : Walk f.bd.dbuf f.pos data)
    (count : f.bd.writeCount = data.length)
    (shape : todo = replicate (f.bd.writeCopies + 1) f.current ++ unrle f.bd.writeRunCountdown f.current data)
    (inside : Inside retval lastCRC len stream ending f before todo chunks) :
    Turns retval lastCRC len stream ending (f.bd.input.length,2 + todo.length + data.length) f := by
  by_cases full : f.outbuf.length ≥ len
  · have size : f.outbuf.length = len := le_antisymm inside.room full
    have done : step len f = .inr (some ⟨len,f.outbuf,{ f.bd with
        writePos := f.pos, writeCurrent := f.current, writeCopies := f.bd.writeCopies + 1 }⟩) := by
      simp only [step,label,if_pos full]
    refine .inr ⟨_,done,?_,?_,?_⟩
    · rw [inside.rest,← size,take_left]
    · rw [inside.rest,← size,drop_left,inside.ends]
      exact .waiting _ f.bd.writeCopies before todo data chunks walk count rfl shape inside.table inside.crc
        inside.follows
    · simp only [inside.rest,remains,shape,length_append,length_replicate]
      omega
  · have front : todo = f.current :: (replicate f.bd.writeCopies f.current ++
        unrle f.bd.writeRunCountdown f.current data) := by
      rw [shape,replicate_succ,cons_append]
    rw [front] at inside
    have written := inside.write (lt_of_not_ge full)
    cases more : f.bd.writeCopies with
    | zero =>
      have goes : step len f = .inl (f.write .decodeNextByte 0) := by
        simp [step,label,full,more,Frame.write]
      rw [more,replicate_zero,nil_append] at front written
      refine .inl ⟨_,_,goes,.decode _ _ _ data chunks rfl walk count rfl rfl (written .decodeNextByte 0),?_⟩
      exact .right _ (by rw [front,length_cons]; exact Nat.add_lt_add_right (Nat.lt_succ_self _) _)
    | succ copies =>
      have goes : step len f = .inl (f.write .output copies) := by
        simp [step,label,full,more,Frame.write]
      rw [more] at front written
      refine .inl ⟨_,_,goes,.output _ _ _ data chunks rfl walk count rfl (written .output copies),?_⟩
      exact .right _ (by rw [front,length_cons]; exact Nat.add_lt_add_right (Nat.lt_succ_self _) _)

theorem turns_decode (label : f.label = .decodeNextByte) (walk : Walk f.bd.dbuf f.pos data)
    (count : f.bd.writeCount = data.length) (copies : f.bd.writeCopies = 0)
    (shape : todo = unrle f.bd.writeRunCountdown f.current data)
    (inside : Inside retval lastCRC len stream ending f before todo chunks) :
    Turns retval lastCRC len stream ending (f.bd.input.length,2 + todo.length + data.length) f := by
  obtain ⟨table,crc,follows,room,rest,ends⟩ := inside
  cases data with
  | nil =>
    have goes : step len f =
        .inl { f with bd := { f.bd with writeCount := f.bd.writeCount - 1 }, label := .blockDone } := by
      simp [step,label,count]
    rw [unrle] at shape
    subst shape
    refine .inl ⟨_,_,goes,.blockDone _ before chunks rfl (by simp [count]) copies ?_,.right _ (by decide)⟩
    exact ⟨table,crc,follows,room,rest,by simpa using ends⟩
  | cons b data =>
    obtain ⟨next,reads,walk⟩ := walk
    have nonzero : f.bd.writeCount ≠ 0 := by rw [count,length_cons]; omega
    have left : f.bd.writeCount - 1 = data.length := by rw [count,length_cons]; omega
    rw [unrle] at shape
    by_cases more : f.bd.writeRunCountdown - 1 ≠ 0
    · have goes : step len f = .inl { f with
          bd := { f.bd with
            writeCount := f.bd.writeCount - 1
            writeRunCountdown := if b ≠ f.current then 4 else f.bd.writeRunCountdown - 1 }
          pos := next, current := b, label := .output } := by
        simp only [step,label,if_neg nonzero,reads,if_pos more]
      rw [if_pos more] at shape
      refine .inl ⟨_,_,goes,.output _ before todo data chunks rfl walk left ?_ ⟨table,crc,follows,room,rest,ends⟩,?_⟩
      · rw [shape,copies]
        rfl
      · exact .right _ (by rw [length_cons]; omega)
    · rw [if_neg more] at shape
      by_cases zero : b.toNat = 0
      · have goes : step len f = .inl { f with
            bd := { f.bd with writeCount := f.bd.writeCount - 1, writeCopies := b.toNat, writeRunCountdown := 5 }
            pos := next } := by
          simp only [step,label,if_neg nonzero,reads,if_neg more,if_pos zero]
        rw [zero,replicate_zero,nil_append] at shape
        refine .inl ⟨_,_,goes,.decode _ before todo data chunks label walk left zero shape
          ⟨table,crc,follows,room,rest,ends⟩,?_⟩
        exact .right _ (by rw [length_cons]; omega)
      · have goes : step len f = .inl { f with
            bd := { f.bd with
              writeCount := f.bd.writeCount - 1, writeCopies := b.toNat - 1, writeRunCountdown := 5 }
            pos := next, label := .output } := by
          simp only [step,label,if_neg nonzero,reads,if_neg more,if_neg zero]
        refine .inl ⟨_,_,goes,.output _ before todo data chunks rfl walk left ?_
          ⟨table,crc,follows,room,rest,ends⟩,?_⟩
        · rw [shape]
          rw [Nat.sub_add_cancel (Nat.pos_of_ne_zero zero)]
        · exact .right _ (by rw [length_cons]; omega)

theorem turns_blockDone (label : f.label = .blockDone) (count : f.bd.writeCount = -1) (copies : f.bd.writeCopies = 0)
    (inside : Inside retval lastCRC len stream ending f text [] chunks) :
    Turns retval lastCRC len stream ending (f.bd.input.length,1) f := by
  obtain ⟨table,crc,follows,room,rest,ends⟩ := inside
  have sum : ~~~ f.bd.writeCRC = blockCRC text := by rw [crc,blockCRC]
  rw [remains,nil_append,append_nil] at rest
  rw [append_nil,endingFrom] at ends
  by_cases right : blockCRC text = f.bd.headerCRC
  · have goes : step len f = .inl { f with
        bd := { f.bd with
          writeCRC := blockCRC text, totalCRC := rotate f.bd.totalCRC ^^^ blockCRC text }
        label := .refill } := by
      simp [step,label,sum,right,rotate]
    rw [if_pos right] at rest
    refine .inl ⟨_,_,goes,.refill _ chunks rfl copies table follows room rest ?_,.right _ (by decide)⟩
    rw [ends]
    exact if_pos right
  · have done : step len f = .inr (some ⟨retvalLastBlock,f.outbuf,{ f.bd with
        writeCRC := blockCRC text, totalCRC := f.bd.headerCRC + 1 }⟩) := by
      simp [step,label,sum,right]
    rw [if_neg right,append_nil] at rest
    have value : ending = ⟨blockCRC text,f.bd.headerCRC + 1,f.bd.headerCRC,retvalLastBlock,true⟩ := by
      rw [ends]
      exact if_neg right
    rw [← rest] at room
    refine .inr ⟨_,done,?_,?_,?_⟩
    · rw [take_of_length_le room,rest]
    · rw [drop_of_length_le room,value]
      exact .closed _ _ (by show f.bd.writeCount < 0; rw [count]; decide) ⟨rfl,rfl,rfl,count.symm⟩
    · rw [if_neg (by omega),value]
      rfl

structure Prepared (bd : BunzipData) (chunk : Chunk) (data : List UInt8) (rest : List Decoded)
    (prepared : BunzipData) : Prop where
  input : prepared.input = rest
  header : prepared.headerCRC = chunk.headerCRC
  total : prepared.totalCRC = bd.totalCRC
  copies : prepared.writeCopies = bd.writeCopies
  table : prepared.crc32Table = bd.crc32Table
  walk : Walk prepared.dbuf prepared.writePos data
  count : prepared.writeCount = data.length
  text : unrle prepared.writeRunCountdown prepared.writeCurrent data = chunk.text

variable {bd : BunzipData}

theorem getNextBlock_block (codes : Codes chunk decoded) (here : bd.input = decoded :: rest) :
    ∃ data prepared, getNextBlock bd = some (retvalOk,prepared) ∧ Prepared bd chunk data rest prepared := by
  obtain ⟨headerCRC,text,data,origPtr,code,original,bound⟩ := codes
  have length := burrowsWheeler_length data
  by_cases empty : data = []
  · subst empty
    have nothing := unrle_runLength text [] code 5 0 (.inl rfl)
    have fills : getNextBlock bd = some (retvalOk,{ bd with
        headerCRC := headerCRC, input := rest, dbuf := sequenceVector (burrowsWheeler []), writeCount := 0 }) := by
      simp only [getNextBlock,here]
      exact if_pos length
    exact ⟨[],_,fills,rfl,rfl,rfl,rfl,rfl,trivial,rfl,nothing⟩
  · obtain ⟨first,pos,reads,walk⟩ := sequenceVector_walk (original empty) bound
    have inside : ¬ origPtr ≥ (burrowsWheeler data).length := by
      have small := (List.getElem?_eq_some_iff.mp (original empty)).1
      rw [BurrowsWheeler.matrix_length,length_map] at small
      omega
    have fills : getNextBlock bd = some (retvalOk,{ bd with
        headerCRC := headerCRC, input := rest, dbuf := sequenceVector (burrowsWheeler data), writePos := pos,
        writeCurrent := first, writeRunCountdown := 5, writeCount := (burrowsWheeler data).length }) := by
      simp only [getNextBlock,here]
      rw [if_neg (by omega),if_neg inside,reads]
    exact ⟨data,_,fills,rfl,rfl,rfl,rfl,rfl,walk,congrArg Int.ofNat length,
      unrle_runLength text data code 5 first (.inl rfl)⟩

theorem turns_refill (label : f.label = .refill) (copies : f.bd.writeCopies = 0)
    (table : f.bd.crc32Table = bbCrc32FillTable true) (follows : Follows retval lastCRC f.bd.input chunks)
    (room : f.outbuf.length ≤ len) (rest : stream = f.outbuf ++ delivered chunks)
    (ends : ending = endingFrom retval lastCRC f.bd.writeCRC f.bd.totalCRC chunks) :
    Turns retval lastCRC len stream ending (f.bd.input.length,0) f := by
  generalize here : f.bd.input = input at follows
  cases follows with
  | stops later negative =>
    have code : retval ≠ retvalOk := Int.ne_of_lt negative
    have done : step len f = .inr (some ⟨if retval ≠ retvalLastBlock then retval else f.outbuf.length,f.outbuf,
        { f.bd with headerCRC := lastCRC, input := later, writeCount := retval }⟩) := by
      simp only [step,label,getNextBlock,here,if_pos code]
    rw [delivered,append_nil] at rest
    rw [← rest] at room
    refine .inr ⟨_,done,?_,?_,?_⟩
    · rw [take_of_length_le room,rest]
    · rw [drop_of_length_le room,ends]
      exact .closed _ _ negative ⟨rfl,rfl,rfl,rfl⟩
    · rw [if_neg (Nat.not_lt_of_le room),ends,rest]
      rfl
  | block chunk chunks decoded later codes follows =>
    obtain ⟨data,bd,fills,prepared⟩ := getNextBlock_block codes here
    have goes : step len f = .inl { f with
        bd := { bd with writeCRC := ~~~ 0 }, pos := bd.writePos, current := bd.writeCurrent,
        label := .decodeNextByte } := by
      simp only [step,label,fills]
      rfl
    refine .inl ⟨_,_,goes,.decode _ [] chunk.text data chunks rfl prepared.walk prepared.count
      (prepared.copies.trans copies) prepared.text.symm
      ⟨prepared.table.trans table,rfl,by rw [← prepared.input] at follows; exact follows,room,?_,?_⟩,?_⟩
    · rw [rest]
      rw [prepared.header]
      rfl
    · rw [ends]
      rw [prepared.header,prepared.total]
      rfl
    · refine .left _ _ ?_
      rw [prepared.input,length_cons]
      exact Nat.lt_succ_self _

theorem keeps_turns (w : Nat × Nat) (f : Frame) (kept : Keeps retval lastCRC len stream ending w f) :
    Turns retval lastCRC len stream ending w f := by
  cases kept with
  | output _ _ _ _ _ label walk count shape inside => exact turns_output label walk count shape inside
  | decode _ _ _ _ _ label walk count copies shape inside => exact turns_decode label walk count copies shape inside
  | blockDone _ _ _ label count copies inside => exact turns_blockDone label count copies inside
  | refill _ _ label copies table follows room rest ends =>
    exact turns_refill label copies table follows room rest ends

theorem keeps_yields (w : Nat × Nat) (f : Frame) (kept : Keeps retval lastCRC len stream ending w f) :
    ∃ result, Yields (step len) f result ∧ Ends retval lastCRC len stream ending result :=
  yields_of_weight (WellFounded.prod_lex lt_wfRel.wf lt_wfRel.wf) _ _ keeps_turns w f kept

inductive Pending (retval : Int) (lastCRC : BitVec 32) : BunzipData → (stream : List UInt8) → Ending → Prop where
  | idle (bd : BunzipData) (chunks : List Chunk) (count : bd.writeCount = 0) (copies : bd.writeCopies = 0)
      (table : bd.crc32Table = bbCrc32FillTable true) (follows : Follows retval lastCRC bd.input chunks) :
      Pending retval lastCRC bd (delivered chunks) (endingFrom retval lastCRC bd.writeCRC bd.totalCRC chunks)
  | suspended (bd : BunzipData) (stream : List UInt8) (ending : Ending)
      (suspended : Suspended retval lastCRC bd stream ending) : Pending retval lastCRC bd stream ending

/-- What a call with enough fuel comes to: the return value is the number of bytes written
until the stream is over, and its code from then on. -/
structure Served (retval : Int) (lastCRC : BitVec 32) (bd : BunzipData) (len : Nat) (stream : List UInt8)
    (ending : Ending) (r : ReadResult) : Prop where
  outbuf : r.outbuf = stream.take len
  suspended : Suspended retval lastCRC r.bd (stream.drop len) ending
  value : r.value =
    if bd.writeCount < 0 then ending.code
    else if len < stream.length then (len : Int) else ending.value stream.length

theorem readBunzip_of_yields (starts : entry bd = .inl f) (yields : Yields (step len) f (some r)) :
    ∃ enough, ∀ fuel ≥ enough, readBunzip fuel bd len = some r := by
  obtain ⟨enough,done⟩ := yields
  refine ⟨enough,fun fuel le => ?_⟩
  have more := exec_more enough (fuel - enough) f (some r) done
  rw [Nat.add_sub_cancel' le] at more
  rw [readBunzip,starts]
  simp only [more,join_some]

theorem served_of_keeps (starts : entry bd = .inl f) (kept : Keeps retval lastCRC len stream ending w f)
    (opened : ¬ bd.writeCount < 0) :
    ∃ r enough, (∀ fuel ≥ enough, readBunzip fuel bd len = some r) ∧
      Served retval lastCRC bd len stream ending r := by
  obtain ⟨result,yields,ends⟩ := keeps_yields w f kept
  cases result with
  | none => exact ends.elim
  | some r =>
    obtain ⟨enough,reads⟩ := readBunzip_of_yields starts yields
    exact ⟨r,enough,reads,ends.1,ends.2.1,by rw [if_neg opened]; exact ends.2.2⟩

theorem readBunzip_served (bd : BunzipData) (len : Nat) (pending : Pending retval lastCRC bd stream ending) :
    ∃ r enough, (∀ fuel ≥ enough, readBunzip fuel bd len = some r) ∧
      Served retval lastCRC bd len stream ending r := by
  cases pending with
  | idle chunks count copies table follows =>
    have opened : ¬ bd.writeCount < 0 := by omega
    have starts : entry bd = .inl ⟨.refill,bd,bd.writePos,bd.writeCurrent,[]⟩ := by
      rw [entry,if_neg opened,if_neg (not_not_intro copies)]
    exact served_of_keeps starts
      (.refill _ chunks rfl copies table follows (zero_le len) rfl rfl) opened
  | suspended _ _ suspended =>
    cases suspended with
    | closed _ negative same =>
      refine ⟨⟨bd.writeCount,[],bd⟩,0,fun fuel _ => by rw [readBunzip,entry,if_pos negative],?_⟩
      refine ⟨take_nil.symm,?_,by rw [if_pos negative]; exact same.2.2.2.symm⟩
      rw [drop_nil]
      exact .closed bd ending negative same
    | waiting copies before todo data chunks walk count waits shape table crc follows =>
      have opened : ¬ bd.writeCount < 0 := by omega
      have starts : entry bd =
          .inl ⟨.output,{ bd with writeCopies := copies },bd.writePos,bd.writeCurrent,[]⟩ := by
        rw [entry,if_neg opened,if_pos (by omega),waits,Nat.add_sub_cancel]
      exact served_of_keeps starts
        (.output _ before todo data chunks rfl walk count shape
          ⟨table,crc,follows,zero_le len,rfl,rfl⟩) opened

/-- Successive calls with buffers of these sizes, and the structure after the last one. -/
def readAll (fuel : Nat) : BunzipData → (sizes : List Nat) → Option (List ReadResult × BunzipData)
  | bd,[] => some ([],bd)
  | bd,len :: sizes =>
    match readBunzip fuel bd len with
    | none => none
    | some r => (readAll fuel r.bd sizes).map fun (results,last) => (r :: results,last)

def written (results : List ReadResult) : List UInt8 := results.flatMap ReadResult.outbuf

theorem readAll_written (bd : BunzipData) (sizes : List Nat) (pending : Pending retval lastCRC bd stream ending) :
    ∃ results last enough, (∀ fuel ≥ enough, readAll fuel bd sizes = some (results,last)) ∧
      written results = stream.take sizes.sum ∧
      Pending retval lastCRC last (stream.drop sizes.sum) ending ∧
      (sizes ≠ [] → Suspended retval lastCRC last (stream.drop sizes.sum) ending) := by
  induction sizes generalizing bd stream with
  | nil => exact ⟨[],bd,0,fun _ _ => rfl,by simp [written],by simpa using pending,by simp⟩
  | cons len sizes ih =>
    obtain ⟨r,enough,reads,served⟩ := readBunzip_served bd len pending
    obtain ⟨results,last,more,all,wrote,left,ended⟩ := ih r.bd (.suspended _ _ _ served.suspended)
    refine ⟨r :: results,last,max enough more,fun fuel le => ?_,?_,?_,fun _ => ?_⟩
    · rw [readAll,reads fuel (le_trans (le_max_left ..) le)]
      simp only [all fuel (le_trans (le_max_right ..) le),map_some]
    · rw [written,flatMap_cons,← written,served.outbuf,wrote,sum_cons,take_add]
    · rw [sum_cons,← drop_drop]
      exact left
    rw [sum_cons,← drop_drop]
    cases sizes with
    | nil =>
      have same : last = r.bd := by
        have := all (max enough more) (le_max_right ..)
        simp only [readAll,some.injEq,Prod.mk.injEq] at this
        exact this.2.symm
      simpa [same] using served.suspended
    | cons next sizes => exact ended (by simp)

theorem suspended_nil (suspended : Suspended retval lastCRC bd [] ending) :
    bd.writeCRC = ending.writeCRC ∧ bd.totalCRC = ending.totalCRC ∧ bd.headerCRC = ending.headerCRC ∧
      bd.writeCount = ending.code := by
  generalize empty : ([] : List UInt8) = nothing at suspended
  cases suspended with
  | closed _ negative same => exact ⟨same.1.symm,same.2.1.symm,same.2.2.1.symm,same.2.2.2.symm⟩
  | waiting copies before todo data chunks walk count waits shape =>
    rw [remains,shape,replicate_succ] at empty
    cases empty

end

/-- A block is reversed wherever the buffers end: the calls write its text, before whatever
the next blocks hold, and a block that is the last one read leaves its checksum. -/
theorem block_reversed (bd : BunzipData) (text data : List UInt8) (headerCRC : BitVec 32) (origPtr : Nat)
    (later : List Decoded) (chunks : List Chunk) (retval : Int) (lastCRC : BitVec 32) (sizes : List Nat)
    (count : bd.writeCount = 0) (copies : bd.writeCopies = 0) (table : bd.crc32Table = bbCrc32FillTable true)
    (blockSize : bd.dbufSize ≤ 900000) (short : text.length + 20 ≤ bd.dbufSize) (code : RunLength text data)
    (original : data ≠ [] → Original data origPtr)
    (input : bd.input = .block headerCRC origPtr (burrowsWheeler data) :: later)
    (follows : Follows retval lastCRC later chunks) :
    ∃ results last enough, (∀ fuel ≥ enough, readAll fuel bd sizes = some (results,last)) ∧
      (written results).take text.length = text.take sizes.sum ∧
      (chunks = [] ∨ blockCRC text ≠ headerCRC →
        written results = text.take sizes.sum ∧
        (sizes ≠ [] → text.length ≤ sizes.sum → last.writeCRC = blockCRC text)) := by
  have bound : data.length < 2 ^ 23 := by
    have longer := runLength_length code
    omega
  have codes : Codes ⟨headerCRC,text⟩ (.block headerCRC origPtr (burrowsWheeler data)) :=
    .block headerCRC text data origPtr code original bound
  have pending := Pending.idle bd (⟨headerCRC,text⟩ :: chunks) count copies table
    (by rw [input]; exact .block _ _ _ _ codes follows)
  obtain ⟨results,last,enough,all,wrote,_,ended⟩ := readAll_written bd sizes pending
  refine ⟨results,last,enough,all,?_,fun final => ?_⟩
  · rw [wrote,take_take,min_comm,← take_take,delivered,take_left]
  have whole : delivered (⟨headerCRC,text⟩ :: chunks) = text := by
    rcases final with rfl | wrong
    · simp [delivered]
    · simp [delivered,wrong]
  have crc : (endingFrom retval lastCRC bd.writeCRC bd.totalCRC (⟨headerCRC,text⟩ :: chunks)).writeCRC =
      blockCRC text := by
    by_cases right : blockCRC text = headerCRC
    · rcases final with rfl | wrong
      · simp [endingFrom,right]
      · exact absurd right wrong
    · simp [endingFrom,right]
  rw [whole] at wrote ended
  refine ⟨wrote,fun called long => ?_⟩
  have spent := ended called
  rw [drop_of_length_le long] at spent
  rw [(suspended_nil spent).1,crc]

theorem block_reversed_sample :
    Original [97,97,97,97,2,98] 4 ∧
    ∃ results last enough, (∀ fuel ≥ enough,
        readAll fuel (startBunzip 0 [.block 0 4 (burrowsWheeler [97,97,97,97,2,98]),.stops retvalLastBlock 0])
          [1,4,9] = some (results,last)) ∧
      written results = [97,97,97,97,97,97,98] ∧ last.writeCRC = blockCRC [97,97,97,97,97,97,98] := by
  have original : Original [97,97,97,97,2,98] 4 := by decide +kernel
  have code : RunLength [97,97,97,97,97,97,98] [97,97,97,97,2,98] :=
    .long 2 97 [98] [98] (.short 0 98 [] [] (by decide) (by simp) .nil)
  obtain ⟨results,last,enough,all,_,final⟩ :=
    block_reversed (startBunzip 0 [.block 0 4 (burrowsWheeler [97,97,97,97,2,98]),.stops retvalLastBlock 0])
      [97,97,97,97,97,97,98] [97,97,97,97,2,98] 0 4 [.stops retvalLastBlock 0] [] retvalLastBlock 0 [1,4,9]
      rfl rfl rfl (by decide) (by decide) code (fun _ => original) rfl (.stops [] (by decide))
  obtain ⟨wrote,crc⟩ := final (.inl rfl)
  exact ⟨original,results,last,enough,all,wrote,crc (by decide) (by decide)⟩

end Stablebox.Bunzip2
