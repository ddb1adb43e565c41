import Stablebox.Archival.BunzipBlock
import Stablebox.Archival.BunzipStream

/-! `uncompressStream` (decompress_bunzip2.c): the test of the file header, the loop that reads and writes, and the
comparison of the checksum of the stream. What a successful return says about the input. -/
namespace Stablebox.Bunzip2

open List BitReader

abbrev retvalUnexpectedOutputEof : Int := -4
abbrev iobufSize : Nat := 4096

abbrev bzh0 : BitVec 32 := 0x425a6830

def readMagic : Option (BitVec 32) → Except Int (Fin 9)
  | none => .error retvalUnexpectedInputEof
  | some i => if level : (i - bzh0 - 1).toNat < 9 then .ok ⟨_,level⟩ else .error retvalNotBzipData

/-- The checksum that `get_next_block` reads behind the marker. -/
def storedCRC (r : BitReader) : Except Int (BitVec 32) := do
  let (_,r) ← r.take 24
  let (_,r) ← r.take 24
  let (headerCRC,_) ← r.take 32
  .ok (.ofNat 32 headerCRC)

/-- What the calls of `get_next_block` find. Each goes on where the one before has stopped reading, with the tables it
has left; `stack` is what the calls have on their stack at first. -/
def findBlocks (fuel dbufSize : Nat) (stack : Nat → Stack) :
    (calls : Nat) → (Nat → Group) → BitReader → Option (List Decoded)
  | 0,_,_ => none
  | calls + 1,groups,r =>
    match decodeBlock fuel dbufSize (stack calls) groups r with
    | none => none
    | some (.error e) => some [.stops e ((storedCRC r).toOption.getD 0)]
    | some (.ok (b,s)) => (findBlocks fuel dbufSize stack calls s.groups s.reader).map (b.decoded s :: ·)

def openBunzip (reads : List (List UInt8)) : Option (BitVec 32 × BitReader) :=
  (getBits 32 ⟨[],reads,0,0⟩).map fun (i,r) => (.ofNat 32 i,r)

def blocksOf (fuel : Nat) (stack : Nat → Stack) (reads : List (List UInt8)) : Option (List Decoded) :=
  match openBunzip reads with
  | none => some []
  | some (i,r) =>
    match readMagic (some i) with
    | .error _ => some []
    | .ok level => findBlocks fuel (100000 * (level + 1)) stack fuel (fun _ => noGroup) r

/-- An input, and what `get_next_block` finds behind its header. Every call returns. -/
structure Stream where
  reads : List (List UInt8)
  stack : Nat → Stack
  blocks : List Decoded
  found : ∃ fuel, blocksOf fuel stack reads = some blocks

def Stream.magic (stream : Stream) : Option (BitVec 32) := (openBunzip stream.reads).map Prod.fst

/-- The loop of `uncompressStream`; `accepts` says which writes are complete. -/
def pump (fuel : Nat) (accepts : Nat → Bool) :
    (turns : Nat) → BunzipData → (output : List UInt8) → Option (Int × BunzipData × List UInt8)
  | 0,_,_ => none
  | turns + 1,bd,output =>
    match readBunzip fuel bd iobufSize with
    | none => none
    | some r =>
      if r.value ≤ 0 then some (r.value,r.bd,output)
      else if accepts output.length then pump fuel accepts turns r.bd (output ++ r.outbuf)
      else some (retvalUnexpectedOutputEof,r.bd,output)

def report (i : Int) (bd : BunzipData) : Int × Option String :=
  if i = retvalLastBlock then
    if bd.headerCRC ≠ bd.totalCRC then (i,some "Data integrity error when decompressing.") else (retvalOk,none)
  else if i = retvalUnexpectedOutputEof then (i,some "Compressed file ends unexpectedly")
  else (i,some "Decompression failed")

structure Outcome where
  value : Int
  reported : Option String
  output : List UInt8
  deriving DecidableEq

def uncompressStream (fuel : Nat) (accepts : Nat → Bool) (stream : Stream) : Option Outcome :=
  let finish (result : Int × BunzipData × List UInt8) : Outcome :=
    ⟨(report result.1 result.2.1).1,(report result.1 result.2.1).2,result.2.2⟩
  match readMagic stream.magic with
  | .error e => some (finish (e,startBunzip 0 [],[]))
  | .ok level => (pump fuel accepts fuel (startBunzip level stream.blocks) []).map finish

/-! ### What is asked of a stream -/

def combined (texts : List (List UInt8)) : BitVec 32 :=
  texts.foldl (fun total text => rotate total ^^^ blockCRC text) 0

def Carries (block : Decoded) (text : List UInt8) : Prop :=
  ∃ origPtr bytes, block = .block (blockCRC text) origPtr bytes ∧ (text = [] → bytes = [])

/-- The blocks up to `rest` have been read: their checksums combine to `total`, and `out` was written for them. -/
def Read (blocks rest : List Decoded) (total : BitVec 32) (out : List UInt8) : Prop :=
  ∃ consumed texts, blocks = consumed ++ rest ∧ List.Forall₂ Carries consumed texts ∧ total = combined texts ∧
    out = texts.flatten

/-- The header, every checksum of a block and the checksum of the stream are right. -/
def Stream.Integrity (stream : Stream) (out : List UInt8) : Prop :=
  (∃ level, readMagic stream.magic = .ok level) ∧
    ∃ stored rest, Read stream.blocks (.stops retvalLastBlock stored :: rest) stored out

def Right (chunks : List Chunk) : Prop := ∀ chunk ∈ chunks, chunk.headerCRC = blockCRC chunk.text

/-- A proper stream: blocks that code texts, with right checksums, and the marker at its end. -/
def Stream.WellFormed (stream : Stream) : Prop :=
  (∃ level, readMagic stream.magic = .ok level) ∧
    ∃ chunks, Follows retvalLastBlock (combined (chunks.map Chunk.text)) stream.blocks chunks ∧ Right chunks

/-- A successful return has checked the stream, and a proper stream returns so with no message. -/
def Stream.Checked (stream : Stream) : Prop :=
  (∀ fuel accepts reported out, uncompressStream fuel accepts stream = some ⟨retvalOk,reported,out⟩ →
    stream.Integrity out) ∧
  (stream.WellFormed →
    ∃ out enough, ∀ fuel ≥ enough, uncompressStream fuel (fun _ => true) stream = some ⟨retvalOk,none,out⟩)

def Hollow (blocks : List Decoded) : Prop := ∀ block ∈ blocks, ∃ origPtr, block = .block 0 origPtr []

def Stream.Silent (stream : Stream) : Prop :=
  (∃ level, readMagic stream.magic = .ok level) ∧
    ∃ consumed stored rest, stream.blocks = consumed ++ .stops retvalLastBlock stored :: rest ∧ Hollow consumed

/-! ### The codes of errors -/

theorem take_negative (failed : BitReader.take wanted r = .error e) : e < 0 := by
  grind [BitReader.take]

theorem readMapping_negative (failed : readMapping t todo symToByte r = .error e) : e < 0 := by
  induction todo generalizing symToByte r with
  | zero => cases failed
  | succ todo ih =>
    simp only [readMapping,bind,Except.bind] at failed
    grind [→ take_negative]

theorem blockHeader_negative (failed : blockHeader dbufSize r = .error e) : e < 0 := by
  simp only [blockHeader,bind,Except.bind] at failed
  repeat' split at failed
  all_goals grind [→ take_negative,→ readMapping_negative]

theorem countRun_negative (failed : countRun groupCount fuel j r = .error e) : e < 0 := by
  induction fuel generalizing j r with
  | zero => cases failed; decide
  | succ fuel ih => grind [countRun,→ take_negative]

theorem selectorLoop_negative (failed : (selectorLoop groupCount turns s).2 = some e) : e < 0 := by
  induction turns generalizing s with
  | zero => cases failed
  | succ turns ih => grind [selectorLoop,selectorTurn,→ countRun_negative]

theorem enter_negative (failed : enter dbufSize old groups r = .error e) : e < 0 := by
  simp only [enter,bind,Except.bind] at failed
  grind [→ take_negative,→ blockHeader_negative,→ selectorLoop_negative]

theorem nextSymbol_negative (failed : nextSymbol g r = .error e) : e < 0 := by
  grind [nextSymbol]

theorem blockStep_negative (failed : blockStep b x = .inr (.error e)) : e < 0 := by
  cases x with
  | lengths r groups j length t =>
    simp only [blockStep,lengthStep,nextGroup,bind,Except.bind] at failed
    grind [onward,→ take_negative]
  | symbols s =>
    simp only [blockStep,symbolStep,Symbols.select,bind,Except.bind] at failed
    grind [onward,→ nextSymbol_negative]
  | decoded nextSym s => grind [blockStep,literalStep,onward]

theorem decodeBlock_negative (failed : decodeBlock fuel dbufSize old groups r = some (.error e)) : e < 0 := by
  unfold decodeBlock at failed
  split at failed
  · rename_i wrong
    cases failed
    exact enter_negative wrong
  · obtain ⟨result,ran,same⟩ := Option.map_eq_some_iff.1 failed
    obtain ⟨last,_,ends⟩ := exec_reaches ran
    cases result with
    | error e' =>
      cases same
      exact blockStep_negative ends
    | ok s => cases same

theorem findBlocks_negative (done : findBlocks fuel dbufSize stack turns groups r = some blocks) (retval : Int)
    (crc : BitVec 32) (listed : .stops retval crc ∈ blocks) : retval < 0 := by
  induction turns generalizing groups r blocks with
  | zero => cases done
  | succ turns ih =>
    rw [findBlocks] at done
    split at done
    · cases done
    · rename_i failed
      cases done
      cases mem_singleton.1 listed
      exact decodeBlock_negative failed
    · obtain ⟨found,later,rfl⟩ := Option.map_eq_some_iff.1 done
      rcases mem_cons.1 listed with same | behind
      · cases same
      · exact ih later behind

theorem Stream.errors (stream : Stream) (magic : readMagic stream.magic = .ok level) (retval : Int) (crc : BitVec 32)
    (listed : .stops retval crc ∈ stream.blocks) : retval < 0 := by
  obtain ⟨fuel,found⟩ := stream.found
  unfold Stream.magic at magic
  unfold blocksOf at found
  cases opened : openBunzip stream.reads with
  | none =>
    rw [opened] at magic
    cases magic
  | some pair =>
    rw [opened] at magic found
    simp only [Option.map_some] at magic
    simp only [magic] at found
    exact findBlocks_negative found retval crc listed

/-! ### Reading and writing -/

section Steps

variable {blocks : List Decoded} {out : List UInt8}

theorem Read.block (read : Read blocks (.block (blockCRC text) origPtr bytes :: rest) total out)
    (empty : text = [] → bytes = []) :
    Read blocks rest (rotate total ^^^ blockCRC text) (out ++ text) := by
  obtain ⟨consumed,texts,rfl,carries,rfl,rfl⟩ := read
  refine ⟨consumed ++ [.block (blockCRC text) origPtr bytes],texts ++ [text],by simp,?_,by simp [combined],by simp⟩
  exact rel_append carries (.cons ⟨origPtr,bytes,rfl,empty⟩ .nil)

structure Amid (blocks : List Decoded) (out : List UInt8) (bd : BunzipData) (bytes current : List UInt8) : Prop where
  crc : bd.writeCRC = current.foldl (Crc.feed 0x04c11db7) (~~~ 0)
  read : ∃ origPtr before, Read blocks (.block bd.headerCRC origPtr bytes :: bd.input) bd.totalCRC before ∧
    out = before ++ current

/-- What holds at the labels; `out` is what earlier calls have written. -/
def Frame.Sound (blocks : List Decoded) (out : List UInt8) (f : Frame) : Prop :=
  f.bd.crc32Table = bbCrc32FillTable true ∧ (f.label = .output ∨ f.outbuf ≠ [] ∨ out = []) ∧
  match f.label with
  | .output => 0 ≤ f.bd.writeCount ∧ ∃ bytes current, Amid blocks (out ++ f.outbuf) f.bd bytes current
  | .decodeNextByte => 0 ≤ f.bd.writeCount ∧ ∃ bytes current, Amid blocks (out ++ f.outbuf) f.bd bytes current ∧
      (current = [] → f.bd.writeCount = bytes.length ∧ (bytes ≠ [] → f.bd.writeRunCountdown = 5))
  | .blockDone => ∃ bytes current, Amid blocks (out ++ f.outbuf) f.bd bytes current ∧ (current = [] → bytes = [])
  | .refill => Read blocks f.bd.input f.bd.totalCRC (out ++ f.outbuf)

inductive Rests (blocks : List Decoded) (out : List UInt8) (bd : BunzipData) : Prop where
  | idle (count : bd.writeCount = 0) (copies : bd.writeCopies = 0) (nothing : out = [])
      (read : Read blocks bd.input bd.totalCRC out)
  | waiting (bytes current : List UInt8) (count : 0 ≤ bd.writeCount) (copies : bd.writeCopies ≠ 0)
      (amid : Amid blocks out bd bytes current)
  | closed (rest : List Decoded) (count : bd.writeCount = retvalLastBlock)
      (read : Read blocks (.stops retvalLastBlock bd.headerCRC :: rest) bd.totalCRC out)

/-- What a call comes to: an error that is none of the checksum's making, or bytes. -/
def Called (blocks : List Decoded) (out : List UInt8) (r : ReadResult) : Prop :=
  (r.value < 0 ∧ (r.value = retvalLastBlock → r.bd.headerCRC ≠ r.bd.totalCRC)) ∨
    r.bd.crc32Table = bbCrc32FillTable true ∧ Rests blocks (out ++ r.outbuf) r.bd ∧ 0 ≤ r.value ∧
      (r.value = 0 → out ++ r.outbuf = [] ∧ r.bd.writeCount = retvalLastBlock)

def Frame.Goes (blocks : List Decoded) (out : List UInt8) : Frame ⊕ Option ReadResult → Prop
  | .inl next => next.Sound blocks out
  | .inr none => True
  | .inr (some r) => Called blocks out r

theorem Rests.marked (rests : Rests blocks out bd) (last : bd.writeCount = retvalLastBlock) :
    ∃ rest, Read blocks (.stops retvalLastBlock bd.headerCRC :: rest) bd.totalCRC out := by
  cases rests with
  | idle count copies nothing read => cases count.symm.trans last
  | waiting bytes current count copies amid => exact absurd count (by rw [last]; decide)
  | closed rest count read => exact ⟨rest,read⟩

variable {f : Frame}

theorem Amid.write (table : f.bd.crc32Table = bbCrc32FillTable true)
    (amid : Amid blocks (out ++ f.outbuf) f.bd bytes current) (label : Label) (copies : Nat) :
    Amid blocks (out ++ (f.write label copies).outbuf) (f.write label copies).bd bytes (current ++ [f.current]) where
  crc := by
    simp only [Frame.write]
    rw [foldl_append,foldl_cons,foldl_nil,table,updateCRC_feed,amid.crc]
  read := by
    obtain ⟨origPtr,before,read,same⟩ := amid.read
    exact ⟨origPtr,before,read,by simp only [Frame.write]; rw [← append_assoc,same,append_assoc]⟩

theorem goes_output (sound : f.Sound blocks out) (label : f.label = .output) :
    Frame.Goes blocks out (step iobufSize f) := by
  obtain ⟨table,_,kept⟩ := sound
  rw [label] at kept
  obtain ⟨count,bytes,current,amid⟩ := kept
  have more : current ++ [f.current] ≠ [] := by simp
  simp only [step,label]
  split
  · exact .inr ⟨table,.waiting bytes current count (Nat.succ_ne_zero _) ⟨amid.crc,amid.read⟩,Int.natCast_nonneg _,
      fun never => by cases never⟩
  split
  · refine ⟨table,.inl rfl,?_⟩
    exact ⟨count,bytes,_,amid.write table .output (f.bd.writeCopies - 1)⟩
  · refine ⟨table,.inr (.inl (by simp)),?_⟩
    exact ⟨count,bytes,_,amid.write table .decodeNextByte f.bd.writeCopies,fun vacant => absurd vacant more⟩

theorem goes_decode (sound : f.Sound blocks out) (label : f.label = .decodeNextByte) :
    Frame.Goes blocks out (step iobufSize f) := by
  obtain ⟨table,begun,kept⟩ := sound
  rw [label] at kept begun
  obtain ⟨count,bytes,current,amid,first⟩ := kept
  have begun : f.outbuf ≠ [] ∨ out = [] := begun.resolve_left nofun
  simp only [step,label]
  split
  · refine ⟨table,.inr begun,bytes,current,⟨amid.crc,amid.read⟩,fun nothing => ?_⟩
    have length := (first nothing).1
    exact length_eq_zero_iff.1 (by omega)
  · rename_i filled
    have less : 0 ≤ f.bd.writeCount - 1 := by omega
    split
    · trivial
    split
    · exact ⟨table,.inl rfl,less,bytes,current,amid.crc,amid.read⟩
    have written : current ≠ [] := by
      intro nothing
      obtain ⟨length,countdown⟩ := first nothing
      have five := countdown (by rintro rfl; exact filled length)
      omega
    split
    · exact ⟨table,.inr begun,less,bytes,current,⟨amid.crc,amid.read⟩,fun nothing => absurd nothing written⟩
    · exact ⟨table,.inl rfl,less,bytes,current,amid.crc,amid.read⟩

theorem goes_blockDone (sound : f.Sound blocks out) (label : f.label = .blockDone) :
    Frame.Goes blocks out (step iobufSize f) := by
  obtain ⟨table,begun,kept⟩ := sound
  rw [label] at kept begun
  obtain ⟨bytes,current,amid,empty⟩ := kept
  have begun : f.outbuf ≠ [] ∨ out = [] := begun.resolve_left nofun
  have crc : ~~~ f.bd.writeCRC = blockCRC current := by rw [amid.crc]; rfl
  simp only [step,label,crc]
  split
  · exact .inl ⟨show retvalLastBlock < 0 by decide,fun _ => by simp⟩
  rename_i same
  obtain ⟨origPtr,before,read,whole⟩ := amid.read
  rw [← not_not.1 same] at read
  refine ⟨table,.inr begun,?_⟩
  rw [whole]
  exact read.block empty

variable (errors : ∀ retval crc, .stops retval crc ∈ blocks → retval < 0)

include errors

theorem goes_refill (sound : f.Sound blocks out) (label : f.label = .refill) :
    Frame.Goes blocks out (step iobufSize f) := by
  obtain ⟨table,begun,read⟩ := sound
  rw [label] at read begun
  have begun : f.outbuf ≠ [] ∨ out = [] := begun.resolve_left nofun
  simp only [step,label,getNextBlock]
  cases input : f.bd.input with
  | nil => exact .inl ⟨show retvalUnexpectedInputEof < 0 by decide,fun never => by cases never⟩
  | cons decoded rest =>
    rw [input] at read
    cases decoded with
    | stops retval crc =>
      have negative : retval < 0 := by
        obtain ⟨consumed,_,whole,_⟩ := read
        exact errors retval crc (by simp [whole])
      dsimp only
      rw [if_pos (Int.ne_of_lt negative)]
      by_cases last : retval = retvalLastBlock
      · subst last
        refine .inr ⟨table,.closed rest rfl read,Int.natCast_nonneg _,fun vacant => ⟨?_,rfl⟩⟩
        have nothing : f.outbuf = [] := length_eq_zero_iff.1 (Int.ofNat_eq_zero.1 vacant)
        simp [nothing,begun.resolve_left (not_not_intro nothing)]
      · simp only [if_pos last]
        exact .inl ⟨negative,fun same => absurd same last⟩
    | block headerCRC origPtr bytes =>
      dsimp only
      split_ifs with empty outside
      · refine ⟨table,.inr begun,Int.le_refl 0,bytes,[],⟨rfl,origPtr,_,read,by simp⟩,fun _ => ⟨by simp [empty],?_⟩⟩
        exact fun filled => absurd (length_eq_zero_iff.1 empty) filled
      · exact .inl ⟨show retvalDataError < 0 by decide,fun never => by cases never⟩
      · cases follow (sequenceVector bytes) origPtr with
        | none => trivial
        | some pair =>
          refine ⟨table,.inr begun,Int.natCast_nonneg _,bytes,[],⟨rfl,origPtr,_,read,by simp⟩,?_⟩
          exact fun _ => ⟨rfl,fun _ => rfl⟩

theorem goes_step (sound : f.Sound blocks out) : Frame.Goes blocks out (step iobufSize f) := by
  cases label : f.label with
  | output => exact goes_output sound label
  | decodeNextByte => exact goes_decode sound label
  | blockDone => exact goes_blockDone sound label
  | refill => exact goes_refill errors sound label

theorem reaches_sound (sound : f.Sound blocks out) (path : Reaches (step iobufSize) f last) :
    last.Sound blocks out := by
  induction path with
  | refl => exact sound
  | tail _ goes ih =>
    have next := goes_step errors ih
    rw [goes] at next
    exact next

theorem readBunzip_called (table : bd.crc32Table = bbCrc32FillTable true) (rests : Rests blocks out bd)
    (opened : bd.writeCount ≠ retvalLastBlock) (done : readBunzip fuel bd iobufSize = some r) :
    Called blocks out r := by
  have begins : ∃ f : Frame, entry bd = .inl f ∧ f.Sound blocks out := by
    cases rests with
    | idle count copies nothing read =>
      refine ⟨_,by rw [entry,if_neg (by omega),if_neg (not_not_intro copies)],table,.inr (.inr nothing),?_⟩
      rwa [append_nil]
    | waiting bytes current count copies amid =>
      refine ⟨_,by rw [entry,if_neg (by omega),if_pos copies],table,.inl rfl,?_⟩
      refine ⟨count,bytes,current,amid.crc,?_⟩
      rw [append_nil]
      exact amid.read
    | closed rest count read => exact absurd count opened
  obtain ⟨f,starts,sound⟩ := begins
  rw [readBunzip,starts] at done
  obtain ⟨last,path,ends⟩ := exec_reaches (Option.join_eq_some_iff.1 done)
  have called := goes_step errors (reaches_sound errors sound path)
  rw [ends] at called
  exact called

theorem pump_read (table : bd.crc32Table = bbCrc32FillTable true) (rests : Rests blocks out bd)
    (done : pump fuel accepts turns bd out = some (i,last,final)) :
    (i = 0 → ∃ stored rest, Read blocks (.stops retvalLastBlock stored :: rest) last.totalCRC []) ∧
      (i = retvalLastBlock → last.headerCRC = last.totalCRC →
        ∃ rest, Read blocks (.stops retvalLastBlock last.totalCRC :: rest) last.totalCRC final) := by
  induction turns generalizing bd out with
  | zero => cases done
  | succ turns ih =>
    by_cases last : bd.writeCount = retvalLastBlock
    · have call : readBunzip fuel bd iobufSize = some ⟨bd.writeCount,[],bd⟩ := by
        rw [readBunzip,entry,if_pos (by rw [last]; decide)]
      rw [pump,call] at done
      simp only [last] at done
      cases done
      obtain ⟨rest,read⟩ := rests.marked last
      exact ⟨fun never => (by cases never),fun _ same => ⟨rest,same ▸ read⟩⟩
    · rw [pump] at done
      cases call : readBunzip fuel bd iobufSize with
      | none =>
        rw [call] at done
        cases done
      | some r =>
        rw [call] at done
        dsimp only at done
        rcases readBunzip_called errors table rests last call with ⟨negative,wrong⟩ | ⟨tableNext,restsNext,_,zero⟩
        · cases (if_pos (Int.le_of_lt negative)).symm.trans done
          exact ⟨fun vacant => absurd negative (by omega),fun last same => absurd same (wrong last)⟩
        split at done
        · cases done
          have vacant : r.value = 0 := by omega
          obtain ⟨nothing,marker⟩ := zero vacant
          rw [nothing] at restsNext
          exact ⟨fun _ => ⟨_,restsNext.marked marker⟩,fun last => absurd (vacant.symm.trans last) (by decide)⟩
        · split at done
          · exact ih tableNext restsNext done
          · cases done
            exact ⟨fun never => (by cases never),fun never => by cases never⟩

end Steps

/-! ### Streams that give nothing -/

theorem blockCRC_nil : blockCRC [] = 0 := by decide

theorem combined_silent (nothing : texts.flatten = []) : combined texts = 0 := by
  have loop (texts : List (List UInt8)) (nothing : ∀ text ∈ texts, text = []) :
      texts.foldl (fun total text => rotate total ^^^ blockCRC text) 0 = 0 := by
    induction texts with
    | nil => rfl
    | cons text texts ih =>
      rw [foldl_cons,nothing text (by simp),blockCRC_nil]
      exact ih (forall_mem_cons.mp nothing).2
  exact loop texts (flatten_eq_nil_iff.1 nothing)

theorem Hollow.tail (hollow : Hollow (block :: blocks)) : Hollow blocks :=
  (forall_mem_cons.mp hollow).2

theorem carries_silent (carries : List.Forall₂ Carries consumed texts) (nothing : texts.flatten = []) :
    Hollow consumed := by
  induction carries with
  | nil => nofun
  | cons first _ ih =>
    obtain ⟨empty,others⟩ := append_eq_nil_iff.1 nothing
    obtain ⟨origPtr,bytes,rfl,vacant⟩ := first
    exact forall_mem_cons.mpr ⟨⟨origPtr,by rw [vacant empty,empty,blockCRC_nil]⟩,ih others⟩

theorem Right.tail (right : Right (chunk :: chunks)) : Right chunks :=
  (forall_mem_cons.mp right).2

variable {stored : BitVec 32}

theorem follows_silent (follows : Follows retvalLastBlock stored blocks chunks) (right : Right chunks)
    (nothing : (chunks.map Chunk.text).flatten = []) :
    ∃ consumed rest, blocks = consumed ++ .stops retvalLastBlock stored :: rest ∧ Hollow consumed := by
  induction follows with
  | stops rest => exact ⟨[],rest,rfl,nofun⟩
  | block chunk chunks decoded rest codes _ ih =>
    obtain ⟨empty,others⟩ := append_eq_nil_iff.1 nothing
    obtain ⟨consumed,behind,rfl,silent⟩ := ih right.tail others
    cases codes with
    | block headerCRC text data origPtr code =>
      obtain rfl : text = [] := empty
      have length := runLength_length code
      have header : headerCRC = 0 := (right _ (.head _)).trans blockCRC_nil
      obtain rfl : data = [] := length_eq_zero_iff.1 (by simpa using length)
      exact ⟨_ :: consumed,behind,rfl,forall_mem_cons.mpr ⟨⟨origPtr,by rw [header]; rfl⟩,silent⟩⟩

theorem follows_empty (silent : Hollow consumed) :
    Follows retvalLastBlock stored (consumed ++ .stops retvalLastBlock stored :: rest)
      (consumed.map fun _ => ⟨0,[]⟩) := by
  induction consumed with
  | nil => exact .stops rest (by decide)
  | cons block consumed ih =>
    obtain ⟨origPtr,rfl⟩ := silent _ (.head _)
    exact .block _ _ _ _ (.block 0 [] [] origPtr .nil (absurd rfl) (by decide))
      (ih silent.tail)

/-! ### Proper streams -/

theorem ending_right (stored writeCRC total : BitVec 32) (right : Right chunks) :
    ∃ crc, endingFrom retvalLastBlock stored writeCRC total chunks =
      ⟨crc,(chunks.map Chunk.text).foldl (fun total text => rotate total ^^^ blockCRC text) total,stored,
        retvalLastBlock,false⟩ ∧ delivered chunks = (chunks.map Chunk.text).flatten := by
  induction chunks generalizing writeCRC total with
  | nil => exact ⟨writeCRC,rfl,rfl⟩
  | cons chunk chunks ih =>
    have here := (right chunk (.head _)).symm
    obtain ⟨crc,ending,output⟩ := ih _ _ right.tail
    refine ⟨crc,?_,?_⟩
    · rw [endingFrom,if_pos here,ending]
      rfl
    · rw [delivered,if_pos here,output]
      rfl

variable {stream : List UInt8}

theorem Suspended.open_or_closed (suspended : Suspended retvalLastBlock stored bd stream ending) :
    stream ≠ [] ∨ bd.writeCount < 0 := by
  cases suspended with
  | closed _ negative => exact .inr negative
  | waiting copies before todo data chunks walk count waits shape =>
    refine .inl fun nothing => ?_
    have empty := (append_eq_nil_iff.1 nothing).1
    rw [shape,replicate_succ] at empty
    cases empty

theorem Pending.closed_nil (pending : Pending retvalLastBlock stored bd stream ending) (negative : bd.writeCount < 0) :
    stream = [] := by
  cases pending with
  | idle _ count => omega
  | suspended _ _ suspended =>
    cases suspended with
    | closed => rfl
    | waiting _ _ _ _ _ _ count => omega

theorem pump_served (pending : Pending retvalLastBlock stored bd stream ⟨crc,total,stored,retvalLastBlock,false⟩)
    (more : stream ≠ [] ∨ bd.writeCount < 0) :
    ∃ last enough, (∀ fuel ≥ enough, ∀ turns ≥ stream.length + 2, ∀ output,
      pump fuel (fun _ => true) turns bd output = some (retvalLastBlock,last,output ++ stream)) ∧
      last.totalCRC = total ∧ last.headerCRC = stored := by
  induction length : stream.length using Nat.strong_induction_on generalizing bd stream with
  | _ n ih =>
    obtain ⟨r,enough,reads,served⟩ := readBunzip_served bd iobufSize pending
    by_cases negative : bd.writeCount < 0
    · obtain rfl := pending.closed_nil negative
      obtain ⟨_,total,header,_⟩ := suspended_nil served.suspended
      refine ⟨r.bd,enough,fun fuel le turns many output => ?_,total,header⟩
      obtain ⟨turns,rfl⟩ : ∃ k, turns = k + 1 := ⟨turns - 1,by omega⟩
      have value := served.value
      rw [if_pos negative] at value
      rw [pump,reads fuel le]
      simp [value]
    · have filled : stream ≠ [] := more.resolve_right negative
      have positive := length_pos_iff.2 filled
      have size : iobufSize = 4096 := rfl
      have value : ¬ r.value ≤ 0 := by
        rw [served.value,if_neg negative]
        split
        · decide
        simp only [Ending.value]
        simp
        omega
      obtain ⟨last,enoughNext,ends,facts⟩ := ih (stream.drop iobufSize).length (by rw [length_drop]; omega)
        (.suspended _ _ _ served.suspended) served.suspended.open_or_closed rfl
      refine ⟨last,max enough enoughNext,fun fuel le turns many output => ?_,facts⟩
      obtain ⟨turns,rfl⟩ : ∃ k, turns = k + 1 := ⟨turns - 1,by omega⟩
      have fewer : turns ≥ (stream.drop iobufSize).length + 2 := by
        rw [length_drop]
        omega
      rw [pump,reads fuel (by omega)]
      dsimp only
      rw [if_neg value,if_pos rfl,ends fuel (by omega) turns fewer,served.outbuf,append_assoc,take_append_drop]

/-! ### The theorem -/

theorem startBunzip_pending (level : Fin 9) (follows : Follows retvalLastBlock stored blocks chunks)
    (right : Right chunks) :
    ∃ crc, Pending retvalLastBlock stored (startBunzip level blocks) (chunks.map Chunk.text).flatten
      ⟨crc,combined (chunks.map Chunk.text),stored,retvalLastBlock,false⟩ := by
  have pending := Pending.idle (startBunzip level blocks) chunks rfl rfl rfl follows
  obtain ⟨crc,ending,output⟩ := ending_right stored 0 0 right
  rw [output] at pending
  exact ⟨crc,ending ▸ pending⟩

/-- A stream that gives nothing returns as if all were well, and reports a failure. -/
theorem silent_returns {stream : Stream} (magic : readMagic stream.magic = .ok level)
    (follows : Follows retvalLastBlock stored stream.blocks chunks) (right : Right chunks)
    (nothing : (chunks.map Chunk.text).flatten = []) :
    ∃ enough, ∀ fuel ≥ enough,
      uncompressStream fuel (fun _ => true) stream = some ⟨retvalOk,some "Decompression failed",[]⟩ := by
  obtain ⟨crc,pending⟩ := startBunzip_pending level follows right
  rw [nothing] at pending
  obtain ⟨r,enough,reads,served⟩ := readBunzip_served _ iobufSize pending
  have value : r.value = 0 := by
    have opened : ¬ (startBunzip level stream.blocks).writeCount < 0 := Int.lt_irrefl 0
    rw [served.value,if_neg opened]
    rfl
  refine ⟨enough + 1,fun fuel le => ?_⟩
  obtain ⟨turns,rfl⟩ : ∃ k, fuel = k + 1 := ⟨fuel - 1,by omega⟩
  simp only [uncompressStream,magic]
  rw [pump,reads (turns + 1) (by omega)]
  simp [value,report]

theorem report_ok (ok : (report i bd).1 = retvalOk) :
    i = 0 ∨ i = retvalLastBlock ∧ bd.headerCRC = bd.totalCRC := by
  unfold report at ok
  split at ok
  · rename_i last
    split at ok
    · exact .inl ok
    · rename_i same
      exact .inr ⟨last,not_not.1 same⟩
  · split at ok
    · exact .inl ok
    · exact .inl ok

theorem readMagic_error (wrong : readMagic magic = .error e) : e < -1 := by
  cases magic with
  | none => cases wrong; decide
  | some i =>
    simp only [readMagic] at wrong
    split at wrong
    · cases wrong
    · cases wrong; decide

theorem marker_unique (firstBlocks : Hollow first) (secondBlocks : Hollow second)
    (same : first ++ .stops retvalLastBlock a :: restA = second ++ .stops retvalLastBlock b :: restB) : a = b := by
  induction first generalizing second with
  | nil =>
    cases second with
    | nil => cases same; rfl
    | cons block second =>
      obtain ⟨_,rfl⟩ := secondBlocks _ (.head _)
      cases same
  | cons block first ih =>
    cases second with
    | nil =>
      obtain ⟨_,rfl⟩ := firstBlocks _ (.head _)
      cases same
    | cons other second =>
      exact ih firstBlocks.tail secondBlocks.tail (List.cons.inj same).2

/-- The header and the marker at the end. -/
def noBlocks (right : Bool) : Stream where
  reads := [[66,90,104,57,23,114,69,56,80,144,0,0,0,if right then 0 else 1]]
  stack := fun _ => zeroStack
  blocks := [.stops retvalLastBlock (if right then 0 else 1)]
  found := ⟨1,by cases right <;> decide +kernel⟩

/-- The file that `bzip2` makes of the line `aaaaaab`. -/
def sampleFile : Stream where
  reads := [[66,90,104,49,49,65,89,38,83,89,149,144,188,176,0,0,2,193,0,16,16,48,0,32,0,33,154,104,51,77,50,85,226],
    [238,72,167,10,18,18,178,23,150,0]]
  stack := fun _ => zeroStack
  blocks := [.block 0x9590bcb0 5 [97,98,97,97,97,10,2],.stops retvalLastBlock 0x9590bcb0]
  found := ⟨60,by decide +kernel⟩

example : uncompressStream 20 (fun _ => true) sampleFile = some ⟨retvalOk,none,[97,97,97,97,97,97,98,10]⟩ := by
  decide +kernel

end Stablebox.Bunzip2
