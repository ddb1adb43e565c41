import Stablebox.Archival.BunzipHuffman
import Stablebox.Archival.BunzipSelectors
import Stablebox.Archival.BunzipVector

/-! The first half of `get_next_block` behind the selectors (decompress_bunzip2.c): the code lengths of the groups, and
the loop that decodes the symbols, counts runs and fills `dbuf`. What is stored, and where. -/
namespace Stablebox.Bunzip2

open BitReader BurrowsWheeler Option UInt8
open List hiding Vector

abbrev groupSize : Nat := 50
abbrev symbolRunb : Nat := 1

structure Stack where
  symToByte : Vector UInt8 256
  mtfSymbol : Vector UInt8 256
  temp : Nat → Nat

/-- The variables that the loops behind the selectors do not change. -/
structure Block where
  dbufSize : Nat
  header : Header
  symToByte : List UInt8
  temp : Nat → Nat
  selectors : List UInt8

def Block.symTotal (b : Block) : Nat := b.header.symToByte.length

/-- The variables of the loop over the symbols; `t` and the counters are of 32 bits. -/
structure Symbols where
  reader : BitReader
  groups : Nat → Group
  hufGroup : Group
  selector : Nat
  symCount : Int
  runPos : Nat
  t : BitVec 32
  mtfSymbol : List UInt8
  byteCount : List (BitVec 32)
  dbuf : List UInt8

/-- In front of the test of a code length, in front of a symbol, and behind one that ends a run. -/
inductive Stage where
  | lengths (reader : BitReader) (groups : Nat → Group) (j : Nat) (length : List Nat) (t : Int)
  | symbols (s : Symbols)
  | decoded (nextSym : Nat) (s : Symbols)

def nextGroup (b : Block) (r : BitReader) (groups : Nat → Group) (j : Nat) : Except Int Stage :=
  if j < b.header.groupCount then do
    let (t,r) ← r.take 5
    .ok (.lengths r groups j [] (t - 1))
  else
    .ok (.symbols {
      reader := r, groups, hufGroup := groups 0, selector := 0, symCount := -1, runPos := 0, t := 0
      mtfSymbol := (range 256).map ofNat, byteCount := replicate 256 0, dbuf := [] })

def lengthStep (b : Block) (r : BitReader) (groups : Nat → Group) (j : Nat) (length : List Nat) (t : Int) :
    Except Int Stage :=
  if t < 0 ∨ t > maxHufcodeBits - 1 then .error retvalDataError
  else do
    let (k,r) ← r.take 2
    if k ≥ 2 then .ok (.lengths r groups j length (t + (((k + 1) &&& 2 : Nat) - 1)))
    else
      let length := length ++ [(t + 1).toNat]
      if length.length < b.symTotal + 2 then .ok (.lengths (r.unget 1) groups j length t)
      else nextGroup b (r.unget 1) (store groups j (makeGroup (groups j) b.temp length)) (j + 1)

def Symbols.countRun (s : Symbols) (dbufSize nextSym : Nat) : Symbols :=
  let runPos := if s.runPos = 0 then 1 else s.runPos
  let t := if s.runPos = 0 then 0 else s.t
  { s with
    t := t + BitVec.ofNat 32 (runPos <<< nextSym)
    runPos := if runPos < dbufSize then runPos <<< 1 else runPos
    symCount := s.symCount - 1 }

/-- Store copies of a byte. `while(t--)` takes as many turns as the 32 bits say without a sign. -/
def Symbols.put (s : Symbols) (count : BitVec 32) (uc : UInt8) : Symbols :=
  { s with
    byteCount := s.byteCount.modify uc.toNat (· + count)
    dbuf := s.dbuf ++ replicate count.toNat uc }

def Symbols.literal (s : Symbols) (b : Block) (nextSym : Nat) : Symbols :=
  let i := nextSym - 1
  let uc := s.mtfSymbol.getD i 0
  let s := { s with mtfSymbol := (shiftUp i s.mtfSymbol).set 0 uc, symCount := s.symCount - 1 }
  s.put 1 (b.symToByte.getD uc.toNat 0)

def Symbols.select (s : Symbols) (b : Block) : Except Int Symbols :=
  if s.symCount ≥ 0 then .ok s
  else if s.selector ≥ b.header.nSelectors then .error retvalDataError
  else .ok { s with
    symCount := groupSize - 1
    hufGroup := s.groups (b.selectors.getD s.selector 0).toNat
    selector := s.selector + 1 }

/-- Decode a symbol. The first one behind a run stores the run. -/
def symbolStep (b : Block) (s : Symbols) : Except Int Stage := do
  let s ← s.select b
  let (nextSym,reader) ← nextSymbol s.hufGroup s.reader
  let s := { s with reader }
  if nextSym ≤ symbolRunb then .ok (.symbols (s.countRun b.dbufSize nextSym))
  else if s.runPos = 0 then .ok (.decoded nextSym s)
  else if (BitVec.ofNat 32 s.dbuf.length + s.t).toInt ≥ b.dbufSize then .error retvalDataError
  else
    let uc := b.symToByte.getD (s.mtfSymbol.getD 0 0).toNat 0
    .ok (.decoded nextSym (Symbols.put { s with runPos := 0 } s.t uc))

def literalStep (b : Block) (nextSym : Nat) (s : Symbols) : Except Int Stage :=
  if s.dbuf.length ≥ b.dbufSize then .error retvalDataError else .ok (.symbols (s.literal b nextSym))

def onward : Except Int Stage → Stage ⊕ Except Int Symbols
  | .error e => .inr (.error e)
  | .ok y => .inl y

/-- The loops of `get_next_block` behind the selectors; they end with an error or with the symbol at the end. -/
def blockStep (b : Block) : Stage → Stage ⊕ Except Int Symbols
  | .lengths r groups j length t => onward (lengthStep b r groups j length t)
  | .symbols s => onward (symbolStep b s)
  | .decoded nextSym s => if nextSym > b.symTotal then .inr (.ok s) else onward (literalStep b nextSym s)

def enter (dbufSize : Nat) (stack : Stack) (groups : Nat → Group) (r : BitReader) : Except Int (Block × Stage) := do
  let header ← blockHeader dbufSize r
  match selectorLoop header.groupCount header.nSelectors (startSelecting stack.mtfSymbol header) with
  | (_,some e) => .error e
  | (s,none) => do
    let (t,r) ← s.reader.take 5
    let symToByte := header.symToByte ++ stack.symToByte.toList.drop header.symToByte.length
    .ok (⟨dbufSize,header,symToByte,stack.temp,s.selectors⟩,.lengths r groups 0 [] (t - 1))

/-- The first half of `get_next_block`. -/
def decodeBlock (fuel dbufSize : Nat) (stack : Stack) (groups : Nat → Group) (r : BitReader) :
    Option (Except Int (Block × Symbols)) :=
  match enter dbufSize stack groups r with
  | .error e => some (.error e)
  | .ok (b,start) => (exec (blockStep b) fuel start).map fun result => result.map fun s => (b,s)

def Block.decoded (b : Block) (s : Symbols) : Decoded :=
  .block (BitVec.ofNat 32 b.header.headerCRC) b.header.origPtr s.dbuf

def linkPlace (bytes : List UInt8) (i : Nat) : Nat :=
  let byteCount := (range 256).map fun c => bytes.count (ofNat c)
  let state := (range i).foldl link (bytes.map toUInt32,cumulate 0 byteCount)
  state.2.getD (state.1.getD i 0 &&& 0xff).toNat 0

/-! ### What is stored -/

def Stage.dbuf : Stage → List UInt8
  | .lengths .. => []
  | .symbols s => s.dbuf
  | .decoded _ s => s.dbuf

/-- The counters count the bytes stored, of which there are at most `dbufSize`. -/
structure Symbols.Bounded (b : Block) (s : Symbols) : Prop where
  inside : s.dbuf.length ≤ b.dbufSize
  width : s.byteCount.length = 256
  counts : ∀ c : UInt8, s.byteCount.getD c.toNat 0 = BitVec.ofNat 32 (s.dbuf.count c)

def Stage.Bounded (b : Block) : Stage → Prop
  | .lengths .. => True
  | .symbols s => s.Bounded b
  | .decoded _ s => s.Bounded b

def Stage.Modest : Stage → Prop
  | .symbols s => s.runPos ≠ 0 → s.t.toNat + s.dbuf.length < 2 ^ 31
  | _ => True

def ModestRun (b : Block) : Stage → Stage → Prop :=
  Relation.ReflTransGen fun x y => x.Modest ∧ blockStep b x = .inl y

variable {b : Block} {s t : Symbols}

theorem Symbols.Bounded.put (bounded : s.Bounded b) (count : BitVec 32) (uc : UInt8)
    (room : s.dbuf.length + count.toNat ≤ b.dbufSize) : (s.put count uc).Bounded b where
  inside := by
    rw [Symbols.put,length_append,length_replicate]
    exact room
  width := (length_modify ..).trans bounded.width
  counts := by
    intro c
    have old := bounded.counts c
    have below : c.toNat < s.byteCount.length := by
      rw [bounded.width]
      exact c.toNat_lt
    rw [getD_eq_getElem?_getD,getElem?_eq_getElem below,getD_some] at old
    simp only [Symbols.put,getD_eq_getElem?_getD,getElem?_modify,getElem?_eq_getElem below,
      count_append,count_replicate,BitVec.ofNat_add,old,beq_iff_eq,UInt8.toNat_inj]
    by_cases same : uc = c
    · simp [same]
    · simp [same]

theorem Symbols.Bounded.congr (bounded : s.Bounded b) (counters : t.byteCount = s.byteCount) (bytes : t.dbuf = s.dbuf) :
    t.Bounded b :=
  ⟨bytes ▸ bounded.inside,counters ▸ bounded.width,by rw [counters,bytes]; exact bounded.counts⟩

theorem select_eq (selected : s.select b = .ok t) :
    t.byteCount = s.byteCount ∧ t.dbuf = s.dbuf ∧ t.runPos = s.runPos ∧ t.t = s.t := by
  unfold Symbols.select at selected
  split at selected
  · cases selected
    exact ⟨rfl,rfl,rfl,rfl⟩
  · split at selected
    · cases selected
    · cases selected
      exact ⟨rfl,rfl,rfl,rfl⟩

theorem symbolStep_bounded (bounded : s.Bounded b) (modest : (Stage.symbols s).Modest)
    (goes : symbolStep b s = .ok y) : y.Bounded b := by
  obtain ⟨t,selected,goes⟩ := bind_eq_ok goes
  obtain ⟨⟨nextSym,reader⟩,_,goes⟩ := bind_eq_ok goes
  obtain ⟨counters,bytes,runPos,length⟩ := select_eq selected
  have kept : t.Bounded b := bounded.congr counters bytes
  rw [Stage.Modest,← runPos,← length,← bytes] at modest
  dsimp only at goes
  split at goes
  · cases goes
    exact kept.congr rfl rfl
  split at goes
  · cases goes
    exact kept.congr rfl rfl
  split at goes
  · cases goes
  rename_i fits
  cases goes
  -- below 2^31 the test of the source compares the sum itself
  have sum : (BitVec.ofNat 32 t.dbuf.length + t.t).toNat = t.dbuf.length + t.t.toNat := by
    rw [BitVec.toNat_add,BitVec.toNat_ofNat,Nat.mod_add_mod,Nat.mod_eq_of_lt (by omega)]
  rw [BitVec.toInt_eq_toNat_of_lt (by omega),sum] at fits
  have free : Symbols.Bounded b { t with reader,runPos := 0 } := kept.congr rfl rfl
  exact free.put t.t _ (by dsimp only; omega)

variable {r : BitReader} {groups : Nat → Group}

theorem nextGroup_bounded (goes : nextGroup b r groups j = .ok y) : y.Bounded b := by
  unfold nextGroup at goes
  split at goes
  · obtain ⟨_,_,goes⟩ := bind_eq_ok goes
    cases goes
    trivial
  · cases goes
    refine ⟨Nat.zero_le _,length_replicate,fun c => ?_⟩
    exact getD_replicate _ c.toNat_lt

theorem lengthStep_bounded {length : List Nat} {t : Int} (goes : lengthStep b r groups j length t = .ok y) :
    y.Bounded b := by
  unfold lengthStep at goes
  split at goes
  · cases goes
  obtain ⟨_,_,goes⟩ := bind_eq_ok goes
  dsimp only at goes
  split at goes
  · cases goes
    trivial
  · split at goes
    · cases goes
      trivial
    · exact nextGroup_bounded goes

theorem literalStep_bounded (bounded : s.Bounded b) (goes : literalStep b nextSym s = .ok y) : y.Bounded b := by
  unfold literalStep at goes
  split at goes
  · cases goes
  rename_i room
  cases goes
  have moved : Symbols.Bounded b { s with
      mtfSymbol := (shiftUp (nextSym - 1) s.mtfSymbol).set 0 (s.mtfSymbol.getD (nextSym - 1) 0)
      symCount := s.symCount - 1 } := bounded.congr rfl rfl
  exact moved.put 1 _ (Nat.lt_of_not_le room)

theorem blockStep_cases (b : Block) (x : Stage) :
    (∃ e, blockStep b x = .inr (.error e)) ∨ (∃ nextSym s, x = .decoded nextSym s ∧ blockStep b x = .inr (.ok s)) ∨
      ∃ y, blockStep b x = .inl y ∧ (x.Bounded b → x.Modest → y.Bounded b) := by
  have onwards (result : Except Int Stage) (same : blockStep b x = onward result)
      (keeps : ∀ y, result = .ok y → x.Bounded b → x.Modest → y.Bounded b) :
      (∃ e, blockStep b x = .inr (.error e)) ∨ ∃ y, blockStep b x = .inl y ∧
        (x.Bounded b → x.Modest → y.Bounded b) := by
    cases result with
    | error e => exact .inl ⟨e,same⟩
    | ok y => exact .inr ⟨y,same,keeps y rfl⟩
  cases x with
  | lengths r groups j length t => exact (onwards _ rfl fun y goes _ _ => lengthStep_bounded goes).imp_right .inr
  | symbols s =>
    exact (onwards _ rfl fun y goes bounded modest => symbolStep_bounded bounded modest goes).imp_right .inr
  | decoded nextSym s =>
    by_cases last : nextSym > b.symTotal
    · exact .inr (.inl ⟨nextSym,s,rfl,if_pos last⟩)
    · exact (onwards _ (if_neg last) fun y goes bounded _ => literalStep_bounded bounded goes).imp_right .inr

variable {x : Stage}

theorem blockStep_bounded (bounded : x.Bounded b) (modest : x.Modest) (goes : blockStep b x = .inl y) :
    y.Bounded b := by
  rcases blockStep_cases b x with ⟨e,ends⟩ | ⟨_,_,_,ends⟩ | ⟨z,same,keeps⟩
  · cases ends.symm.trans goes
  · cases ends.symm.trans goes
  · cases same.symm.trans goes
    exact keeps bounded modest

theorem modestRun_bounded (bounded : x.Bounded b) (run : ModestRun b x y) : y.Bounded b := by
  induction run with
  | refl => exact bounded
  | tail _ goes ih => exact blockStep_bounded ih goes.1 goes.2

theorem blockStep_ok (bounded : x.Bounded b) (ends : blockStep b x = .inr (.ok s)) : s.Bounded b := by
  rcases blockStep_cases b x with ⟨e,fails⟩ | ⟨_,_,rfl,done⟩ | ⟨z,goes,_⟩
  · cases fails.symm.trans ends
  · cases done.symm.trans ends
    exact bounded
  · cases goes.symm.trans ends

theorem Symbols.Bounded.sum (bounded : s.Bounded b) (small : b.dbufSize < 2 ^ 32) :
    (s.byteCount.map BitVec.toNat).sum = s.dbuf.length := by
  have inside := bounded.inside
  have entries : s.byteCount.map BitVec.toNat = (range 256).map fun c => s.dbuf.count (ofNat c) := by
    refine ext_getElem (by simp [bounded.width]) fun c left _ => ?_
    rw [length_map] at left
    have byte : (ofNat c).toNat = c := by
      have width := bounded.width
      rw [toNat_ofNat']
      omega
    have value := bounded.counts (ofNat c)
    have few : s.dbuf.count (ofNat c) ≤ s.dbuf.length := count_le_length
    rw [byte,getD_eq_getElem?_getD,getElem?_eq_getElem left,getD_some] at value
    rw [getElem_map,getElem_map,getElem_range,value,BitVec.toNat_ofNat,Nat.mod_eq_of_lt (by omega)]
  rw [entries,counts_sum _ (Nat.le_refl _),countP_eq_length.2,length_map]
  intro value mem
  obtain ⟨c,_,rfl⟩ := mem_map.1 mem
  simpa using c.toNat_lt

theorem linkPlace_lt (short : bytes.length < 2 ^ 23) (inside : i < bytes.length) :
    linkPlace bytes i < bytes.length := by
  obtain ⟨links,linked⟩ := linked_run short (Nat.le_of_lt inside)
  have here := getElem?_eq_getElem inside
  have place := rank_lt_length (toNat_getElem? here)
  rw [← linked.counts,← linked.byte _ here,length_map] at place
  exact place

/-- What is promised of a stage: the stores are below `dbufSize`, those of the second half too, and a block that is
accepted has the size of what was stored. -/
structure Stage.Kept (b : Block) (x : Stage) : Prop where
  stores : x.dbuf.length ≤ b.dbufSize
  links : ∀ s, blockStep b x = .inr (.ok s) → ∀ i < s.dbuf.length, linkPlace s.dbuf i < b.dbufSize
  accepted : ∀ s (bd : BunzipData) rest next, blockStep b x = .inr (.ok s) →
    getNextBlock { bd with input := b.decoded s :: rest } = some (retvalOk,next) →
    next.writeCount = s.dbuf.length ∧ (s.byteCount.map BitVec.toNat).sum = s.dbuf.length ∧
      (next.writeCount ≠ 0 → b.header.origPtr < next.writeCount)

theorem enter_ok (entered : enter dbufSize stack groups r = .ok (b,start)) :
    b.dbufSize = dbufSize ∧ start.Bounded b := by
  obtain ⟨header,_,entered⟩ := bind_eq_ok entered
  split at entered
  · cases entered
  obtain ⟨_,_,entered⟩ := bind_eq_ok entered
  cases entered
  exact ⟨rfl,trivial⟩

theorem getNextBlock_accepted {bd next : BunzipData} {rest : List Decoded}
    (here : bd.input = .block headerCRC origPtr bytes :: rest) (ok : getNextBlock bd = some (retvalOk,next)) :
    next.writeCount = bytes.length ∧ (next.writeCount ≠ 0 → origPtr < next.writeCount) := by
  simp only [getNextBlock,here] at ok
  split at ok
  · rename_i empty
    cases ok
    exact ⟨by simp [empty],fun other => absurd rfl other⟩
  · split at ok
    · cases ok
    rename_i inside
    split at ok
    · cases ok
    · cases ok
      exact ⟨rfl,fun _ => Int.ofNat_lt.2 (Nat.lt_of_not_le inside)⟩

/-- What the symbol loop has stored lies inside `dbuf`, as long as no run is too long. -/
theorem block_kept (level : Fin 9) (stack : Stack) (groups : Nat → Group) (r : BitReader) (b : Block) (start x : Stage)
    (entered : enter (100000 * (level + 1)) stack groups r = .ok (b,start)) (run : ModestRun b start x) : x.Kept b := by
  obtain ⟨size,bounded⟩ := enter_ok entered
  have kept := modestRun_bounded bounded run
  constructor
  · cases x with
    | lengths => exact Nat.zero_le _
    | symbols s => exact kept.inside
    | decoded nextSym s => exact kept.inside
  · intro s ends i below
    have inside := (blockStep_ok kept ends).inside
    have place := linkPlace_lt (by omega) below
    omega
  · intro s bd rest next ends ok
    obtain ⟨count,origPtr⟩ := getNextBlock_accepted rfl ok
    exact ⟨count,(blockStep_ok kept ends).sum (by omega),origPtr⟩

def noGroup : Group := ⟨fun _ => 0,fun _ => 0,fun _ => 0,0,0⟩

def zeroStack : Stack := ⟨.replicate 256 0,.replicate 256 0,fun _ => 0⟩

/-- A block of the bytes `aabb`: a run of two, a literal and a run of one. -/
def runsBlock : BitReader := ⟨[49,65,89,38,83,89,0,0,0,0,0,0,0,1,0,48,0,32,0,33,0,129,140],[],0,0⟩

instance : (x : Stage) → Decidable x.Modest
  | .lengths .. => .isTrue trivial
  | .symbols _ => inferInstanceAs (Decidable (_ → _))
  | .decoded .. => .isTrue trivial

def modestly (b : Block) : Nat → Stage → Option Stage
  | 0,x => some x
  | n + 1,x =>
    if x.Modest then
      match blockStep b x with
      | .inl y => modestly b n y
      | .inr _ => none
    else none

theorem modestly_run (done : modestly b n x = some y) : ModestRun b x y := by
  induction n generalizing x with
  | zero =>
    cases done
    exact .refl
  | succ n ih =>
    rw [modestly] at done
    split at done
    · rename_i modest
      split at done
      · rename_i goes
        exact .head ⟨modest,goes⟩ (ih done)
      · cases done
    · cases done

theorem block_kept_runs : ∃ b start x,
    enter (100000 * ((0 : Fin 9) + 1)) zeroStack (fun _ => noGroup) runsBlock = .ok (b,start) ∧
    ModestRun b start x ∧ x.dbuf = [97,97,98,98] ∧ x.Kept b := by
  have runs : ((enter (100000 * ((0 : Fin 9) + 1)) zeroStack (fun _ => noGroup) runsBlock).toOption.bind
      fun pair => (modestly pair.1 13 pair.2).map Stage.dbuf) = some [97,97,98,98] := by decide +kernel
  obtain ⟨⟨b,start⟩,found,reached⟩ := bind_eq_some_iff.1 runs
  obtain ⟨x,done,stored⟩ := map_eq_some_iff.1 reached
  cases entered : enter (100000 * ((0 : Fin 9) + 1)) zeroStack (fun _ => noGroup) runsBlock with
  | error e =>
    rw [entered] at found
    cases found
  | ok pair =>
    rw [entered] at found
    cases found
    have run := modestly_run done
    exact ⟨b,start,x,rfl,run,stored,block_kept 0 zeroStack _ runsBlock b start x entered run⟩

/-- A block that holds the byte `a` in its mapping table and nothing else: the first symbol ends it. -/
def emptyBlock : BitReader := ⟨[49,65,89,38,83,89,0,0,0,0,0,0,0,1,0,32,0,32,0,33,24,70,0,0,0],[],0,0⟩

/-- The block is accepted with nothing in it, and no row of nothing is the original. -/
theorem emptyBlock_accepted : ∃ b s next,
    decodeBlock 40 100000 zeroStack (fun _ => noGroup) emptyBlock = some (.ok (b,s)) ∧
    getNextBlock { startBunzip 0 [] with input := [b.decoded s] } = some (retvalOk,next) ∧
    next.writeCount = 0 ∧ ¬ (b.header.origPtr : Int) < next.writeCount := by
  have empty : ((decodeBlock 40 100000 zeroStack (fun _ => noGroup) emptyBlock).bind Except.toOption).map
      (fun pair => pair.2.dbuf) = some [] := by decide +kernel
  obtain ⟨⟨b,s⟩,found,nothing⟩ := map_eq_some_iff.1 empty
  dsimp only at nothing
  obtain ⟨result,decoded,ok⟩ := bind_eq_some_iff.1 found
  cases result with
  | error e => cases ok
  | ok pair =>
    cases ok
    obtain ⟨next,accepted⟩ : ∃ next,
        getNextBlock { startBunzip 0 [] with input := [b.decoded s] } = some (retvalOk,next) := by
      simp only [getNextBlock,Block.decoded,nothing,length_nil,if_true]
      exact ⟨_,rfl⟩
    have count := (getNextBlock_accepted rfl accepted).1
    rw [nothing] at count
    exact ⟨b,s,next,decoded,accepted,count,by rw [count]; exact Int.not_lt.2 (Int.natCast_nonneg _)⟩

end Stablebox.Bunzip2
