import Stablebox.Archival.BunzipBits
import Stablebox.Lib.Simulates

/-! The header of a bzip2 block (decompress_bunzip2.c, `get_next_block`): the mapping table, and the list of Huffman
groups, which is stored as runs of bits for a move-to-front array. -/
namespace Stablebox.Bunzip2

open BitReader UInt8
open List hiding Vector

abbrev retvalNotBzipData : Int := -2
abbrev retvalObsoleteInput : Int := -7
abbrev maxGroups : Nat := 6

/-- A call of `get_bits` in `get_next_block`, which the jump at the end of the input ends. -/
def BitReader.take (wanted : Nat) (r : BitReader) : Except Int (Nat × BitReader) :=
  match r.getBits wanted with
  | none => .error retvalUnexpectedInputEof
  | some result => .ok result

def rowBytes (i k : Nat) : List UInt8 :=
  ((range 16).filter fun j => k &&& 1 <<< (15 - j) ≠ 0).map fun j => ofNat (16 * i + j)

def readMapping (t : Nat) : (todo : Nat) → (symToByte : List UInt8) → BitReader → Except Int (List UInt8 × BitReader)
  | 0,symToByte,r => .ok (symToByte,r)
  | todo + 1,symToByte,r =>
    if t &&& 1 <<< todo ≠ 0 then do
      let (k,r) ← r.take 16
      readMapping t todo (symToByte ++ rowBytes (15 - todo) k) r
    else readMapping t todo symToByte r

structure Header where
  headerCRC : Nat
  origPtr : Nat
  symToByte : List UInt8
  groupCount : Nat
  nSelectors : Nat
  reader : BitReader

/-- `get_next_block` up to the selectors. -/
def blockHeader (dbufSize : Nat) (r : BitReader) : Except Int Header := do
  let (i,r) ← r.take 24
  let (j,r) ← r.take 24
  let (headerCRC,r) ← r.take 32
  if i = 0x177245 ∧ j = 0x385090 then .error retvalLastBlock
  else if i ≠ 0x314159 ∨ j ≠ 0x265359 then .error retvalNotBzipData
  else do
    let (randomised,r) ← r.take 1
    if randomised ≠ 0 then .error retvalObsoleteInput
    else do
      let (origPtr,r) ← r.take 24
      if origPtr > dbufSize then .error retvalDataError
      else do
        let (t,r) ← r.take 16
        let (symToByte,r) ← readMapping t 16 [] r
        let (groupCount,r) ← r.take 3
        if groupCount < 2 ∨ groupCount > maxGroups then .error retvalDataError
        else do
          let (nSelectors,r) ← r.take 15
          if nSelectors = 0 then .error retvalDataError
          else .ok ⟨headerCRC,origPtr,symToByte,groupCount,nSelectors,r⟩

/-! ### The selectors -/

/-- The loop that counts the bits of a run. There are at most `groupCount + 1` turns, since the test stands before the
counter goes up. -/
def countRun (groupCount : Nat) : (fuel j : Nat) → BitReader → Except Int (Nat × BitReader)
  | 0,_,_ => .error retvalDataError
  | fuel + 1,j,r =>
    match r.take 1 with
    | .error e => .error e
    | .ok (bit,r) =>
      if bit = 0 then .ok (j,r)
      else if j ≥ groupCount then .error retvalDataError
      else countRun groupCount fuel (j + 1) r

def shiftUp : (j : Nat) → List UInt8 → List UInt8
  | 0,mtfSymbol => mtfSymbol
  | j + 1,mtfSymbol => shiftUp j (mtfSymbol.set (j + 1) (mtfSymbol.getD j 0))

/-- The move-to-front array, what has been stored in `selectors`, and the entries of the array that were read. -/
structure Selecting where
  reader : BitReader
  mtfSymbol : List UInt8
  selectors : List UInt8
  reads : List Nat

def selectorTurn (groupCount : Nat) (s : Selecting) : Except Int Selecting :=
  match countRun groupCount (groupCount + 1) 0 s.reader with
  | .error e => .error e
  | .ok (j,reader) =>
    let uc := s.mtfSymbol.getD j 0
    .ok {
      reader
      mtfSymbol := (shiftUp j s.mtfSymbol).set 0 uc
      selectors := s.selectors ++ [uc]
      reads := s.reads ++ j :: range j }

/-- The first turns of the loop, and the error that has ended it. -/
def selectorLoop (groupCount : Nat) : (turns : Nat) → Selecting → Selecting × Option Int
  | 0,s => (s,none)
  | turns + 1,s =>
    match selectorTurn groupCount s with
    | .error e => (s,some e)
    | .ok s => selectorLoop groupCount turns s

def startSelecting (stack : Vector UInt8 256) (header : Header) : Selecting where
  reader := header.reader
  mtfSymbol := (range header.groupCount).foldl (fun mtfSymbol i => mtfSymbol.set i (ofNat i)) stack.toList
  selectors := []
  reads := []

/-! ### Runs of bits -/

def ones (bits : List Bool) : Nat := (bits.takeWhile id).length

/-- No selector is coded by as many ones as there are groups. A longer run is an error, as is the end of the input. -/
def CodedShort (groupCount : Nat) : (nSelectors : Nat) → List Bool → Prop
  | 0,_ => True
  | nSelectors + 1,bits =>
    ones bits ≤ groupCount → ones bits < bits.length →
      ones bits ≠ groupCount ∧ CodedShort groupCount nSelectors (bits.drop (ones bits + 1))

theorem ones_false (bits : List Bool) : ones (false :: bits) = 0 := rfl

theorem ones_true (bits : List Bool) : ones (true :: bits) = ones bits + 1 := rfl

inductive Counted (groupCount j : Nat) (bits : List Bool) : Except Int (Nat × BitReader) → Prop where
  | stops (e : Int) (long : ¬ (j + ones bits ≤ groupCount ∧ ones bits < bits.length)) :
      Counted groupCount j bits (.error e)
  | counts (s : BitReader) (short : j + ones bits ≤ groupCount) (inside : ones bits < bits.length)
      (rest : s.bits = bits.drop (ones bits + 1)) (fits : s.Fits) :
      Counted groupCount j bits (.ok (j + ones bits,s))

theorem counted_countRun (groupCount fuel j : Nat) (r : BitReader) (fits : r.Fits) (left : j + fuel = groupCount + 1) :
    Counted groupCount j r.bits (countRun groupCount fuel j r) := by
  induction fuel generalizing j r with
  | zero => exact .stops _ (by omega)
  | succ fuel ih =>
    rw [countRun,BitReader.take]
    obtain ⟨empty,none⟩ | ⟨bit,rest,s,stream,got,same,room⟩ := getBits_one fits
    · rw [none,empty]
      exact .stops _ (by simp)
    rw [got,stream]
    cases bit with
    | false =>
      refine .counts s ?_ ?_ same room
      · rw [ones_false]
        omega
      · simp [ones_false]
    | true =>
      have more : ¬ (true.toNat = 0) := by decide
      simp only
      split_ifs with last
      · refine .stops _ ?_
        rw [ones_true]
        omega
      · have next := ih (j + 1) s room (by omega)
        rw [same] at next
        generalize countRun groupCount fuel (j + 1) s = result at next
        cases next with
        | stops e long =>
          refine .stops e ?_
          rw [ones_true,length]
          omega
        | counts t short inside after fits =>
          have total : j + 1 + ones rest = j + ones (true :: rest) := by
            rw [ones_true]
            omega
          rw [total]
          refine .counts t ?_ ?_ ?_ fits
          · omega
          · rw [ones_true,length]
            omega
          · rw [after,ones_true,drop_succ_cons]

/-! ### The move-to-front array -/

theorem shiftUp_eq (j : Nat) (mtfSymbol : List UInt8) (inside : j < mtfSymbol.length) :
    shiftUp j mtfSymbol = mtfSymbol.getD 0 0 :: (mtfSymbol.take j ++ mtfSymbol.drop (j + 1)) := by
  induction j generalizing mtfSymbol with
  | zero =>
    cases mtfSymbol with
    | nil => exact absurd inside (by simp)
    | cons first rest => rfl
  | succ j ih =>
    have before : j < mtfSymbol.length := by omega
    have entry : mtfSymbol.getD j 0 = mtfSymbol[j] := by simp [before]
    have head : (mtfSymbol.set (j + 1) (mtfSymbol.getD j 0)).getD 0 0 = mtfSymbol.getD 0 0 := by simp
    have front : (mtfSymbol.set (j + 1) (mtfSymbol.getD j 0)).take j = mtfSymbol.take j := take_set_of_le (by omega)
    have back : (mtfSymbol.set (j + 1) (mtfSymbol.getD j 0)).drop (j + 1) =
        mtfSymbol.getD j 0 :: mtfSymbol.drop (j + 1 + 1) := by
      rw [drop_set,if_neg (by omega),Nat.sub_self,drop_eq_getElem_cons inside]
      rfl
    rw [shiftUp,ih _ (by rw [length_set]; omega),head,front,back,entry,take_succ_eq_append_getElem before,append_assoc]
    rfl

theorem moved_eq (inside : j < mtfSymbol.length) :
    (shiftUp j mtfSymbol).set 0 (mtfSymbol.getD j 0) = mtfSymbol.getD j 0 :: mtfSymbol.eraseIdx j := by
  rw [shiftUp_eq j mtfSymbol inside,eraseIdx_eq_take_drop_succ]
  rfl

/-- What holds between the turns: the array holds the groups, and so do the selectors. -/
structure Valid (groupCount : Nat) (s : Selecting) : Prop where
  selectors : ∀ value ∈ s.selectors, value.toNat < groupCount
  groups : (s.mtfSymbol.take groupCount).Perm ((range groupCount).map ofNat)
  reads : ∀ k ∈ s.reads, k < groupCount

theorem Valid.entry_lt (valid : Valid groupCount s) (few : groupCount ≤ 256) (inside : j < groupCount)
    (long : groupCount ≤ s.mtfSymbol.length) : (s.mtfSymbol.getD j 0).toNat < groupCount := by
  have place : j < (s.mtfSymbol.take groupCount).length := by
    rw [length_take]
    omega
  have entry : s.mtfSymbol.getD j 0 = (s.mtfSymbol.take groupCount)[j] := by
    rw [getElem_take,getD_eq_getElem?_getD,getElem?_eq_getElem (by omega),Option.getD_some]
  have mem := valid.groups.mem_iff.1 (getElem_mem place)
  obtain ⟨k,range,same⟩ := mem_map.1 mem
  have bound := mem_range.1 range
  rw [entry,← same,toNat_ofNat']
  omega

theorem selectorTurn_cases (fits : s.reader.Fits) :
    (∃ e, selectorTurn groupCount s = .error e ∧
      ¬ (ones s.reader.bits ≤ groupCount ∧ ones s.reader.bits < s.reader.bits.length)) ∨
    ∃ t j, selectorTurn groupCount s = .ok t ∧ j = ones s.reader.bits ∧ j ≤ groupCount ∧ j < s.reader.bits.length ∧
      t.reader.bits = s.reader.bits.drop (j + 1) ∧ t.reader.Fits ∧
      t.mtfSymbol = (shiftUp j s.mtfSymbol).set 0 (s.mtfSymbol.getD j 0) ∧
      t.selectors = s.selectors ++ [s.mtfSymbol.getD j 0] ∧ t.reads = s.reads ++ j :: range j := by
  have counted := counted_countRun groupCount (groupCount + 1) 0 s.reader fits (zero_add _)
  unfold selectorTurn
  generalize countRun groupCount (groupCount + 1) 0 s.reader = result at counted
  cases counted with
  | stops e long =>
    rw [zero_add] at long
    exact .inl ⟨e,rfl,long⟩
  | counts reader short inside rest fits =>
    rw [zero_add] at short ⊢
    exact .inr ⟨_,ones s.reader.bits,rfl,rfl,short,inside,rest,fits,rfl,rfl,rfl⟩

theorem Valid.turn (valid : Valid groupCount s) (few : groupCount ≤ 256) (long : s.mtfSymbol.length = 256)
    (inside : j < groupCount) (moved : t.mtfSymbol = (shiftUp j s.mtfSymbol).set 0 (s.mtfSymbol.getD j 0))
    (stored : t.selectors = s.selectors ++ [s.mtfSymbol.getD j 0]) (read : t.reads = s.reads ++ j :: range j) :
    Valid groupCount t where
  selectors := by
    rw [stored]
    exact forall_mem_append.mpr
      ⟨valid.selectors,forall_mem_singleton.mpr (valid.entry_lt few inside (by omega))⟩
  groups := by
    obtain ⟨count,rfl⟩ : ∃ count, groupCount = count + 1 := ⟨groupCount - 1,by omega⟩
    have place : j < (s.mtfSymbol.take (count + 1)).length := by
      rw [length_take]
      omega
    have entry : s.mtfSymbol.getD j 0 = (s.mtfSymbol.take (count + 1))[j] := by
      rw [getElem_take,getD_eq_getElem?_getD,getElem?_eq_getElem (by omega),Option.getD_some]
    have front : (s.mtfSymbol.eraseIdx j).take count = (s.mtfSymbol.take (count + 1)).eraseIdx j := by
      rw [eraseIdx_eq_take_drop_succ,eraseIdx_eq_take_drop_succ,take_append,take_take,take_take,length_take,drop_take]
      congr 2 <;> omega
    rw [moved,moved_eq (by omega),take_succ_cons,front,entry]
    exact (getElem_cons_eraseIdx_perm place).trans valid.groups
  reads := by
    rw [read]
    exact forall_mem_append.mpr ⟨valid.reads,forall_mem_cons.mpr
      ⟨inside,fun k earlier => lt_trans (mem_range.1 earlier) inside⟩⟩

theorem moved_length (j : Nat) (mtfSymbol : List UInt8) (inside : j < mtfSymbol.length) :
    ((shiftUp j mtfSymbol).set 0 (mtfSymbol.getD j 0)).length = mtfSymbol.length := by
  rw [moved_eq inside,length_cons,length_eraseIdx_of_lt inside]
  omega

theorem selectorLoop_valid_iff (few : groupCount ≤ maxGroups) (nSelectors : Nat) (s : Selecting)
    (fits : s.reader.Fits) (long : s.mtfSymbol.length = 256) (valid : Valid groupCount s) :
    (∀ turns ≤ nSelectors, Valid groupCount (selectorLoop groupCount turns s).1) ↔
      CodedShort groupCount nSelectors s.reader.bits := by
  unfold maxGroups at few
  induction nSelectors generalizing s with
  | zero =>
    refine ⟨fun _ => trivial,fun _ turns none => ?_⟩
    rw [Nat.le_zero.1 none]
    exact valid
  | succ nSelectors ih =>
    rcases selectorTurn_cases fits with ⟨e,turn,ends⟩ | ⟨t,j,turn,run,short,inside,rest,fits,moved,stored,read⟩
    · refine ⟨fun _ short inside => absurd ⟨short,inside⟩ ends,fun _ turns _ => ?_⟩
      cases turns with
      | zero => exact valid
      | succ turns =>
        rw [selectorLoop,turn]
        exact valid
    · have next (turns : Nat) : selectorLoop groupCount (turns + 1) s = selectorLoop groupCount turns t := by
        rw [selectorLoop,turn]
      rw [CodedShort,← run,← rest]
      by_cases last : j = groupCount
      · -- as many ones as groups: the entry behind the last group is read
        constructor
        · intro all
          have first := (all 1 (by omega)).reads j
          rw [next,selectorLoop,read] at first
          exact absurd (first (by simp)) (by omega)
        · intro coded
          exact absurd last (coded short inside).1
      · have kept := valid.turn (by omega) long (by omega) moved stored read
        have width : t.mtfSymbol.length = 256 := by
          rw [moved,moved_length j s.mtfSymbol (by omega),long]
        have others := ih t fits width kept
        constructor
        · intro all _ _
          refine ⟨last,others.1 fun turns bound => ?_⟩
          rw [← next]
          exact all (turns + 1) (by omega)
        · intro coded turns bound
          cases turns with
          | zero => exact valid
          | succ turns =>
            rw [next]
            exact others.2 (coded short inside).2 turns (by omega)

/-! ### The header -/

variable {r : BitReader}

theorem fits_take {s : BitReader} (fits : r.Fits) (got : r.take wanted = .ok (value,s)) :
    s.Fits := by
  unfold BitReader.take at got
  split at got
  · cases got
  rename_i found
  cases got
  exact fits_getBits fits found

theorem fits_readMapping {s : BitReader} (fits : r.Fits) (got : readMapping t todo symToByte r = .ok (bytes,s)) :
    s.Fits := by
  induction todo generalizing symToByte r with
  | zero =>
    cases got
    exact fits
  | succ todo ih =>
    rw [readMapping] at got
    split at got
    · obtain ⟨⟨k,next⟩,taken,rest⟩ := bind_eq_ok got
      exact ih (fits_take fits taken) rest
    · exact ih fits got

theorem blockHeader_ok (fits : r.Fits) (accepted : blockHeader dbufSize r = .ok header) :
    header.groupCount ≤ maxGroups ∧ header.reader.Fits := by
  obtain ⟨⟨i,r1⟩,take1,accepted⟩ := bind_eq_ok accepted
  obtain ⟨⟨j,r2⟩,take2,accepted⟩ := bind_eq_ok accepted
  obtain ⟨⟨crc,r3⟩,take3,accepted⟩ := bind_eq_ok accepted
  have fits3 := fits_take (fits_take (fits_take fits take1) take2) take3
  dsimp only at accepted
  split at accepted
  · cases accepted
  split at accepted
  · cases accepted
  obtain ⟨⟨randomised,r4⟩,take4,accepted⟩ := bind_eq_ok accepted
  split at accepted
  · cases accepted
  obtain ⟨⟨origPtr,r5⟩,take5,accepted⟩ := bind_eq_ok accepted
  split at accepted
  · cases accepted
  obtain ⟨⟨t,r6⟩,take6,accepted⟩ := bind_eq_ok accepted
  obtain ⟨⟨symToByte,r7⟩,mapping,accepted⟩ := bind_eq_ok accepted
  obtain ⟨⟨groupCount,r8⟩,take8,accepted⟩ := bind_eq_ok accepted
  have fits7 := fits_readMapping (fits_take (fits_take (fits_take fits3 take4) take5) take6) mapping
  split at accepted
  · cases accepted
  obtain ⟨⟨nSelectors,r9⟩,take9,accepted⟩ := bind_eq_ok accepted
  split at accepted
  · cases accepted
  cases accepted
  exact ⟨by dsimp only; omega,fits_take (fits_take fits7 take8) take9⟩

theorem startSelecting_length (stack : Vector UInt8 256) (header : Header) :
    (startSelecting stack header).mtfSymbol.length = 256 := by
  have kept (indices : List Nat) (mtfSymbol : List UInt8) :
      (indices.foldl (fun mtfSymbol i => mtfSymbol.set i (ofNat i)) mtfSymbol).length = mtfSymbol.length := by
    induction indices generalizing mtfSymbol with
    | nil => rfl
    | cons i indices ih => rw [foldl_cons,ih,length_set]
  rw [startSelecting,kept,Vector.length_toList]

theorem filled_take (inside : groupCount ≤ stack.length) :
    (range groupCount).foldl (fun mtfSymbol i => mtfSymbol.set i (ofNat i)) stack =
      (range groupCount).map ofNat ++ stack.drop groupCount := by
  induction groupCount with
  | zero => rfl
  | succ groupCount ih =>
    have width : ((range groupCount).map ofNat).length = groupCount := by simp
    rw [range_succ,foldl_append,ih (by omega),foldl_cons,foldl_nil,set_append_right _ _ (by omega),
      width,Nat.sub_self,drop_eq_getElem_cons inside,set_cons_zero,map_append,append_assoc]
    rfl

theorem valid_startSelecting (stack : Vector UInt8 256) (few : header.groupCount ≤ maxGroups) :
    Valid header.groupCount (startSelecting stack header) where
  selectors := by
    intro value mem
    cases mem
  groups := by
    unfold maxGroups at few
    rw [startSelecting,filled_take (by rw [Vector.length_toList]; omega),take_left' (by simp)]
  reads := by
    intro k mem
    cases mem

/-- The selectors that are stored are groups, the array stays one of the groups and nothing behind them is read, if and
only if no selector of the stream is coded by exactly as many ones as there are groups. -/
theorem selectors_valid_iff (dbufSize : Nat) (stack : Vector UInt8 256) (r : BitReader) (fits : r.Fits) :
    (∀ header, blockHeader dbufSize r = .ok header → ∀ turns ≤ header.nSelectors,
      Valid header.groupCount (selectorLoop header.groupCount turns (startSelecting stack header)).1) ↔
    ∀ header, blockHeader dbufSize r = .ok header →
      CodedShort header.groupCount header.nSelectors header.reader.bits := by
  have loop (header : Header) (accepted : blockHeader dbufSize r = .ok header) :=
    selectorLoop_valid_iff (blockHeader_ok fits accepted).1 header.nSelectors (startSelecting stack header)
      (blockHeader_ok fits accepted).2 (startSelecting_length stack header)
      (valid_startSelecting stack (blockHeader_ok fits accepted).1)
  constructor
  · intro all header accepted
    exact (loop header accepted).1 (all header accepted)
  · intro coded header accepted
    exact (loop header accepted).2 (coded header accepted)

def oneSelector (run : UInt8) : BitReader :=
  ⟨[49,65,89,38,83,89,0,0,0,0,0,0,0,64,0,32,0,32,0,run],[],0,0⟩

theorem selectors_valid_none :
    (∀ header, blockHeader 900000 (oneSelector 32) = .ok header → ∀ turns ≤ header.nSelectors, Valid header.groupCount
        (selectorLoop header.groupCount turns (startSelecting (Vector.replicate 256 77) header)).1) ↔
    ∀ header, blockHeader 900000 (oneSelector 32) = .ok header →
      CodedShort header.groupCount header.nSelectors header.reader.bits :=
  selectors_valid_iff 900000 (Vector.replicate 256 77) (oneSelector 32) (by decide : 0 < 32)

/-- Two ones and a zero for a block with two groups: an entry of the stack becomes a selector. -/
theorem twoOnes_stored : ∃ header, blockHeader 900000 (oneSelector 56) = .ok header ∧ header.groupCount = 2 ∧
    (selectorLoop 2 1 (startSelecting (Vector.replicate 256 77) header)).1.selectors = [77] ∧
    2 ∈ (selectorLoop 2 1 (startSelecting (Vector.replicate 256 77) header)).1.reads := by
  refine ⟨_,rfl,?_⟩
  decide +kernel

end Stablebox.Bunzip2
