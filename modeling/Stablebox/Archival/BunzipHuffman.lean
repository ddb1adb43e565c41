import Stablebox.Lib.Canonical
import Stablebox.Lib.Run
import Stablebox.Archival.BunzipBits

/-! The Huffman tables of the bzip2 decoder (decompress_bunzip2.c, `get_next_block`): how they are made from the code
lengths of a group, and how a symbol is decoded with them. -/
namespace Stablebox.Bunzip2

open Canonical List Bits

abbrev maxHufcodeBits : Nat := 20
abbrev maxSymbols : Nat := 258
abbrev intMax : Int := 2 ^ 31 - 1

def store {α : Type} (array : Nat → α) (k : Nat) (value : α) : Nat → α := fun i => if i = k then value else array i

/-- `struct group_data`; `limit` and `base` have the code length as index. -/
structure Group where
  limit : Nat → Int
  base : Nat → Int
  permute : Nat → Nat
  minLen : Nat
  maxLen : Nat

/-! ### Making the tables -/

def extremes (length : List Nat) : Nat × Nat :=
  length.tail.foldl
    (fun (minLen,maxLen) l =>
      if l > maxLen then (minLen,l) else if l < minLen then (l,maxLen) else (minLen,maxLen))
    (length.headD 0,length.headD 0)

structure Sorting where
  pp : Nat
  permute : Nat → Nat
  temp : Nat → Nat
  limit : Nat → Int

def sortTurn (length : List Nat) (s : Sorting) (i : Nat) : Sorting :=
  let s := { s with temp := store s.temp i 0,limit := store s.limit i 0 }
  (range length.length).foldl
    (fun s t => if length.getD t 0 = i then { s with permute := store s.permute s.pp t,pp := s.pp + 1 } else s) s

def countTurn (temp : Nat → Nat) (l : Nat) : Nat → Nat := store temp l ((temp l + 1) % 256)

structure Limits where
  pp : Nat
  t : Nat
  limit : Nat → Int
  base : Nat → Int

def limitTurn (temp : Nat → Nat) (maxLen : Nat) (s : Limits) (i : Nat) : Limits :=
  let pp := s.pp + temp i
  let t := s.t + temp i
  { pp := pp <<< 1
    t
    limit := store s.limit i ((pp <<< (maxLen - i) : Nat) - 1)
    base := store s.base (i + 1) ((pp <<< 1 : Nat) - t) }

/-- The tables for the lengths of a group; `old` is what the group held before, `stack` the array `temp` as it was. -/
def makeGroup (old : Group) (stack : Nat → Nat) (length : List Nat) : Group :=
  let minLen := (extremes length).1
  let maxLen := (extremes length).2
  let sorting := (range' minLen (maxLen + 1 - minLen)).foldl (sortTurn length) ⟨0,old.permute,stack,old.limit⟩
  let temp := length.foldl countTurn sorting.temp
  let limits := (range' minLen (maxLen - minLen)).foldl (limitTurn temp maxLen) ⟨0,0,sorting.limit,old.base⟩
  { limit := store (store limits.limit (maxLen + 1) intMax) maxLen (limits.pp + temp maxLen - 1)
    base := store limits.base minLen 0
    permute := sorting.permute
    minLen
    maxLen }

/-! ### Decoding -/

def scan (limit : Nat → Int) (j : Nat) : (fuel i : Nat) → Nat
  | 0,i => i
  | fuel + 1,i => if (j : Int) > limit i then scan limit j fuel (i + 1) else i

/-- Read a symbol: fetch as many bits as the longest code has, and put back what is too much. -/
def nextSymbol (g : Group) (r : BitReader) : Except Int (Nat × BitReader) :=
  match r.fetch g.maxLen with
  | none => .error retvalUnexpectedInputEof
  | some (j,r) =>
    -- the sentinel behind the last limit stops the loop
    let i := scan g.limit j (g.maxLen + 1 - g.minLen) g.minLen
    if i > g.maxLen then .error retvalDataError
    else
      let value : Int := (j >>> (g.maxLen - i) : Nat) - g.base i
      if value < 0 ∨ value ≥ maxSymbols then .error retvalDataError
      else .ok (g.permute value.toNat,r.unget (g.maxLen - i))

/-! ### What the tables hold -/

theorem store_same {α : Type} (array : Nat → α) (k : Nat) (value : α) : store array k value k = value := if_pos rfl

theorem store_other {α : Type} (array : Nat → α) (value : α) (other : i ≠ k) :
    store array k value i = array i :=
  if_neg other

theorem extremes_spec {length : List Nat} (nonempty : length ≠ []) :
    (extremes length).2 ∈ length ∧ (extremes length).1 ≤ (extremes length).2 ∧
      ∀ l ∈ length, (extremes length).1 ≤ l ∧ l ≤ (extremes length).2 := by
  have loop (rest seen : List Nat) (bounds : Nat × Nat) (mem : bounds.2 ∈ seen) (ordered : bounds.1 ≤ bounds.2)
      (inside : ∀ l ∈ seen, bounds.1 ≤ l ∧ l ≤ bounds.2) :
      let final := rest.foldl (fun (minLen,maxLen) l =>
        if l > maxLen then (minLen,l) else if l < minLen then (l,maxLen) else (minLen,maxLen)) bounds
      final.2 ∈ seen ++ rest ∧ final.1 ≤ final.2 ∧ ∀ l ∈ seen ++ rest, final.1 ≤ l ∧ l ≤ final.2 := by
    induction rest generalizing seen bounds with
    | nil => simpa using ⟨mem,ordered,inside⟩
    | cons l rest ih =>
      have appended : seen ++ l :: rest = seen ++ [l] ++ rest := by simp
      have both {property : Nat → Prop} (old : ∀ k ∈ seen, property k) (new : property l) :
          ∀ k ∈ seen ++ [l], property k := forall_mem_append.mpr ⟨old,forall_mem_singleton.mpr new⟩
      rw [appended,foldl_cons]
      dsimp only at mem ordered inside ⊢
      split
      · exact ih _ _ (by simp) (by dsimp only; omega)
          (both (fun k among => ⟨(inside k among).1,by have := (inside k among).2; dsimp only; omega⟩)
            (by dsimp only; omega))
      split
      · exact ih _ _ (by simp [mem]) (by dsimp only; omega)
          (both (fun k among => ⟨by have := (inside k among).1; dsimp only; omega,(inside k among).2⟩)
            (by dsimp only; omega))
      · exact ih _ _ (by simp [mem]) ordered (both inside (by dsimp only; omega))
  cases length with
  | nil => exact absurd rfl nonempty
  | cons l rest => exact loop rest [l] (l,l) (by simp) (le_refl l) (by simp)

structure Filled (s : Sorting) (symbols : List Nat) : Prop where
  pp : s.pp = symbols.length
  permute : ∀ k x, symbols[k]? = some x → s.permute k = x

theorem filled_store (filled : Filled s symbols) (t : Nat) :
    Filled { s with permute := store s.permute s.pp t,pp := s.pp + 1 } (symbols ++ [t]) where
  pp := by simp [filled.pp]
  permute := by
    intro k x entry
    dsimp only
    by_cases last : k = s.pp
    · rw [last,store_same]
      rw [last,filled.pp] at entry
      simpa using entry
    · rw [store_other _ _ last]
      refine filled.permute k x ?_
      have inside := (List.getElem?_eq_some_iff.1 entry).1
      have length := filled.pp
      rw [length_append,length_singleton] at inside
      rwa [List.getElem?_append_left (by omega)] at entry

structure Sorted (length : List Nat) (minLen i : Nat) (s : Sorting) : Prop where
  filled : Filled s (sorted length i)
  zero : ∀ k, minLen ≤ k → k < i → s.temp k = 0

theorem sorted_turn {length : List Nat} (before : Sorted length minLen i s) :
    Sorted length minLen (i + 1) (sortTurn length s i) := by
  have loop (ts : List Nat) (symbols : List Nat) (b : Sorting) (filled : Filled b symbols) :
      let final := ts.foldl (fun s t =>
        if length.getD t 0 = i then { s with permute := store s.permute s.pp t,pp := s.pp + 1 } else s) b
      Filled final (symbols ++ ts.filter fun t => length.getD t 0 = i) ∧ final.temp = b.temp := by
    induction ts generalizing symbols b with
    | nil => simpa using filled
    | cons t ts ih =>
      rw [foldl_cons]
      split_ifs with same
      · rw [filter_cons_of_pos (by simpa using same)]
        have next := ih _ _ (filled_store filled t)
        rw [append_assoc] at next
        exact next
      · rw [filter_cons_of_neg (by simpa using same)]
        exact ih symbols b filled
  obtain ⟨filled,temp⟩ := loop (range length.length) (sorted length i)
    { s with temp := store s.temp i 0,limit := store s.limit i 0 } ⟨before.filled.pp,before.filled.permute⟩
  refine ⟨?_,fun k low high => ?_⟩
  · rw [sorted_succ]
    exact filled
  have kept : (sortTurn length s i).temp = store s.temp i 0 := temp
  rw [kept]
  by_cases last : k = i
  · rw [last,store_same]
  · rw [store_other _ _ last]
    exact before.zero k low (by omega)

theorem foldl_countTurn (length : List Nat) (temp : Nat → Nat) (l : Nat) (byte : temp l < 256) :
    length.foldl countTurn temp l = (temp l + counts length l) % 256 := by
  induction length generalizing temp with
  | nil => exact (Nat.mod_eq_of_lt byte).symm
  | cons head length ih =>
    rw [foldl_cons]
    by_cases same : head = l
    · have stored : countTurn temp head l = (temp l + 1) % 256 := by rw [same,countTurn,store_same]
      rw [ih _ (by omega),stored,same,counts,counts,count_cons_self,Nat.mod_add_mod]
      omega
    · have kept : countTurn temp head l = temp l := store_other _ _ (Ne.symm same)
      rw [ih _ (by omega),kept,counts,counts,count_cons_of_ne (by simpa using same)]

/-- What the loop that fills `limit` and `base` keeps, where `count` has the numbers of symbols. -/
structure Limited (count : Nat → Nat) (minLen maxLen i : Nat) (s : Limits) : Prop where
  pp : s.pp = first count i
  t : s.t = shorter count i
  limit : ∀ k, minLen ≤ k → k < i → s.limit k = ((first count k + count k) * 2 ^ (maxLen - k) : Nat) - 1
  base : ∀ k, minLen < k → k ≤ i → s.base k = (first count k : Int) - shorter count k

theorem limited_turn {count temp : Nat → Nat} (before : Limited count minLen maxLen i s) (agree : temp i = count i) :
    Limited count minLen maxLen (i + 1) (limitTurn temp maxLen s i) where
  pp := by
    simp only [limitTurn]
    rw [before.pp,agree,Nat.shiftLeft_eq,mul_comm]
    rfl
  t := by
    simp only [limitTurn]
    rw [before.t,agree]
    rfl
  limit := by
    intro k low high
    simp only [limitTurn]
    by_cases last : k = i
    · rw [last,store_same,before.pp,agree,Nat.shiftLeft_eq]
    · rw [store_other _ _ last]
      exact before.limit k low (by omega)
  base := by
    intro k low high
    simp only [limitTurn]
    by_cases last : k = i + 1
    · rw [last,store_same,before.pp,before.t,agree,Nat.shiftLeft_eq,mul_comm]
      rfl
    · rw [store_other _ _ last]
      exact before.base k low (by omega)

/-- The tables for a list of lengths, with the numbers of symbols as the bytes of `temp` count them. -/
structure Built (length : List Nat) (g : Group) : Prop where
  mem : g.maxLen ∈ length
  ordered : g.minLen ≤ g.maxLen
  bounds : ∀ l ∈ length, g.minLen ≤ l ∧ l ≤ g.maxLen
  limit : ∀ k, g.minLen ≤ k → k ≤ g.maxLen →
    g.limit k = ((first (counts length · % 256) k + counts length k % 256) * 2 ^ (g.maxLen - k) : Nat) - 1
  sentinel : g.limit (g.maxLen + 1) = intMax
  base : ∀ k, g.minLen ≤ k → k ≤ g.maxLen →
    g.base k = (first (counts length · % 256) k : Int) - shorter (counts length · % 256) k
  permute : ∀ k x, (sorted length (g.maxLen + 1))[k]? = some x → g.permute k = x

theorem built_makeGroup (old : Group) (stack : Nat → Nat) {length : List Nat} (nonempty : length ≠ []) :
    Built length (makeGroup old stack length) := by
  obtain ⟨mem,ordered,bounds⟩ := extremes_spec nonempty
  generalize minEq : (extremes length).1 = minLen at ordered bounds
  generalize maxEq : (extremes length).2 = maxLen at mem ordered bounds
  have absent : ∀ k < minLen, k ∉ length := fun k less among => absurd (bounds k among).1 (by omega)
  have none : ∀ k < minLen, counts length k % 256 = 0 := by
    intro k less
    rw [counts,count_eq_zero.2 (absent k less)]
  -- the loops, with what they keep
  have sorting := foldl_range_invariant (sortTurn length) (Sorted length minLen) minLen (maxLen + 1 - minLen)
    ⟨0,old.permute,stack,old.limit⟩
    ⟨by rw [sorted_none length absent]; exact ⟨rfl,by simp⟩,fun k low high => absurd low (by omega)⟩
    (fun i s _ _ before => sorted_turn before)
  rw [Nat.add_sub_cancel' (by omega)] at sorting
  generalize sortingEq : (range' minLen (maxLen + 1 - minLen)).foldl (sortTurn length)
    ⟨0,old.permute,stack,old.limit⟩ = placed at sorting
  have temp : ∀ k, minLen ≤ k → k ≤ maxLen → length.foldl countTurn placed.temp k = counts length k % 256 := by
    intro k low high
    have zero := sorting.zero k low (by omega)
    rw [foldl_countTurn length placed.temp k (by omega),zero,zero_add]
  have limits := foldl_range_invariant (limitTurn (length.foldl countTurn placed.temp) maxLen)
    (Limited (counts length · % 256) minLen maxLen) minLen (maxLen - minLen) ⟨0,0,placed.limit,old.base⟩
    ⟨(first_none none).symm,(shorter_none none).symm,fun k low high => absurd low (by omega),
      fun k low high => absurd low (by omega)⟩
    (fun i s low high before => limited_turn before (temp i low (by omega)))
  rw [Nat.add_sub_cancel' ordered] at limits
  simp only [makeGroup,minEq,maxEq,sortingEq]
  refine ⟨mem,ordered,bounds,?_,?_,?_,sorting.filled.permute⟩
  · intro k low high
    dsimp only at low high ⊢
    by_cases last : k = maxLen
    · rw [last,store_same,limits.pp,temp maxLen ordered (Nat.le_refl _),Nat.sub_self,Nat.pow_zero,Nat.mul_one]
      rfl
    · rw [store_other _ _ last,store_other _ _ (by omega)]
      exact limits.limit k low (by omega)
  · dsimp only
    rw [store_other _ _ (by omega),store_same]
  · intro k low high
    dsimp only at low high ⊢
    by_cases lowest : k = minLen
    · rw [lowest,store_same,first_none none,shorter_none none]
      rfl
    · rw [store_other _ _ lowest]
      exact limits.base k (by omega) high

/-! ### What is decoded -/

theorem scan_spec (limit : Nat → Int) (j fuel i : Nat) (stops : (j : Int) ≤ limit (i + fuel)) :
    (j : Int) ≤ limit (scan limit j fuel i) ∧ i ≤ scan limit j fuel i ∧
      ∀ k, i ≤ k → k < scan limit j fuel i → limit k < j := by
  induction fuel generalizing i with
  | zero => exact ⟨stops,le_refl i,fun k low high => absurd low (not_le.2 high)⟩
  | succ fuel ih =>
    rw [scan]
    split_ifs with more
    · obtain ⟨fits,low,before⟩ := ih (i + 1) (by rwa [add_right_comm])
      refine ⟨fits,Nat.le_of_succ_le low,fun k start high => ?_⟩
      rcases Nat.lt_or_eq_of_le start with later | rfl
      · exact before k later high
      · exact more
    · exact ⟨by omega,le_refl i,fun k low high => absurd low (not_le.2 high)⟩

theorem number_take (begins : bits = word ++ rest) (short : word.length ≤ width) (enough : width ≤ bits.length) :
    number word * 2 ^ (width - word.length) ≤ number (bits.take width) ∧
      number (bits.take width) < (number word + 1) * 2 ^ (width - word.length) := by
  have noise : (rest.take (width - word.length)).length = width - word.length := by
    rw [begins,length_append] at enough
    rw [length_take]
    omega
  have bound := number_lt (rest.take (width - word.length))
  rw [noise] at bound
  rw [begins,take_append,take_of_length_le short,number_append,noise,add_mul,mul_comm,one_mul]
  omega

variable {length : List Nat} {g : Group}

/-- A symbol is decoded from every stream that begins with its code and has the bits that are fetched. -/
def Decodes (length : List Nat) (g : Group) : Prop :=
  ∀ symbol < length.length, ∀ (r : BitReader) (rest : List Bool), r.Fits → r.bits = codeword length symbol ++ rest →
    g.maxLen ≤ r.bits.length → ∃ s, nextSymbol g r = .ok (symbol,s) ∧ s.bits = rest ∧ s.Fits

theorem number_codeword (complete : Complete length maxHufcodeBits) (inside : symbol < length.length) :
    number (codeword length symbol) = code length symbol := by
  rw [codeword,number_high,Nat.mod_eq_of_lt (complete.code_lt inside)]

theorem codeword_length (length : List Nat) (symbol : Nat) :
    (codeword length symbol).length = length.getD symbol 0 := by
  rw [codeword,high_length]

theorem Built.maxLen_le (built : Built length g) (complete : Complete length maxHufcodeBits) : g.maxLen ≤ 24 :=
  le_trans (complete.short _ built.mem) (by decide)

theorem Built.below_sentinel (built : Built length g) (complete : Complete length maxHufcodeBits) {bits : List Bool}
    (enough : g.maxLen ≤ bits.length) : (number (bits.take g.maxLen) : Int) ≤
      g.limit (g.minLen + (g.maxLen + 1 - g.minLen)) := by
  have bound := number_lt (bits.take g.maxLen)
  have width : (bits.take g.maxLen).length = g.maxLen := by
    rw [length_take]
    omega
  have most : 2 ^ g.maxLen ≤ 2 ^ 20 := Nat.pow_le_pow_right (by decide) (complete.short _ built.mem)
  have ordered := built.ordered
  rw [Nat.add_sub_cancel' (by omega),built.sentinel]
  rw [width] at bound
  unfold intMax
  omega

def behind (length : List Nat) (maxLen k : Nat) : Nat :=
  (first (counts length · % 256) k + counts length k % 256) * 2 ^ (maxLen - k)

theorem Built.le_limit (built : Built length g) (low : g.minLen ≤ k) (high : k ≤ g.maxLen) (j : Nat) :
    (j : Int) ≤ g.limit k ↔ j < behind length g.maxLen k := by
  rw [built.limit k low high,← behind]
  omega

theorem counts_mod (few : ∀ l, counts length l < 256) : (counts length · % 256) = counts length :=
  funext fun l => Nat.mod_eq_of_lt (few l)

theorem behind_eq (few : ∀ l, counts length l < 256) (maxLen k : Nat) :
    behind length maxLen k = (first (counts length) k + counts length k) * 2 ^ (maxLen - k) := by
  rw [behind,counts_mod few,Nat.mod_eq_of_lt (few k)]

theorem Built.scan_eq (built : Built length g) (few : ∀ l, counts length l < 256) (inside : symbol < length.length)
    (low : code length symbol * 2 ^ (g.maxLen - length.getD symbol 0) ≤ j)
    (high : j < (code length symbol + 1) * 2 ^ (g.maxLen - length.getD symbol 0))
    (sentinel : (j : Int) ≤ g.limit (g.minLen + (g.maxLen + 1 - g.minLen))) :
    scan g.limit j (g.maxLen + 1 - g.minLen) g.minLen = length.getD symbol 0 := by
  have mem : length.getD symbol 0 ∈ length := by simp [inside]
  have bounds := built.bounds _ mem
  have rank := rank_lt inside
  have value : code length symbol = first (counts length) (length.getD symbol 0) + Canonical.rank length symbol := rfl
  generalize length.getD symbol 0 = l at *
  obtain ⟨stops,start,before⟩ := scan_spec g.limit j (g.maxLen + 1 - g.minLen) g.minLen sentinel
  generalize scan g.limit j (g.maxLen + 1 - g.minLen) g.minLen = i at *
  have own : (j : Int) ≤ g.limit l := by
    rw [built.le_limit bounds.1 bounds.2,behind_eq few]
    exact lt_of_lt_of_le high (Nat.mul_le_mul_right _ (by omega))
  have earlier : ∀ k, g.minLen ≤ k → k < l → ¬ (j : Int) ≤ g.limit k := by
    intro k above below
    have width : g.maxLen - k = (l - k) + (g.maxLen - l) := by omega
    rw [built.le_limit above (by omega),behind_eq few,width,Nat.pow_add,← mul_assoc,not_lt]
    exact le_trans (Nat.mul_le_mul_right _ (le_trans (first_scale (counts length) below) (by omega))) low
  rcases lt_trichotomy i l with less | same | more
  · exact absurd stops (earlier i start less)
  · exact same
  · exact absurd (before l bounds.1 more) (by omega)

theorem Built.decodes (built : Built length g) (complete : Complete length maxHufcodeBits)
    (most : length.length ≤ maxSymbols) (few : ∀ l, counts length l < 256) : Decodes length g := by
  intro symbol inside r rest fits begins enough
  have mem : length.getD symbol 0 ∈ length := by simp [inside]
  have bounds := built.bounds _ mem
  have width := codeword_length length symbol
  have numbers := number_take begins (by rw [width]; exact bounds.2) enough
  rw [width,number_codeword complete inside] at numbers
  have found := built.scan_eq few inside numbers.1 numbers.2 (built.below_sentinel complete enough)
  have fetched := BitReader.fetched_fetch (built.maxLen_le complete) fits
  -- the place of the symbol in the order of lengths
  have quotient : number (r.bits.take g.maxLen) >>> (g.maxLen - length.getD symbol 0) = code length symbol := by
    rw [Nat.shiftRight_eq_div_pow]
    exact Nat.div_eq_of_lt_le numbers.1 numbers.2
  have base := built.base _ bounds.1 bounds.2
  rw [counts_mod few] at base
  have place : (code length symbol : Int) - g.base (length.getD symbol 0) =
      (shorter (counts length) (length.getD symbol 0) + rank length symbol : Nat) := by
    rw [base,code]
    push_cast
    ring
  obtain ⟨longer,split⟩ := sorted_append length (Nat.succ_le_succ bounds.2)
  have entry := sorted_getElem? inside
  have index : shorter (counts length) (length.getD symbol 0) + rank length symbol < length.length := by
    have total := (List.getElem?_eq_some_iff.1 entry).1
    rw [sorted_length] at total
    exact lt_of_lt_of_le total (shorter_le length _)
  have named := built.permute _ symbol (by
    rw [split,List.getElem?_append_left (List.getElem?_eq_some_iff.1 entry).1]
    exact entry)
  unfold nextSymbol
  generalize r.fetch g.maxLen = result at fetched
  cases fetched with
  | short fewer => exact absurd fewer (by omega)
  | enough s available room back =>
    refine ⟨s.unget (g.maxLen - length.getD symbol 0),?_,?_,?_⟩
    · simp only [found,quotient,place]
      rw [if_neg (by omega),if_neg (by omega),Int.toNat_natCast,named]
    · rw [back _ (by omega),Nat.sub_sub_self bounds.2,begins,drop_left' width]
    · simp only [BitReader.Fits,BitReader.unget]
      omega

theorem Built.not_decodes (built : Built length g) (complete : Complete length maxHufcodeBits)
    (most : length.length ≤ maxSymbols) (many : 256 ≤ counts length l) : ¬ Decodes length g := by
  intro decodes
  unfold maxSymbols at most
  have mem : l ∈ length := count_pos_iff.1 (lt_of_lt_of_le (by decide) many)
  obtain ⟨symbol,inside,own,last⟩ := exists_last mem
  have bounds := built.bounds l mem
  have narrow := built.maxLen_le complete
  have width : (codeword length symbol).length = l := by rw [codeword_length,own]
  -- a stream with the code of the symbol and zeros
  let r : BitReader := ⟨[0,0,0],[],l,code length symbol⟩
  have fits : r.Fits := by
    show l < 32
    omega
  have begins : r.bits = codeword length symbol ++ ofBytesHigh [0,0,0] := by
    rw [codeword,own]
    rfl
  have enough : g.maxLen ≤ r.bits.length := by
    have zeros : (ofBytesHigh [0,0,0]).length = 24 := by decide
    rw [begins,length_append,zeros]
    omega
  have numbers := number_take begins (by rw [width]; exact bounds.2) enough
  rw [width,number_codeword complete inside] at numbers
  obtain ⟨final,decoded,rest,-⟩ := decodes symbol inside r _ fits begins enough
  have fetched := BitReader.fetched_fetch narrow fits
  unfold nextSymbol at decoded
  generalize r.fetch g.maxLen = result at fetched decoded
  cases fetched with
  | short fewer => exact absurd fewer (by omega)
  | enough s available room back =>
    obtain ⟨stops,start,-⟩ := scan_spec g.limit (number (r.bits.take g.maxLen)) (g.maxLen + 1 - g.minLen) g.minLen
      (built.below_sentinel complete enough)
    simp only at decoded
    generalize scan g.limit (number (r.bits.take g.maxLen)) (g.maxLen + 1 - g.minLen) g.minLen = i at *
    split at decoded
    · cases decoded
    split at decoded
    · cases decoded
    rw [← (Prod.mk.inj (Except.ok.inj decoded)).2] at rest
    -- as many bits were taken as the code has, but its limit is exceeded
    have taken : i = l := by
      have lengths := congrArg List.length rest
      rw [back _ (by omega),begins,length_drop,length_append,width] at lengths
      have zeros : (ofBytesHigh [0,0,0]).length = 24 := by decide
      omega
    rw [taken,built.le_limit bounds.1 bounds.2] at stops
    have before : first (counts length · % 256) l = first (counts length) l := by
      refine first_congr fun k less => Nat.mod_eq_of_lt ?_
      have both := counts_add_le length (ne_of_lt less)
      omega
    have wrapped : first (counts length) l + counts length l % 256 ≤ code length symbol := by
      rw [code,own]
      omega
    rw [behind,before] at stops
    exact absurd (lt_of_lt_of_le stops (le_trans (Nat.mul_le_mul_right _ wrapped) numbers.1)) (lt_irrefl _)

/-- The tables decode every symbol of a complete code if and only if no length is shared by 256 symbols. -/
theorem makeGroup_decodes_iff (old : Group) (stack : Nat → Nat) (length : List Nat) (least : 3 ≤ length.length)
    (most : length.length ≤ maxSymbols) (complete : Complete length maxHufcodeBits) :
    Decodes length (makeGroup old stack length) ↔ ∀ l, counts length l < 256 := by
  have nonempty : length ≠ [] := fun none => by
    rw [none] at least
    exact absurd least (by decide)
  have built := built_makeGroup old stack nonempty
  constructor
  · intro decodes l
    by_contra many
    exact built.not_decodes complete most (not_lt.1 many) decodes
  · exact built.decodes complete most

/-- Three symbols with codes of one, two and two bits. -/
theorem makeGroup_decodes_three :
    Decodes [1,2,2] (makeGroup ⟨fun _ => 0,fun _ => 0,fun _ => 0,0,0⟩ (fun _ => 0) [1,2,2]) ↔
      ∀ l, counts [1,2,2] l < 256 :=
  makeGroup_decodes_iff _ _ [1,2,2] (by decide) (by decide) ⟨by decide,by decide,by decide⟩

/-- Eight bits for each of 256 symbols: the code of the first one is refused. -/
theorem eightBits_refused :
    Complete (replicate 256 8) maxHufcodeBits ∧
    codeword (replicate 256 8) 0 = (BitReader.mk [0] [] 0 0).bits ∧
    nextSymbol (makeGroup ⟨fun _ => 0,fun _ => 0,fun _ => 0,0,0⟩ (fun _ => 0) (replicate 256 8)) ⟨[0],[],0,0⟩ matches
      .error _ :=
  ⟨⟨by decide +kernel,by decide +kernel,by decide +kernel⟩,by decide +kernel,by decide +kernel⟩

end Stablebox.Bunzip2
