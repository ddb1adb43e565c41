import Stablebox.Lib.BurrowsWheeler
import Stablebox.Archival.Bunzip2

/-! The sequence vector undoes the Burrows-Wheeler transform: the loop of
`get_next_block` enters every place at its rank, so the links are the stable order of
the last column, and following them reads the block in its own order. -/
namespace Stablebox.Bunzip2

open BurrowsWheeler List UInt32

def pack (c : UInt8) (next : Nat) : UInt32 := c.toUInt32 ||| ofNat (next <<< 8)

theorem pack_toNat (c : UInt8) {next : Nat} (small : next < 2 ^ 23) : (pack c next).toNat = next * 256 + c.toNat := by
  have byte : c.toNat < 2 ^ 8 := c.toNat_lt
  have shifted : next <<< 8 = next * 256 := Nat.shiftLeft_eq next 8
  have value : (ofNat (next <<< 8)).toNat = next <<< 8 := by
    rw [UInt32.toNat_ofNat',Nat.mod_eq_of_lt (by omega)]
  rw [pack,UInt32.toNat_or,UInt8.toNat_toUInt32,value,Nat.or_comm,← Nat.shiftLeft_add_eq_or_of_lt byte,shifted]

theorem pack_low (c : UInt8) {next : Nat} (small : next < 2 ^ 23) : (pack c next &&& 0xff).toNat = c.toNat := by
  have byte := c.toNat_lt
  have value := pack_toNat c small
  show (pack c next).toNat &&& (2 ^ 8 - 1) = _
  rw [Nat.and_two_pow_sub_one_eq_mod,value]
  omega

theorem pack_zero (c : UInt8) : pack c 0 = c.toUInt32 := by
  apply UInt32.toNat_inj.mp
  rw [pack_toNat c (by decide),UInt8.toNat_toUInt32]
  omega

theorem pack_or (c : UInt8) (next : Nat) : pack c 0 ||| ofNat (next <<< 8) = pack c next := by
  rw [pack_zero,pack]

theorem follow_pack {pos next : Nat} (small : next < 2 ^ 23) (here : dbuf[pos]? = some (pack c next)) :
    follow dbuf pos = some (c,next) := by
  have byte := c.toNat_lt
  have value := pack_toNat c small
  have positive : pack c next < 0x80000000 := by
    rw [lt_iff_toNat_lt,value]
    show _ < 2147483648
    omega
  have low : (pack c next).toUInt8 = c := by
    apply UInt8.toNat_inj.mp
    rw [toNat_toUInt8,value]
    omega
  have high : (pack c next >>> 8).toNat = next := by
    rw [UInt32.toNat_shiftRight,value]
    show _ >>> 8 = _
    omega
  rw [follow,here]
  simp [positive,low,high]

/-- The transform of a block: the last bytes of its sorted rotations. -/
def burrowsWheeler (data : List UInt8) : List UInt8 := (lastColumn (data.map UInt8.toNat)).map UInt8.ofNat

/-- Row `origPtr` of the sorted rotations is the block itself. -/
def Original (data : List UInt8) (origPtr : Nat) : Prop :=
  (matrix (data.map UInt8.toNat))[origPtr]? = some (data.map UInt8.toNat)

instance (data : List UInt8) (origPtr : Nat) : Decidable (Original data origPtr) :=
  inferInstanceAs (Decidable (_ = _))

theorem mem_lastColumn {y : Nat} (member : y ∈ lastColumn x) : y ∈ x := by
  obtain ⟨row,inside,last⟩ := mem_filterMap.mp member
  obtain ⟨k,_,rfl⟩ := mem_matrix inside
  exact mem_rotate.mp (mem_of_getLast? last)

theorem burrowsWheeler_toNat (data : List UInt8) :
    (burrowsWheeler data).map UInt8.toNat = lastColumn (data.map UInt8.toNat) := by
  rw [burrowsWheeler,map_map]
  refine (map_congr_left fun y member => ?_).trans (map_id _)
  obtain ⟨b,_,rfl⟩ := mem_map.mp (mem_lastColumn member)
  simp

theorem burrowsWheeler_length (data : List UInt8) : (burrowsWheeler data).length = data.length := by
  simp [burrowsWheeler,lastColumn_length]

/-! The counts of `byteCount`. -/

theorem cumulate_length (j : Nat) (counts : List Nat) : (cumulate j counts).length = counts.length := by
  induction counts generalizing j with
  | nil => rfl
  | cons count rest ih => rw [cumulate,length_cons,ih,length_cons]

theorem cumulate_getElem? (j c : Nat) (counts : List Nat) (bound : c < counts.length) :
    (cumulate j counts)[c]? = some (j + (counts.take c).sum) := by
  induction counts generalizing j c with
  | nil => simp at bound
  | cons count rest ih =>
    cases c with
    | zero => simp [cumulate]
    | succ c =>
      rw [cumulate,getElem?_cons_succ,ih _ c (by simpa using bound),take_succ_cons,sum_cons,Nat.add_assoc]

theorem countP_lt_succ (column : List Nat) (c : Nat) :
    column.countP (fun y => decide (y < c + 1)) = column.countP (fun y => decide (y < c)) + column.count c := by
  induction column with
  | nil => rfl
  | cons y rest ih =>
    simp only [countP_cons,count_cons,beq_iff_eq,decide_eq_true_eq,ih]
    rcases Nat.lt_trichotomy y c with less | rfl | more
    · rw [if_pos (by omega),if_pos less,if_neg (by omega)]
      omega
    · rw [if_pos (by omega),if_neg (by omega),if_pos rfl]
      omega
    · rw [if_neg (by omega),if_neg (by omega),if_neg (by omega)]
      omega

theorem count_toNat (bytes : List UInt8) (b : UInt8) : (bytes.map UInt8.toNat).count b.toNat = bytes.count b :=
  count_map_of_injective bytes UInt8.toNat (fun _ _ => UInt8.toNat_inj.mp) b

theorem counts_sum (bytes : List UInt8) (bound : c ≤ 256) :
    ((range c).map fun c => bytes.count (UInt8.ofNat c)).sum =
      (bytes.map UInt8.toNat).countP fun y => decide (y < c) := by
  induction c with
  | zero => simp
  | succ c ih =>
    have value : (UInt8.ofNat c).toNat = c := by
      exact Nat.mod_eq_of_lt (by omega)
    rw [range_succ,map_append,sum_append,ih (by omega),countP_lt_succ,map_singleton,sum_singleton,← count_toNat,value]

/-! The loop that enters the links. -/

/-- After `i` turns the first `i` places are entered at their ranks, the other entries
have no link yet, and `byteCount` says where the next place of each byte belongs. -/
structure Linked (bytes : List UInt8) (i : Nat) (state : List UInt32 × List Nat) (links : List Nat) : Prop where
  vector : state.1 = zipWith pack bytes links
  length : links.length = bytes.length
  small : ∀ next ∈ links, next < 2 ^ 23
  placed : ∀ j b, j < i → bytes[j]? = some b → links[rank (bytes.map UInt8.toNat) j b.toNat]? = some j
  free : ∀ p, p < links.length → links[p]? = some 0 ∨
    ∃ j b, j < i ∧ bytes[j]? = some b ∧ p = rank (bytes.map UInt8.toNat) j b.toNat
  size : state.2.length = 256
  counts : ∀ b : UInt8, state.2.getD b.toNat 0 = rank (bytes.map UInt8.toNat) i b.toNat

theorem linked_start (bytes : List UInt8) :
    Linked bytes 0
      (bytes.map UInt8.toUInt32,cumulate 0 ((range 256).map fun c => bytes.count (UInt8.ofNat c)))
      (replicate bytes.length 0) := by
  constructor
  · apply ext_getElem (by simp)
    intro p _ _
    simp [pack_zero]
  · simp
  · intro next member
    rw [(mem_replicate.mp member).2]
    decide
  · intro j b early
    omega
  · intro p bound
    rw [length_replicate] at bound
    exact .inl (by simp [bound])
  · simp [cumulate_length]
  · intro b
    have bound := b.toNat_lt
    have here := cumulate_getElem? 0 b.toNat ((range 256).map fun c => bytes.count (UInt8.ofNat c))
      (by simpa using bound)
    rw [getD_eq_getElem?_getD,here,Option.getD_some,← map_take,take_range,
      Nat.min_eq_left (by omega),counts_sum bytes (by omega),rank]
    simp

theorem toNat_getElem? {bytes : List UInt8} {i : Nat} (here : bytes[i]? = some b) :
    (bytes.map UInt8.toNat)[i]? = some b.toNat := by
  rw [getElem?_map,here,Option.map_some]

theorem Linked.next_free (linked : Linked bytes i state links) {b : UInt8} (here : bytes[i]? = some b) :
    links[rank (bytes.map UInt8.toNat) i b.toNat]? = some 0 := by
  have column := toNat_getElem? here
  have inside := rank_lt_length column
  rw [length_map,← linked.length] at inside
  rcases linked.free _ inside with zero | ⟨j,c,early,there,same⟩
  · exact zero
  · have equal := rank_injective column (toNat_getElem? there) same
    omega

theorem zipWith_link (bytes : List UInt8) (i : Nat) (unlinked : links[p]? = some 0) :
    (zipWith pack bytes links).modify p (· ||| ofNat (i <<< 8)) =
      zipWith pack bytes (links.set p i) := by
  apply ext_getElem?
  intro k
  rw [getElem?_modify,getElem?_zipWith,getElem?_zipWith,getElem?_set]
  by_cases same : p = k
  · subst same
    have inside := (List.getElem?_eq_some_iff.mp unlinked).1
    simp only [unlinked,if_true,inside]
    cases bytes[p]? with
    | none => rfl
    | some c => exact congrArg some (pack_or c i)
  · simp [same]

theorem Linked.byte (linked : Linked bytes i state links) (b : UInt8) (here : bytes[i]? = some b) :
    (state.1.getD i 0 &&& 0xff).toNat = b.toNat := by
  have present : i < links.length := by
    rw [linked.length]
    exact (List.getElem?_eq_some_iff.mp here).1
  rw [getD_eq_getElem?_getD,linked.vector,getElem?_zipWith,here,getElem?_eq_getElem present]
  exact pack_low b (linked.small _ (getElem_mem present))

theorem Linked.turn
    (linked : Linked bytes i state links) (b : UInt8) (here : bytes[i]? = some b) (bound : bytes.length < 2 ^ 23) :
    Linked bytes (i + 1) (link state i) (links.set (rank (bytes.map UInt8.toNat) i b.toNat) i) := by
  have unlinked := linked.next_free here
  have inside := (List.getElem?_eq_some_iff.mp unlinked).1
  have early := (List.getElem?_eq_some_iff.mp here).1
  have column := toNat_getElem? here
  have low := linked.byte b here
  have counted := linked.counts b
  constructor
  · show state.1.modify (state.2.getD (state.1.getD i 0 &&& 0xff).toNat 0) _ = _
    rw [low,counted,linked.vector,zipWith_link bytes i unlinked]
  · rw [length_set,linked.length]
  · intro next member
    rcases mem_or_eq_of_mem_set member with old | rfl
    · exact linked.small next old
    · omega
  · intro j c before there
    rw [getElem?_set]
    split
    case isTrue same =>
      rw [rank_injective column (toNat_getElem? there) same]
    case isFalse differs =>
      refine linked.placed j c (Nat.lt_of_le_of_ne (Nat.lt_succ_iff.mp before) ?_) there
      rintro rfl
      rw [here,Option.some.injEq] at there
      exact differs (by rw [there])
  · intro p present
    rw [length_set] at present
    rw [getElem?_set]
    split
    case isTrue same => exact .inr ⟨i,b,Nat.lt_succ_self i,here,same.symm⟩
    case isFalse differs =>
      rcases linked.free p present with zero | ⟨j,c,before,there,place⟩
      · exact .inl zero
      · exact .inr ⟨j,c,Nat.lt_succ_of_lt before,there,place⟩
  · show (state.2.modify (state.1.getD i 0 &&& 0xff).toNat _).length = 256
    rw [length_modify,linked.size]
  · intro c
    show (state.2.modify (state.1.getD i 0 &&& 0xff).toNat (· + 1)).getD c.toNat 0 = _
    have old := linked.counts c
    have cByte := c.toNat_lt
    have cInside : c.toNat < state.2.length := by rw [linked.size]; omega
    rw [getD_eq_getElem?_getD,getElem?_eq_getElem cInside,Option.getD_some] at old
    rw [low,getD_eq_getElem?_getD,getElem?_modify,getElem?_eq_getElem cInside,rank,take_add_one,column,count_append]
    rw [rank] at old
    by_cases same : b = c
    · subst same
      simp [old]
      omega
    · have differs : b.toNat ≠ c.toNat := fun equal => same (UInt8.toNat_inj.mp equal)
      simp [old,differs]

theorem linked_run (bound : bytes.length < 2 ^ 23) (le : i ≤ bytes.length) :
    ∃ links, Linked bytes i ((range i).foldl link
      (bytes.map UInt8.toUInt32,cumulate 0 ((range 256).map fun c => bytes.count (UInt8.ofNat c)))) links := by
  induction i with
  | zero => exact ⟨_,linked_start bytes⟩
  | succ i ih =>
    obtain ⟨links,linked⟩ := ih (by omega)
    rw [range_succ (n := i),foldl_append]
    exact ⟨_,linked.turn bytes[i] (getElem?_eq_getElem le) bound⟩

/-- The vector holds each byte with its place in the stable order of the block. -/
theorem sequenceVector_links (bytes : List UInt8) (bound : bytes.length < 2 ^ 23) :
    ∃ order, sequenceVector bytes = zipWith pack bytes order ∧
      StableOrder (bytes.map UInt8.toNat) order ∧ ∀ next ∈ order, next < 2 ^ 23 := by
  obtain ⟨links,linked⟩ := linked_run bound le_rfl
  refine ⟨links,linked.vector,?_,linked.small⟩
  apply stableOrder_of_rank (by rw [length_map,linked.length])
  intro i x here
  rw [getElem?_map] at here
  obtain ⟨b,there,rfl⟩ := Option.map_eq_some_iff.mp here
  exact linked.placed i b (List.getElem?_eq_some_iff.mp there).1 there

/-! Following the vector. -/

def Walk (dbuf : List UInt32) : (pos : Nat) → (data : List UInt8) → Prop
  | _,[] => True
  | pos,b :: data => ∃ next, follow dbuf pos = some (b,next) ∧ Walk dbuf next data

theorem walk_of_iterate (dbuf : List UInt32) (next : Nat → Nat) (data : List UInt8) (pos : Nat)
    (steps : ∀ k (bound : k < data.length), follow dbuf (next^[k] pos) = some (data[k],next (next^[k] pos))) :
    Walk dbuf pos data := by
  induction data generalizing pos with
  | nil => trivial
  | cons b data ih =>
    refine ⟨next pos,steps 0 (by simp),ih (next pos) fun k bound => ?_⟩
    have later := steps (k + 1) (by simpa using bound)
    rwa [Function.iterate_succ_apply] at later

theorem sequenceVector_walk (original : Original data origPtr) (bound : data.length < 2 ^ 23) :
    ∃ first pos, follow (sequenceVector (burrowsWheeler data)) origPtr = some (first,pos) ∧
      Walk (sequenceVector (burrowsWheeler data)) pos data := by
  have length := burrowsWheeler_length data
  obtain ⟨order,vector,stable,small⟩ := sequenceVector_links (burrowsWheeler data) (by omega)
  have size := stable.perm.length_eq
  rw [length_map,length_range,length] at size
  let next (p : Nat) : Nat := order.getD p 0
  have entry (p : Nat) (c : UInt8) (here : (burrowsWheeler data)[p]? = some c) :
      follow (sequenceVector (burrowsWheeler data)) p = some (c,next p) := by
    have inside : p < order.length := by
      have := (List.getElem?_eq_some_iff.mp here).1
      omega
    have link : order[p]? = some (next p) := by
      simp [next,getD_eq_getElem?_getD,inside]
    apply follow_pack
    · exact small _ (mem_of_getElem? link)
    · rw [vector,getElem?_zipWith,here,link]
  rw [burrowsWheeler_toNat] at stable
  have start : origPtr < (burrowsWheeler data).length := by
    have := (List.getElem?_eq_some_iff.mp original).1
    rw [matrix_length,length_map] at this
    omega
  refine ⟨_,next origPtr,entry origPtr _ (getElem?_eq_getElem start),?_⟩
  apply walk_of_iterate _ next
  intro k inside
  apply entry
  have read := lastColumn_iterate stable original (by rwa [length_map])
  show (map _ _)[next^[k + 1] origPtr]? = _
  rw [getElem?_map,read,Option.map_some,getElem_map,UInt8.ofNat_toNat]

end Stablebox.Bunzip2
