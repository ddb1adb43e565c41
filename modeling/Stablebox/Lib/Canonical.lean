import Mathlib.Data.List.GetD
import Mathlib.Data.List.Induction
import Stablebox.Lib.Bits

/-! Canonical prefix codes: the codes of one length are consecutive numbers in the order of their symbols, and follow
the codes of the length below with a bit added. -/
namespace Stablebox.Canonical

open List

/-! ### Counts of codes -/

section Counts

variable (count : Nat → Nat)

def first : (length : Nat) → Nat
  | 0 => 0
  | length + 1 => 2 * (first length + count length)

def shorter : (length : Nat) → Nat
  | 0 => 0
  | length + 1 => shorter length + count length

variable {length : Nat}

theorem first_congr {count other : Nat → Nat} (agree : ∀ k < length, count k = other k) :
    first count length = first other length := by
  induction length with
  | zero => rfl
  | succ length ih =>
    rw [first,first,ih fun k less => agree k (Nat.lt_succ_of_lt less),agree length (Nat.lt_succ_self length)]

theorem first_none {count : Nat → Nat} (none : ∀ k < length, count k = 0) : first count length = 0 := by
  induction length with
  | zero => rfl
  | succ length ih =>
    rw [first,ih fun k less => none k (Nat.lt_succ_of_lt less),none length (Nat.lt_succ_self length)]

theorem shorter_none {count : Nat → Nat} (none : ∀ k < length, count k = 0) : shorter count length = 0 := by
  induction length with
  | zero => rfl
  | succ length ih =>
    rw [shorter,ih fun k less => none k (Nat.lt_succ_of_lt less),none length (Nat.lt_succ_self length)]

theorem first_scale (less : k < length) :
    (first count k + count k) * 2 ^ (length - k) ≤ first count length := by
  induction length with
  | zero => exact absurd less (Nat.not_lt_zero k)
  | succ length ih =>
    rcases Nat.lt_or_eq_of_le (Nat.le_of_lt_succ less) with shorter | rfl
    · rw [first,Nat.succ_sub (le_of_lt shorter),pow_succ,← mul_assoc,mul_comm _ 2]
      omega
    · rw [first,Nat.succ_sub (Nat.le_refl k),Nat.sub_self,Nat.pow_one,Nat.mul_comm]

end Counts

/-! ### Lists of lengths -/

variable (lengths : List Nat)

def counts (length : Nat) : Nat := lengths.count length

/-- The code space that is taken at a width, in codes of that width. -/
def kraft (width : Nat) : Nat := (lengths.map fun length => if length ≤ width then 2 ^ (width - length) else 0).sum

/-- A prefix code with these lengths uses up the code space. -/
structure Complete (width : Nat) : Prop where
  positive : ∀ length ∈ lengths, 0 < length
  short : ∀ length ∈ lengths, length ≤ width
  space : kraft lengths width = 2 ^ width

theorem kraft_succ (width : Nat) :
    kraft lengths (width + 1) = 2 * kraft lengths width + counts lengths (width + 1) := by
  induction lengths with
  | nil => rfl
  | cons length lengths ih =>
    have share : (if length ≤ width + 1 then 2 ^ (width + 1 - length) else 0) =
        2 * (if length ≤ width then 2 ^ (width - length) else 0) + if length = width + 1 then 1 else 0 := by
      rcases lt_trichotomy length (width + 1) with less | rfl | more
      · rw [if_pos (le_of_lt less),if_pos (Nat.le_of_lt_succ less),if_neg (ne_of_lt less),
          Nat.succ_sub (Nat.le_of_lt_succ less),Nat.pow_succ']
        rfl
      · simp
      · rw [if_neg (by omega),if_neg (by omega),if_neg (by omega)]
    simp only [kraft,counts,map_cons,sum_cons,count_cons,beq_iff_eq] at ih ⊢
    omega

theorem kraft_zero : kraft lengths 0 = counts lengths 0 := by
  induction lengths with
  | nil => rfl
  | cons length lengths ih =>
    simp only [kraft,counts,map_cons,sum_cons,count_cons,beq_iff_eq,Nat.le_zero] at ih ⊢
    rw [ih,add_comm]
    split <;> simp [*]

/-- The code behind the last one of a length is the code space that is taken. -/
theorem first_add_counts (length : Nat) :
    first (counts lengths) length + counts lengths length = kraft lengths length := by
  induction length with
  | zero => rw [first,zero_add,kraft_zero]
  | succ length ih => rw [first,ih,kraft_succ]

variable {length : Nat}

theorem kraft_scale (le : length ≤ width) : kraft lengths length * 2 ^ (width - length) ≤ kraft lengths width := by
  rcases Nat.lt_or_eq_of_le le with less | rfl
  · rw [← first_add_counts,← first_add_counts]
    exact Nat.le_add_right_of_le (first_scale _ less)
  · simp

variable {lengths}

theorem Complete.space_le (complete : Complete lengths width) (le : length ≤ width) :
    first (counts lengths) length + counts lengths length ≤ 2 ^ length := by
  have scaled := kraft_scale lengths le
  have split : 2 ^ width = 2 ^ length * 2 ^ (width - length) := by rw [← Nat.pow_add,Nat.add_sub_cancel' le]
  rw [complete.space,split] at scaled
  rw [first_add_counts]
  exact Nat.le_of_mul_le_mul_right scaled (Nat.two_pow_pos _)

theorem shorter_eq_countP (lengths : List Nat) (length : Nat) :
    shorter (counts lengths) length = lengths.countP (· < length) := by
  induction length with
  | zero => simp [shorter]
  | succ length ih =>
    have split (all : List Nat) : all.countP (· < length + 1) = all.countP (· < length) + all.count length := by
      induction all with
      | nil => rfl
      | cons head all ih =>
        simp only [countP_cons,count_cons,ih,decide_eq_true_eq,beq_iff_eq]
        split <;> split <;> split <;> omega
    rw [shorter,ih,split,counts]

theorem shorter_le (lengths : List Nat) (length : Nat) : shorter (counts lengths) length ≤ lengths.length := by
  rw [shorter_eq_countP]
  exact countP_le_length

theorem counts_add_le (lengths : List Nat) (other : k ≠ length) :
    counts lengths k + counts lengths length ≤ lengths.length := by
  induction lengths with
  | nil => exact le_refl 0
  | cons head lengths ih =>
    simp only [counts,count_cons,length_cons,beq_iff_eq] at ih ⊢
    split <;> split <;> omega

variable (lengths)

/-! ### Symbols -/

/-- The symbols of a length, in their order. -/
def ofLength (length : Nat) : List Nat :=
  (List.range lengths.length).filter fun symbol => lengths.getD symbol 0 = length

def sorted (length : Nat) : List Nat := (List.range length).flatMap (ofLength lengths)

/-- The place of a symbol among those of its length. -/
def rank (symbol : Nat) : Nat := counts (lengths.take symbol) (lengths.getD symbol 0)

def code (symbol : Nat) : Nat := first (counts lengths) (lengths.getD symbol 0) + rank lengths symbol

def codeword (symbol : Nat) : List Bool := Bits.high (lengths.getD symbol 0) (code lengths symbol)

theorem range_map_getD {count : Nat} (le : count ≤ lengths.length) :
    (List.range count).map (fun symbol => lengths.getD symbol 0) = lengths.take count := by
  apply ext_getElem
  · simp [le]
  intro i before after
  have inside : i < lengths.length := by simp at before; omega
  simp [inside]

theorem filter_length {count : Nat} (le : count ≤ lengths.length) (length : Nat) :
    ((List.range count).filter fun symbol => lengths.getD symbol 0 = length).length =
      counts (lengths.take count) length := by
  rw [counts,← range_map_getD lengths le,List.count,countP_map,countP_eq_length_filter]
  rfl

theorem ofLength_length (length : Nat) : (ofLength lengths length).length = counts lengths length := by
  rw [ofLength,filter_length lengths (le_refl _),take_length]

theorem sorted_succ (length : Nat) :
    sorted lengths (length + 1) = sorted lengths length ++ ofLength lengths length := by
  rw [sorted,range_succ,flatMap_append,flatMap_singleton]
  rfl

theorem sorted_append (le : length ≤ width) : ∃ rest, sorted lengths width = sorted lengths length ++ rest := by
  induction width with
  | zero => exact ⟨[],by rw [Nat.le_zero.1 le,append_nil]⟩
  | succ width ih =>
    rcases Nat.lt_or_eq_of_le le with less | rfl
    · obtain ⟨rest,split⟩ := ih (Nat.le_of_lt_succ less)
      exact ⟨rest ++ ofLength lengths width,by rw [sorted_succ,split,append_assoc]⟩
    · exact ⟨[],(append_nil _).symm⟩

theorem sorted_length (length : Nat) : (sorted lengths length).length = shorter (counts lengths) length := by
  induction length with
  | zero => rfl
  | succ length ih => rw [sorted_succ,length_append,ih,ofLength_length,shorter]

theorem sorted_none (none : ∀ k < length, k ∉ lengths) : sorted lengths length = [] := by
  apply eq_nil_of_length_eq_zero
  rw [sorted_length]
  exact shorter_none fun k less => count_eq_zero.mpr (none k less)

variable {lengths}

theorem ofLength_split (inside : symbol < lengths.length) :
    ∃ before after, ofLength lengths (lengths.getD symbol 0) = before ++ symbol :: after ∧
      before.length = rank lengths symbol := by
  obtain ⟨more,total⟩ := Nat.exists_eq_add_of_lt inside
  have range : List.range lengths.length =
      List.range symbol ++ symbol :: (List.range more).map (symbol + 1 + ·) := by
    rw [total,add_right_comm,range_add,range_succ,append_assoc]
    rfl
  have split : ofLength lengths (lengths.getD symbol 0) =
      ((List.range symbol).filter fun other => lengths.getD other 0 = lengths.getD symbol 0) ++
        symbol :: ((List.range more).map (symbol + 1 + ·)).filter fun other =>
          lengths.getD other 0 = lengths.getD symbol 0 := by
    rw [ofLength,range,filter_append,filter_cons_of_pos (by simp)]
  exact ⟨_,_,split,filter_length lengths (le_of_lt inside) (lengths.getD symbol 0)⟩

theorem rank_lt (inside : symbol < lengths.length) : rank lengths symbol < counts lengths (lengths.getD symbol 0) := by
  obtain ⟨before,after,split,place⟩ := ofLength_split inside
  have total := congrArg List.length split
  rw [ofLength_length,length_append,length_cons] at total
  omega

theorem sorted_getElem? (inside : symbol < lengths.length) :
    (sorted lengths (lengths.getD symbol 0 + 1))[
      shorter (counts lengths) (lengths.getD symbol 0) + rank lengths symbol]? =
      some symbol := by
  obtain ⟨before,after,split,place⟩ := ofLength_split inside
  rw [sorted_succ,split,← sorted_length,getElem?_append_right (Nat.le_add_right _ _),Nat.add_sub_cancel_left,← place]
  simp

theorem exists_rank (less : place < counts lengths length) :
    ∃ symbol < lengths.length, lengths.getD symbol 0 = length ∧ rank lengths symbol = place := by
  induction lengths using List.reverseRecOn with
  | nil => exact absurd less (Nat.not_lt_zero _)
  | append_singleton lengths final ih =>
    rw [counts,count_append,count_singleton,← counts] at less
    by_cases earlier : place < counts lengths length
    · obtain ⟨symbol,inside,value,found⟩ := ih earlier
      have entry : (lengths ++ [final]).getD symbol 0 = length := by
        rw [getD_append _ _ _ _ inside]
        exact value
      refine ⟨symbol,by rw [length_append]; omega,entry,?_⟩
      rw [rank,value] at found
      rw [rank,entry,take_append_of_le_length (le_of_lt inside),found]
    · by_cases same : final = length
      · refine ⟨lengths.length,by simp,by simp [same],?_⟩
        have last : place = counts lengths length := by
          rw [if_pos (beq_iff_eq.2 same)] at less
          omega
        simp [rank,same,last]
      · rw [if_neg (fun equal => same (beq_iff_eq.1 equal))] at less
        exact absurd less earlier

theorem exists_last (mem : length ∈ lengths) :
    ∃ symbol < lengths.length, lengths.getD symbol 0 = length ∧ rank lengths symbol + 1 = counts lengths length := by
  have positive : 0 < counts lengths length := count_pos_iff.2 mem
  obtain ⟨symbol,inside,value,found⟩ := exists_rank (Nat.sub_lt positive Nat.one_pos)
  exact ⟨symbol,inside,value,by omega⟩

theorem Complete.code_lt (complete : Complete lengths width) (inside : symbol < lengths.length) :
    code lengths symbol < 2 ^ lengths.getD symbol 0 := by
  have mem : lengths.getD symbol 0 ∈ lengths := by simp [inside]
  have space := complete.space_le (complete.short _ mem)
  have less := rank_lt inside
  rw [code]
  omega

end Stablebox.Canonical
