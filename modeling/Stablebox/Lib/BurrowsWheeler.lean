import Mathlib.Data.List.GetD
import Mathlib.Data.List.Lex
import Mathlib.Data.List.Rotate
import Mathlib.Data.List.Sort

/-! The Burrows-Wheeler transform of a list: the last column of its sorted rotations.
The transform is undone by following the permutation that sorts that column stably. -/
namespace Stablebox.BurrowsWheeler

open List

variable {α : Type} [LinearOrder α]

def rotations (x : List α) : List (List α) := (range x.length).map x.rotate

def matrix (x : List α) : List (List α) := (rotations x).insertionSort (· ≤ ·)

def lastColumn (x : List α) : List α := (matrix x).filterMap getLast?

def rotateBack (row : List α) : List α := row.rotate (row.length - 1)

theorem matrix_sorted (x : List α) : (matrix x).Pairwise (· ≤ ·) := pairwise_insertionSort _ _

theorem matrix_perm (x : List α) : (matrix x).Perm (rotations x) := perm_insertionSort _ _

theorem matrix_length (x : List α) : (matrix x).length = x.length := by
  rw [(matrix_perm x).length_eq,rotations,length_map,length_range]

variable {x column : List α}

theorem mem_matrix (member : row ∈ matrix x) : ∃ k < x.length, row = x.rotate k := by
  have there := (matrix_perm x).mem_iff.mp member
  obtain ⟨k,inside,rfl⟩ := mem_map.mp there
  exact ⟨k,mem_range.mp inside,rfl⟩

theorem row_length (member : row ∈ matrix x) : row.length = x.length := by
  obtain ⟨k,_,rfl⟩ := mem_matrix member
  exact length_rotate ..

theorem lastColumn_eq (x : List α) : (lastColumn x).map some = (matrix x).map getLast? := by
  rw [lastColumn,map_filterMap_some_eq_filter_map_isSome,filter_eq_self,forall_mem_map]
  intro row member
  have length := row_length member
  obtain ⟨k,inside,_⟩ := mem_matrix member
  rw [getLast?_eq_getElem?,isSome_getElem?]
  omega

theorem lastColumn_length (x : List α) : (lastColumn x).length = x.length := by
  have same := congrArg List.length (lastColumn_eq x)
  rwa [length_map,length_map,matrix_length] at same

theorem rotateBack_perm (x : List α) : ((matrix x).map rotateBack).Perm (matrix x) := by
  refine ((matrix_perm x).map rotateBack).trans (List.Perm.trans ?_ (matrix_perm x).symm)
  have shifted : (rotations x).map rotateBack =
      ((range x.length).rotate (x.length - 1)).map x.rotate := by
    apply ext_getElem (by simp [rotations])
    intro k first _
    simp only [rotations,getElem_map,getElem_range,rotateBack,length_rotate,getElem_rotate,length_range]
    rw [rotate_rotate,rotate_mod]
  rw [shifted]
  exact (rotate_perm _ _).map _

theorem append_lt_append (a b : List α) (s t : List α) (same : a.length = b.length) (less : a < b) :
    a ++ s < b ++ t := by
  induction a generalizing b with
  | nil =>
    cases b with
    | nil => exact absurd less (lt_irrefl _)
    | cons y b => simp at same
  | cons x a ih =>
    cases b with
    | nil => simp at same
    | cons y b =>
      rcases cons_lt_cons_iff.mp less with head | ⟨rfl,tail⟩
      · exact cons_lt_cons_iff.mpr (.inl head)
      · exact cons_lt_cons_iff.mpr (.inr ⟨rfl,ih b (by simpa using same) tail⟩)

theorem cons_le_cons_of_append {a b : List α} {x y : α} (same : a.length = b.length)
    (le : a ++ [x] ≤ b ++ [y]) (first : x ≤ y) : x :: a ≤ y :: b := by
  rcases lt_or_eq_of_le first with less | rfl
  · exact le_of_lt (cons_lt_cons_iff.mpr (.inl less))
  apply cons_le_cons
  by_contra above
  exact absurd le (not_le_of_gt (append_lt_append b a _ _ same.symm (not_le.mp above)))

omit [LinearOrder α] in
theorem rotateBack_append (a : List α) (x : α) : rotateBack (a ++ [x]) = x :: a := by
  rw [rotateBack,length_append,length_singleton,Nat.add_sub_cancel]
  exact rotate_append_length_eq a [x]

variable {i : Nat}

theorem row_split (bound : i < (matrix x).length) :
    ∃ front last, (matrix x).getD i [] = front ++ [last] ∧ (lastColumn x)[i]? = some last ∧
      front.length + 1 = x.length := by
  have here : (matrix x)[i]? = some ((matrix x).getD i []) := by
    simp [getD_eq_getElem?_getD,bound]
  have column := congrArg (fun list : List (Option α) => list[i]?) (lastColumn_eq x)
  simp only [getElem?_map,here,Option.map_some] at column
  obtain ⟨last,there,ends⟩ := Option.map_eq_some_iff.mp column
  obtain ⟨front,shape⟩ := getLast?_eq_some_iff.mp ends.symm
  refine ⟨front,last,shape,there,?_⟩
  rw [← row_length (mem_of_getElem? here),shape,length_append,length_singleton]

/-- An order of the places of a column that sorts it stably. -/
structure StableOrder (column : List α) (order : List Nat) : Prop where
  perm : order.Perm (range column.length)
  sorted : order.Pairwise fun i j => ∀ x y, column[i]? = some x → column[j]? = some y → x < y ∨ x = y ∧ i < j

theorem StableOrder.rows (stable : StableOrder (lastColumn x) order) : order.Perm (range (matrix x).length) := by
  rw [matrix_length,← lastColumn_length x]
  exact stable.perm

theorem row_order (stable : StableOrder (lastColumn x) order) :
    (order.map fun i => rotateBack ((matrix x).getD i [])) = matrix x := by
  have rows : ((range (matrix x).length).map fun i => (matrix x).getD i []) = matrix x := by
    apply ext_getElem (by simp)
    intro i _ bound
    simp [getD_eq_getElem?_getD,bound]
  refine List.Perm.eq_of_pairwise (fun _ _ _ _ => le_antisymm) ?_ (matrix_sorted x) ?_
  rotate_left
  · have back := (stable.rows.map fun i => (matrix x).getD i []).map rotateBack
    rw [rows,map_map] at back
    exact back.trans (rotateBack_perm x)
  · rw [pairwise_map]
    refine stable.sorted.imp_of_mem ?_
    intro i j first second before
    have boundI := mem_range.mp (stable.rows.mem_iff.mp first)
    have boundJ := mem_range.mp (stable.rows.mem_iff.mp second)
    obtain ⟨a,u,rowI,columnI,lengthI⟩ := row_split boundI
    obtain ⟨b,v,rowJ,columnJ,lengthJ⟩ := row_split boundJ
    have ranked := before u v columnI columnJ
    rw [rowI,rowJ,rotateBack_append,rotateBack_append]
    rcases ranked with less | ⟨rfl,earlier⟩
    · exact le_of_lt (cons_lt_cons_iff.mpr (.inl less))
    apply cons_le_cons_of_append (by omega) ?_ le_rfl
    rw [← rowI,← rowJ]
    simp only [getD_eq_getElem?_getD,getElem?_eq_getElem boundI,getElem?_eq_getElem boundJ,Option.getD_some]
    exact (pairwise_iff_getElem.mp (matrix_sorted x)) i j boundI boundJ earlier

def rank (column : List α) (i : Nat) (x : α) : Nat :=
  column.countP (fun y => decide (y < x)) + (column.take i).count x

theorem count_below (column : List α) {x y : α} (less : x < y) :
    column.countP (fun z => decide (z < x)) + column.count x ≤ column.countP (fun z => decide (z < y)) := by
  induction column with
  | nil => simp
  | cons z rest ih =>
    simp only [countP_cons,count_cons,beq_iff_eq,decide_eq_true_eq]
    by_cases below : z < x
    · rw [if_pos below,if_neg (ne_of_lt below),if_pos (below.trans less)]
      omega
    by_cases equal : z = x
    · rw [if_neg below,if_pos equal,if_pos (equal ▸ less)]
      omega
    · rw [if_neg below,if_neg equal]
      omega

theorem count_le_length (column : List α) (x : α) :
    column.countP (fun z => decide (z < x)) + column.count x ≤ column.length := by
  rw [length_eq_countP_add_countP fun z => decide (z < x)]
  exact Nat.add_le_add_left (countP_mono_left fun z _ same => by simp [beq_iff_eq.mp same]) _

theorem count_take_succ {x : α} (here : column[i]? = some x) :
    (column.take (i + 1)).count x = (column.take i).count x + 1 := by
  rw [take_add_one,here]
  simp

theorem rank_lt_length {x : α} (here : column[i]? = some x) : rank column i x < column.length := by
  have whole := count_le_length column x
  have succ := count_take_succ here
  have part := (take_sublist (i + 1) column).count_le x
  rw [rank]
  omega

theorem rank_lt (column : List α) (i j : Nat) (x y : α) (hereI : column[i]? = some x)
    (before : x < y ∨ x = y ∧ i < j) : rank column i x < rank column j y := by
  have succ := count_take_succ hereI
  rw [rank,rank]
  rcases before with less | ⟨rfl,earlier⟩
  · have below := count_below column less
    have part := (take_sublist (i + 1) column).count_le x
    omega
  · have later := (take_sublist_take_left (l := column) (show i + 1 ≤ j from earlier)).count_le x
    omega

theorem rank_trichotomy {x y : α} (hereI : column[i]? = some x) (hereJ : column[j]? = some y) :
    (x < y ∨ x = y ∧ i < j) ∧ rank column i x < rank column j y ∨ i = j ∨ rank column j y < rank column i x := by
  rcases lt_trichotomy x y with less | rfl | more
  · exact .inl ⟨.inl less,rank_lt column i j x y hereI (.inl less)⟩
  · rcases lt_trichotomy i j with less | equal | more
    · exact .inl ⟨.inr ⟨rfl,less⟩,rank_lt column i j x x hereI (.inr ⟨rfl,less⟩)⟩
    · exact .inr (.inl equal)
    · exact .inr (.inr (rank_lt column j i x x hereJ (.inr ⟨rfl,more⟩)))
  · exact .inr (.inr (rank_lt column j i y x hereJ (.inl more)))

theorem rank_injective {x y : α} (hereI : column[i]? = some x) (hereJ : column[j]? = some y)
    (same : rank column i x = rank column j y) : i = j := by
  have := rank_trichotomy hereI hereJ
  omega

theorem stableOrder_of_rank (length : order.length = column.length)
    (placed : ∀ i x, column[i]? = some x → order[rank column i x]? = some i) : StableOrder column order := by
  have perm : order.Perm (range column.length) := by
    refine ((subperm_of_subset nodup_range fun i listed => ?_).perm_of_length_le ?_).symm
    · exact mem_of_getElem? (placed i _ (getElem?_eq_getElem (mem_range.mp listed)))
    · rw [length,length_range]
  have ranked {k : Nat} {x : α} (bound : k < order.length) (here : column[order[k]]? = some x) :
      rank column order[k] x = k := by
    obtain ⟨_,same⟩ := List.getElem?_eq_some_iff.mp (placed order[k] x here)
    exact (perm.nodup_iff.mpr nodup_range).getElem_inj_iff.mp same
  refine ⟨perm,pairwise_iff_getElem.mpr fun k l boundK boundL less x y hereK hereL => ?_⟩
  have rankK := ranked boundK hereK
  have rankL := ranked boundL hereL
  rcases rank_trichotomy hereK hereL with ⟨before,_⟩ | same | after
  · exact before
  · have := (perm.nodup_iff.mpr nodup_range).getElem_inj_iff.mp same
    omega
  · omega

theorem row_iterate (stable : StableOrder (lastColumn x) order) (here : (matrix x)[start]? = some x) (k : Nat) :
    (matrix x)[(fun j => order.getD j 0)^[k] start]? = some (x.rotate k) := by
  induction k with
  | zero => simpa using here
  | succ k ih =>
    rw [Function.iterate_succ_apply']
    generalize (fun j => order.getD j 0)^[k] start = place at ih ⊢
    have bound : place < order.length := by
      rw [stable.rows.length_eq,length_range]
      exact (List.getElem?_eq_some_iff.mp ih).1
    have next : order.getD place 0 < (matrix x).length := by
      rw [getD_eq_getElem _ _ bound]
      exact mem_range.mp (stable.rows.mem_iff.mp (getElem_mem bound))
    have back := congrArg (fun rows : List (List α) => rows[place]?) (row_order stable)
    simp only [getElem?_map,getElem?_eq_getElem bound,Option.map_some] at back
    rw [ih,Option.some.injEq,← getD_eq_getElem _ 0 bound] at back
    obtain ⟨front,last,shape,_,_⟩ := row_split next
    rw [shape,rotateBack_append] at back
    rw [getElem?_eq_getElem next,Option.some.injEq,← getD_eq_getElem _ [] next,shape,← rotate_rotate,← back]
    simp

theorem lastColumn_iterate (stable : StableOrder (lastColumn x) order) (here : (matrix x)[start]? = some x)
    (bound : k < x.length) : (lastColumn x)[(fun j => order.getD j 0)^[k + 1] start]? = some x[k] := by
  have row := row_iterate stable here (k + 1)
  have inside := (List.getElem?_eq_some_iff.mp row).1
  obtain ⟨front,last,shape,column,_⟩ := row_split inside
  have content : (matrix x).getD ((fun j => order.getD j 0)^[k + 1] start) [] = x.rotate (k + 1) := by
    rw [getD_eq_getElem?_getD,row,Option.getD_some]
  rw [column,Option.some.injEq]
  have ends : (x.rotate (k + 1)).getLast? = some last := by
    rw [← content,shape]
    simp
  have length := length_rotate x (k + 1)
  rw [getLast?_eq_getElem?,length,getElem?_rotate (by omega)] at ends
  have place : (x.length - 1 + (k + 1)) % x.length = k := by
    rw [show x.length - 1 + (k + 1) = k + x.length by omega,Nat.add_mod_right,Nat.mod_eq_of_lt bound]
  rw [place,getElem?_eq_getElem bound] at ends
  exact (Option.some.inj ends).symm

end Stablebox.BurrowsWheeler
