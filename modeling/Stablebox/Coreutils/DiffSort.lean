import Mathlib.Algebra.Order.Ring.Int
import Mathlib.Data.List.Basic

/-! `sort` in diff.c, the shellsort of the lines by value and serial. -/
namespace Stablebox.Diff

open List

structure Line where
  serial : Int
  value : Int
  deriving DecidableEq

def Line.Above (p q : Line) : Prop := p.value > q.value ∨ p.value = q.value ∧ p.serial > q.serial

instance (p q : Line) : Decidable (p.Above q) := inferInstanceAs (Decidable (_ ∨ _))

def firstGap (n : Int) : (fuel j m : Nat) → Option Nat
  | 0,_,_ => none
  | fuel + 1,j,m =>
    if (j : Int) ≤ n then if 2 * j < 2 ^ 31 then firstGap n fuel (2 * j) (2 * j - 1) else none else some m

/-- The inner loop from `ai = &a[i]`. The list has the entries 1 to n, and there are no others to access. -/
def sink (m : Nat) : (fuel i : Nat) → List Line → Option (List Line)
  | 0,_,_ => none
  | fuel + 1,i,a =>
    if i = 0 then some a
    else if i + m < i then some a
    else do
      let ai ← a[i - 1]?
      let aim ← a[i + m - 1]?
      -- below `a` the pointer ends the loop as at `a`
      if aim.Above ai then return a else sink m fuel (i - m) ((a.set (i - 1) aim).set (i + m - 1) ai)

def pass (n : Int) (m : Nat) (a : List Line) : Option (List Line) :=
  (range' 1 (n - m).toNat).foldlM (fun a j => sink m (j + 1) j a) a

def passes (n : Int) : (fuel m : Nat) → List Line → Option (List Line)
  | 0,_,_ => none
  | fuel + 1,m,a => if m = 0 then some a else do passes n fuel (m / 2) (← pass n m a)

def sort (a : List Line) (n : Int) : Option (List Line) :=
  if n = 0 then some a else do
    let m ← firstGap n 32 1 0
    passes n 32 (m / 2) a

/-! ### The first gap -/

theorem firstGap_some {n : Int} (small : n < 2 ^ 30) (fuel : Nat) {j m : Nat} (enough : n < j * 2 ^ fuel)
    (below : j ≤ m + 1) (int : m < 2 ^ 31) :
    ∃ gap, firstGap n (fuel + 1) j m = some gap ∧ n ≤ gap ∧ gap < 2 ^ 31 := by
  induction fuel generalizing j m with
  | zero =>
    rw [firstGap,if_neg (by simpa using enough)]
    exact ⟨m,rfl,by omega,int⟩
  | succ fuel ih =>
    rw [firstGap]
    split_ifs with more wide
    · refine ih ?_ (by omega) (by omega)
      rwa [Int.pow_succ',← Int.mul_assoc,Int.mul_comm (j : Int)] at enough
    · omega
    · exact ⟨m,rfl,by omega,int⟩

theorem firstGap_none (large : 2 ^ 30 ≤ n) (fuel : Nat) (m : Nat) (low : k ≤ 30) :
    firstGap n fuel (2 ^ k) m = none := by
  induction fuel generalizing k m with
  | zero => rfl
  | succ fuel ih =>
    have power : 2 ^ k ≤ 2 ^ 30 := Nat.pow_le_pow_right (by decide) low
    rw [firstGap,if_pos (by omega)]
    split_ifs with wide
    · rw [← Nat.pow_succ'] at wide ⊢
      exact ih _ (Nat.lt_succ_iff.mp ((Nat.pow_lt_pow_iff_right (by decide)).mp wide))
    · rfl

/-! ### One pass -/

theorem sink_perm (positive : 0 < m) (fuel : Nat) (enough : i < fuel) (inside : i + m ≤ a.length) :
    ∃ b, sink m fuel i a = some b ∧ b ~ a := by
  induction fuel generalizing i a with
  | zero => omega
  | succ fuel ih =>
    rw [sink]
    split_ifs with start
    · exact ⟨a,rfl,.refl a⟩
    · omega
    have first : i - 1 < a.length := by omega
    have second : i + m - 1 < a.length := by omega
    simp only [getElem?_eq_getElem first,getElem?_eq_getElem second,Option.bind_eq_bind,Option.bind_some]
    split_ifs with above
    · exact ⟨a,rfl,.refl a⟩
    · obtain ⟨b,ran,same⟩ := ih (i := i - m)
        (a := (a.set (i - 1) a[i + m - 1]).set (i + m - 1) a[i - 1]) (by omega) (by simp; omega)
      exact ⟨b,ran,same.trans (set_set_perm first second)⟩

theorem pass_perm (positive : 0 < m) (n : Int) (length : a.length = n.toNat) :
    ∃ b, pass n m a = some b ∧ b ~ a := by
  have turns (js : List Nat) (inside : ∀ j ∈ js, j + m ≤ a.length) (c : List Line) (same : c ~ a) :
      ∃ b, js.foldlM (fun a j => sink m (j + 1) j a) c = some b ∧ b ~ a := by
    induction js generalizing c with
    | nil => exact ⟨c,rfl,same⟩
    | cons j js ih =>
      obtain ⟨here,rest⟩ := forall_mem_cons.mp inside
      obtain ⟨b,ran,turn⟩ := sink_perm positive (j + 1) (Nat.lt_succ_self j) (same.length_eq ▸ here)
      rw [foldlM_cons,ran]
      exact ih rest b (turn.trans same)
  refine turns _ (fun j inside => ?_) a (.refl a)
  have := mem_range'_1.mp inside
  omega

/-! ### The last pass -/

def Line.Upto (p q : Line) : Prop := ¬ p.Above q

theorem Line.Upto.trans {p q r : Line} (first : p.Upto q) (second : q.Upto r) : p.Upto r := by
  unfold Line.Upto Line.Above at *
  omega

theorem Line.Above.upto {p q : Line} (above : p.Above q) : q.Upto p := by
  unfold Line.Upto Line.Above at *
  omega

theorem sink_sorts (x : Line) (l r t : List Line) (sorted : (l ++ r).Pairwise Line.Upto)
    (least : ∀ y ∈ r, x.Upto y) (fuel : Nat) (enough : l.length < fuel) :
    ∃ s, sink 1 fuel l.length (l ++ x :: r ++ t) = some (s ++ t) ∧ s.Pairwise Line.Upto ∧
      s.length = l.length + r.length + 1 := by
  induction fuel generalizing l r with
  | zero => omega
  | succ fuel ih =>
    rw [sink]
    rcases eq_nil_or_concat' l with rfl | ⟨l,y,rfl⟩
    · exact ⟨x :: r,rfl,pairwise_cons.mpr ⟨least,sorted⟩,by simp⟩
    · have length : (l ++ [y]).length = l.length + 1 := length_append
      rw [length,if_neg (by omega),if_neg (by omega)]
      have lower : (l ++ [y] ++ x :: r ++ t)[l.length + 1 - 1]? = some y := by simp
      have upper : (l ++ [y] ++ x :: r ++ t)[l.length + 1 + 1 - 1]? = some x := by simp
      have swapped : ((l ++ [y] ++ x :: r ++ t).set (l.length + 1 - 1) x).set (l.length + 1 + 1 - 1) y =
          l ++ x :: (y :: r) ++ t := by simp
      simp only [lower,upper,swapped,Option.bind_eq_bind,Option.bind_some]
      split_ifs with above
      · obtain ⟨front,back,across⟩ := pairwise_append.mp sorted
        have each : ∀ p ∈ l ++ [y], p.Upto x := by
          intro p inside
          rcases mem_append.mp inside with early | last
          · exact ((pairwise_append.mp front).2.2 p early y mem_cons_self).trans above.upto
          · exact mem_singleton.mp last ▸ above.upto
        refine ⟨l ++ [y] ++ x :: r,rfl,pairwise_append.mpr ⟨front,pairwise_cons.mpr ⟨least,back⟩,?_⟩,by simp; omega⟩
        exact fun p inside => forall_mem_cons.mpr ⟨each p inside,across p inside⟩
      · obtain ⟨s,ran,ordered,count⟩ := ih l (y :: r) (by simpa using sorted)
          (forall_mem_cons.mpr ⟨above,least⟩) (by simp at enough; omega)
        exact ⟨s,ran,ordered,by simp [count]; omega⟩

theorem pass_sorts (length : a.length = n.toNat) :
    ∃ b, pass n 1 a = some b ∧ b.Pairwise Line.Upto := by
  have turns (s t : List Line) (sorted : s.Pairwise Line.Upto) :
      ∃ b, (range' s.length t.length).foldlM (fun a j => sink 1 (j + 1) j a) (s ++ t) = some b ∧
        b.Pairwise Line.Upto := by
    induction t generalizing s with
    | nil => exact ⟨s,by simp,sorted⟩
    | cons x t ih =>
      obtain ⟨s',ran,sorted,count⟩ := sink_sorts x s [] t (by simpa using sorted) (by simp) (s.length + 1) (by omega)
      obtain ⟨b,rest,ordered⟩ := ih s' sorted
      refine ⟨b,?_,ordered⟩
      rw [length_cons,range'_succ,foldlM_cons]
      simp only [append_assoc,cons_append,nil_append] at ran
      rw [ran]
      simpa [count] using rest
  cases a with
  | nil => exact ⟨[],by simp [pass,show (n - 1).toNat = 0 by simp at length; omega],.nil⟩
  | cons x t =>
    rw [length_cons] at length
    rw [pass,show (n - (1 : Nat)).toNat = t.length by omega]
    exact turns [x] t (pairwise_singleton ..)

theorem passes_sort (fuel : Nat) (length : a.length = n.toNat) (positive : 0 < m) (enough : m < 2 ^ fuel) :
    ∃ b, passes n (fuel + 1) m a = some b ∧ b ~ a ∧ b.Pairwise Line.Upto := by
  induction fuel generalizing m a with
  | zero => omega
  | succ fuel ih =>
    obtain ⟨b,ran,same⟩ := pass_perm positive n length
    rw [passes,if_neg (by omega)]
    simp only [ran,Option.bind_eq_bind,Option.bind_some]
    by_cases last : m = 1
    · obtain ⟨_,ran',sorted⟩ := pass_sorts length
      cases (last ▸ ran).symm.trans ran'
      exact ⟨b,by simp [last,passes],same,sorted⟩
    · obtain ⟨c,rest,perm,sorted⟩ := ih (same.length_eq.trans length) (m := m / 2) (by omega) (by omega)
      exact ⟨c,rest,perm.trans same,sorted⟩

theorem sort_eq_none (large : 2 ^ 30 ≤ n) (a : List Line) : sort a n = none := by
  rw [sort,if_neg (by omega),show 1 = 2 ^ 0 from rfl,firstGap_none large 32 0 (by omega)]
  rfl

theorem Line.Upto.lex {p q : Line} (upto : p.Upto q) :
    p.value < q.value ∨ p.value = q.value ∧ p.serial ≤ q.serial := by
  unfold Line.Upto Line.Above at upto
  omega

theorem sort_sorts {n : Int} {a : List Line} (length : a.length = n.toNat) (small : n < 2 ^ 30) :
    ∃ b, sort a n = some b ∧ b ~ a ∧ b.Pairwise Line.Upto := by
  have short (one : n ≤ 1) : a.Pairwise Line.Upto := by
    match a with
    | [] => exact .nil
    | [x] => exact pairwise_singleton ..
    | _ :: _ :: _ =>
      simp only [length_cons] at length
      omega
  obtain ⟨gap,first,wide,int⟩ := firstGap_some small 31 (j := 1) (m := 0) (by omega) (by omega) (by omega)
  rw [sort]
  split_ifs with zero
  · exact ⟨a,rfl,.refl a,short (by omega)⟩
  simp only [first,Option.bind_eq_bind,Option.bind_some]
  rcases Nat.eq_zero_or_pos (gap / 2) with none | positive
  · exact ⟨a,by rw [none,passes,if_pos rfl],.refl a,short (by omega)⟩
  · exact passes_sort 31 length positive (by omega)

/-- The lines are sorted by value and serial, unless the gap overflows. -/
theorem sort_sorts_iff (a : List Line) (n : Int) (length : a.length = n.toNat) :
    (∃ b, sort a n = some b ∧ b ~ a ∧
      b.Pairwise fun p q => p.value < q.value ∨ p.value = q.value ∧ p.serial ≤ q.serial) ↔ n < 2 ^ 30 := by
  constructor
  · rintro ⟨b,ran,_⟩
    by_contra large
    cases (sort_eq_none (by omega) a).symm.trans ran
  · intro small
    obtain ⟨b,ran,same,sorted⟩ := sort_sorts length small
    exact ⟨b,ran,same,sorted.imp Line.Upto.lex⟩

theorem sort_sorts_three : ∃ b, sort [⟨1,7⟩,⟨2,3⟩,⟨3,7⟩] 3 = some b ∧ b ~ [⟨1,7⟩,⟨2,3⟩,⟨3,7⟩] ∧
    b.Pairwise fun p q => p.value < q.value ∨ p.value = q.value ∧ p.serial ≤ q.serial :=
  (sort_sorts_iff [⟨1,7⟩,⟨2,3⟩,⟨3,7⟩] 3 rfl).mpr (by decide)

theorem gap_overflows : ∃ a : List Line, a.length = 2 ^ 30 ∧ sort a (2 ^ 30) = none :=
  ⟨replicate (2 ^ 30) ⟨0,0⟩,length_replicate,sort_eq_none (Int.le_refl _) _⟩

end Stablebox.Diff
