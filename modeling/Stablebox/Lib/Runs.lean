import Mathlib.Data.List.TakeWhile

/-! Lists cut into runs: elements outside of a class, then elements of it, and so on, for the comparison of two lists
run by run. -/
namespace Stablebox.Runs

open List

variable {α β : Type}

def runs (inside : α → Bool) : List α → List (List α × List α)
  | [] => []
  | a :: rest =>
    match inside a, runs inside rest with
    | false,[] => [([a],[])]
    | false,(front,back) :: more => (a :: front,back) :: more
    | true,[] => [([],[a])]
    | true,([],back) :: more => ([],a :: back) :: more
    | true,(b :: front,back) :: more => ([],[a]) :: (b :: front,back) :: more

def first (inside : α → Bool) (list : List α) : List α × List α :=
  (list.takeWhile fun a => !inside a,(list.dropWhile fun a => !inside a).takeWhile inside)

def behind (inside : α → Bool) (list : List α) : List α := (list.dropWhile fun a => !inside a).dropWhile inside

def zipPad (fill : β) : List β → List β → List (β × β)
  | [],bs => bs.map fun b => (fill,b)
  | a :: as,bs => (a,bs.headD fill) :: zipPad fill as bs.tail

theorem runs_eq (nonempty : list ≠ []) :
    runs inside list = first inside list :: runs inside (behind inside list) := by
  induction list with
  | nil => exact absurd rfl nonempty
  | cons a rest ih =>
    cases rest with
    | nil => cases kind : inside a <;> simp [runs,first,behind,kind]
    | cons b rest =>
      have next := ih (by simp)
      cases kind : inside a with
      | false =>
        rw [runs,next]
        simp [first,behind,kind]
      | true =>
        cases other : inside b with
        | false =>
          rw [runs,kind,next]
          simp [first,behind,kind,other,next]
        | true =>
          rw [runs,kind,next]
          simp [first,behind,kind,other]

theorem until_first [DecidableEq α] (free : a ∉ front) (rest : List α) :
    (front ++ a :: rest).takeWhile (· ≠ a) = front ∧ (front ++ a :: rest).dropWhile (· ≠ a) = a :: rest := by
  have every : ∀ b ∈ front, decide (b ≠ a) = true := by
    intro b listed
    exact decide_eq_true fun same => free (same ▸ listed)
  rw [takeWhile_append_of_pos every,dropWhile_append_of_pos every]
  simp

theorem drop_takeWhile (inside : α → Bool) (list : List α) :
    list.drop (list.takeWhile inside).length = list.dropWhile inside := by
  induction list with
  | nil => rfl
  | cons a rest ih => cases kind : inside a <;> simp [kind,ih]

@[simp] theorem first_nil : first inside [] = ([],[]) := rfl

@[simp] theorem behind_nil : behind inside [] = [] := rfl

theorem first_behind (inside : α → Bool) (list : List α) :
    (first inside list).1 ++ ((first inside list).2 ++ behind inside list) = list := by
  rw [first,behind,takeWhile_append_dropWhile,takeWhile_append_dropWhile]

theorem first_cons (outside : inside a = false) (rest : List α) :
    first inside (a :: rest) = (a :: (first inside rest).1,(first inside rest).2) ∧
      behind inside (a :: rest) = behind inside rest := by
  simp [first,behind,outside]

theorem length_behind_le (inside : α → Bool) (list : List α) : (behind inside list).length ≤ list.length :=
  ((dropWhile_sublist _).trans (dropWhile_sublist _)).length_le

theorem length_behind (inside : α → Bool) (nonempty : list ≠ []) : (behind inside list).length < list.length := by
  obtain ⟨a,rest,rfl⟩ := exists_cons_of_ne_nil nonempty
  apply Nat.lt_succ_of_le
  cases kind : inside a with
  | false =>
    rw [(first_cons kind rest).2]
    exact length_behind_le inside rest
  | true =>
    rw [behind,dropWhile_cons_of_neg (by simp [kind]),dropWhile_cons_of_pos kind]
    exact (dropWhile_sublist _).length_le

theorem zipPad_runs (more : ¬ (a = [] ∧ b = [])) :
    zipPad ([],[]) (runs inside a) (runs inside b) =
      (first inside a,first inside b) ::
        zipPad ([],[]) (runs inside (behind inside a)) (runs inside (behind inside b)) := by
  by_cases left : a = []
  · have right : b ≠ [] := fun empty => more ⟨left,empty⟩
    rw [left,runs_eq right]
    rfl
  · by_cases right : b = []
    · rw [right,runs_eq left]
      rfl
    · rw [runs_eq left,runs_eq right]
      rfl

theorem first_append (nonempty : front ≠ []) (all : ∀ b ∈ front, inside b = true) (stop : inside a = false) :
    first inside (front ++ a :: rest) = ([],front) ∧ behind inside (front ++ a :: rest) = a :: rest := by
  have whole : (front ++ a :: rest).takeWhile (fun b => !inside b) = [] ∧
      (front ++ a :: rest).dropWhile (fun b => !inside b) = front ++ a :: rest := by
    obtain ⟨b,front,rfl⟩ := exists_cons_of_ne_nil nonempty
    simp [all b mem_cons_self]
  rw [first,behind,whole.1,whole.2,takeWhile_append_of_pos all,dropWhile_append_of_pos all]
  simp [stop]

theorem mem_runs (listed : run ∈ runs inside list) :
    ∀ a ∈ run.1, a ∈ list ∧ inside a = false := by
  intro a there
  induction size : list.length using Nat.strongRecOn generalizing list with
  | ind size ih =>
    by_cases empty : list = []
    · subst empty
      cases listed
    rw [runs_eq empty,mem_cons] at listed
    rcases listed with rfl | later
    · have outside := mem_takeWhile_imp there
      exact ⟨(takeWhile_sublist _).subset there,by simpa using outside⟩
    · obtain ⟨known,outside⟩ := ih _ (size ▸ length_behind inside empty) later rfl
      exact ⟨((dropWhile_sublist _).trans (dropWhile_sublist _)).subset known,outside⟩

theorem mem_zipPad (listed : pair ∈ zipPad fill as bs) :
    (pair.1 = fill ∨ pair.1 ∈ as) ∧ (pair.2 = fill ∨ pair.2 ∈ bs) := by
  induction as generalizing bs with
  | nil =>
    obtain ⟨b,there,rfl⟩ := mem_map.mp listed
    exact ⟨.inl rfl,.inr there⟩
  | cons a as ih =>
    rcases mem_cons.mp listed with rfl | later
    · refine ⟨.inr (.head _),?_⟩
      cases bs with
      | nil => exact .inl rfl
      | cons b bs => exact .inr (.head _)
    · obtain ⟨left,right⟩ := ih later
      exact ⟨left.imp_right (mem_cons_of_mem a),right.imp_right mem_of_mem_tail⟩

theorem zipPad_nil (fill : β) (as : List β) : zipPad fill as [] = as.map fun a => (a,fill) := by
  induction as with
  | nil => rfl
  | cons a as ih => simp [zipPad,ih]

theorem zipPad_swap (fill : β) (as bs : List β) : zipPad fill bs as = (zipPad fill as bs).map Prod.swap := by
  induction as generalizing bs with
  | nil => simp [zipPad_nil,zipPad]
  | cons a as ih =>
    cases bs with
    | nil => simp [zipPad_nil,zipPad]
    | cons b bs => simp [zipPad,ih]

end Stablebox.Runs
