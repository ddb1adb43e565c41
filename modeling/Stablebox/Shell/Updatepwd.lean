import Mathlib.Data.List.Induction
import Stablebox.Lib.Paths

/-! `updatepwd` of ash.c: the name of the current directory after a logical `cd`. The stack string
is a list of bytes, and `new` is its end. -/
namespace Stablebox.Ash.Updatepwd

open Paths List

/-- `while (new > lim)`: back up to the previous slash. -/
def backUp (lim : Nat) : (turns : Nat) → (new : List UInt8) → List UInt8
  | 0,new => new
  | turns + 1,new =>
    if new.length > lim then
      if new.dropLast.getLast? = some slash then new.dropLast else backUp lim turns new.dropLast
    else new

def put (lim : Nat) (new piece : List UInt8) : List UInt8 :=
  if piece = dotDot then backUp lim new.length new
  else if piece = dot then new
  else new ++ piece ++ [slash]

/-- The stack string and the limit before the loop; nothing if there is no current directory. -/
def start (curdir dir : List UInt8) : Option (List UInt8 × Nat) :=
  if dir.head? ≠ some slash then
    if curdir = [] then none
    else
      let new := if curdir.getLast? ≠ some slash then curdir ++ [slash] else curdir
      some (new,if new.length > 1 ∧ new[1]? = some slash then 2 else 1)
  else if dir[1]? = some slash ∧ dir[2]? ≠ some slash then some ([slash,slash],2)
  else some ([slash],1)

def cdcomppath (dir : List UInt8) : List UInt8 :=
  if dir.head? ≠ some slash then dir
  else if dir[1]? = some slash ∧ dir[2]? ≠ some slash then dir.drop 2
  else dir.drop 1

def updatepwd (curdir dir : List UInt8) : Option (List UInt8) := do
  let (new,lim) ← start curdir dir
  let new := (pieces (cdcomppath dir)).foldl (put lim) new
  return if new.length > lim then new.dropLast else new

/-! ### Names of directories -/

def root (two : Bool) : List UInt8 := if two then [slash,slash] else [slash]

/-- A normalised name: plain components joined by single slashes. -/
structure Name where
  two : Bool
  parts : List (List UInt8)
  plain : ∀ part ∈ parts, Plain part

def Name.text (name : Name) : List UInt8 := root name.two ++ [slash].intercalate name.parts

/-- The lexical normalisation of `dir`, seen from a directory. -/
def Name.cd (name : Name) (dir : List UInt8) : Name where
  two := if dir.head? ≠ some slash then name.two else dir[1]? = some slash ∧ dir[2]? ≠ some slash
  parts := resolve (if dir.head? ≠ some slash then name.parts else []) (pieces dir)
  plain := resolve_plain (by split; exacts [name.plain,by simp]) fun _ => pieces_whole

/-! ### The loop -/

def opened (two : Bool) (parts : List (List UInt8)) : List UInt8 := root two ++ spread parts

variable (two : Bool)

theorem opened_ends (parts : List (List UInt8)) : (opened two parts).getLast? = some slash := by
  rcases eq_nil_or_concat' parts with rfl | ⟨front,last,rfl⟩
  · cases two <;> rfl
  · simp [opened,spread]

theorem opened_concat (front : List (List UInt8)) (last : List UInt8) :
    opened two (front ++ [last]) = opened two front ++ last ++ [slash] := by
  simp [opened,spread]

theorem le_opened (parts : List (List UInt8)) : (root two).length ≤ (opened two parts).length := by
  simp [opened]

theorem le_backUp (turns : Nat) (inside : lim ≤ new.length) :
    lim ≤ (backUp lim turns new).length := by
  induction turns generalizing new with
  | zero => exact inside
  | succ turns ih =>
    rw [backUp]
    split
    · have shorter : lim ≤ new.dropLast.length := by
        rw [length_dropLast]
        omega
      split
      · exact shorter
      · exact ih shorter
    · exact inside

theorem backUp_piece (ends : front.getLast? = some slash) (inside : lim ≤ front.length) (piece : List UInt8)
    (whole : slash ∉ piece) (behind : UInt8) (turns : Nat) (enough : piece.length < turns) :
    backUp lim turns (front ++ piece ++ [behind]) = front := by
  induction piece using List.reverseRecOn generalizing behind turns with
  | nil =>
    obtain ⟨turns,rfl⟩ := Nat.exists_eq_succ_of_ne_zero (Nat.ne_of_gt enough)
    rw [backUp,if_pos (by simp; omega),dropLast_concat,append_nil,if_pos ends]
  | append_singleton piece last ih =>
    obtain ⟨turns,rfl⟩ := Nat.exists_eq_succ_of_ne_zero (Nat.ne_of_gt (Nat.lt_of_le_of_lt (Nat.zero_le _) enough))
    rw [length_append,length_singleton] at enough
    simp only [mem_append,mem_singleton,not_or] at whole
    rw [backUp,if_pos (by simp; omega),dropLast_concat,← append_assoc,if_neg (by simpa using Ne.symm whole.2)]
    exact ih whole.1 last turns (by omega)

theorem put_opened (plain : ∀ part ∈ parts, Plain part) (piece : List UInt8) :
    put (root two).length (opened two parts) piece = opened two (enter parts piece) := by
  unfold put enter
  split
  · rcases eq_nil_or_concat' parts with rfl | ⟨front,last,rfl⟩
    · cases two <;> rfl
    have whole := (plain last (by simp)).whole
    rw [opened_concat,dropLast_concat]
    exact backUp_piece (opened_ends two front) (le_opened two front) last whole slash _ (by simp; omega)
  · split
    · rfl
    · simp [opened,spread]

theorem foldl_opened (plain : ∀ part ∈ parts, Plain part) (whole : ∀ piece ∈ list, piece ≠ [] ∧ slash ∉ piece) :
    list.foldl (put (root two).length) (opened two parts) = opened two (resolve parts list) := by
  induction list using List.reverseRecOn with
  | nil => rfl
  | append_singleton list piece ih =>
    have before := ih fun piece listed => whole piece (mem_append_left _ listed)
    have kept := resolve_plain plain fun piece listed => whole piece (mem_append_left _ listed)
    rw [foldl_concat,before,put_opened two kept,resolve,resolve,foldl_concat]

/-! ### Before and after the loop -/

theorem text_append {name : Name} (nonempty : name.parts ≠ []) : name.text ++ [slash] = opened name.two name.parts := by
  rw [Name.text,opened,spread_eq nonempty,append_assoc]

theorem text_ends {name : Name} (nonempty : name.parts ≠ []) : name.text.getLast? ≠ some slash := by
  obtain ⟨front,last,shape⟩ := (eq_nil_or_concat' name.parts).resolve_left nonempty
  have plain := name.plain last (by simp [shape])
  have text : name.text = opened name.two front ++ last := by
    have same := text_append nonempty
    rw [shape,opened_concat] at same
    exact append_cancel_right same
  rw [text,getLast?_append_of_ne_nil _ plain.nonempty]
  exact fun ends => plain.whole (mem_of_getLast? ends)

theorem limit_opened (plain : ∀ part ∈ parts, Plain part) :
    (if (opened two parts).length > 1 ∧ (opened two parts)[1]? = some slash then 2 else 1) = (root two).length := by
  cases two with
  | true => simp [opened,root]
  | false =>
    refine if_neg fun second => ?_
    cases parts with
    | nil => simp [opened,root,spread] at second
    | cons part parts =>
      obtain ⟨nonempty,whole,_⟩ := plain part (mem_cons_self ..)
      obtain ⟨c,rest,rfl⟩ := exists_cons_of_ne_nil nonempty
      simp only [opened,root,spread,flatMap_cons] at second
      exact whole (by simp_all)

theorem start_relative (name : Name) {dir : List UInt8} (relative : dir.head? ≠ some slash) :
    start name.text dir = some (opened name.two name.parts,(root name.two).length) := by
  have something : name.text ≠ [] := by cases two : name.two <;> simp [Name.text,root,two]
  have new : (if name.text.getLast? ≠ some slash then name.text ++ [slash] else name.text) =
      opened name.two name.parts := by
    by_cases bare : name.parts = []
    · have ends := opened_ends name.two []
      have text : name.text = opened name.two [] := by simp [Name.text,opened,spread,bare]
      rw [text,if_neg (not_not.mpr ends),bare]
    · rw [if_pos (text_ends bare),text_append bare]
  simp only [start,if_pos relative,if_neg something,new,limit_opened name.two name.plain]

theorem start_absolute (curdir : List UInt8) (absolute : dir.head? = some slash) :
    start curdir dir = some (opened (dir[1]? = some slash ∧ dir[2]? ≠ some slash) [],
      (root (dir[1]? = some slash ∧ dir[2]? ≠ some slash)).length) := by
  rw [start,if_neg (not_not.mpr absolute)]
  split
  · rename_i two
    rw [decide_eq_true two]
    rfl
  · rename_i one
    rw [decide_eq_false one]
    rfl

theorem pieces_cdcomppath (dir : List UInt8) : pieces (cdcomppath dir) = pieces dir := by
  unfold cdcomppath
  split
  · rfl
  rename_i absolute
  obtain ⟨rest,rfl⟩ : ∃ rest, dir = slash :: rest := head?_eq_some_iff.mp (not_not.mp absolute)
  split
  · rename_i two
    obtain ⟨rest,rfl⟩ : ∃ more, rest = slash :: more := head?_eq_some_iff.mp (by simpa [head?_eq_getElem?] using two.1)
    rfl
  · rfl

theorem start_cd (name : Name) (dir : List UInt8) :
    start name.text dir = some (opened (name.cd dir).two (if dir.head? ≠ some slash then name.parts else []),
      (root (name.cd dir).two).length) := by
  by_cases relative : dir.head? ≠ some slash
  · rw [start_relative name relative,Name.cd]
    simp [relative]
  · rw [start_absolute _ (not_not.mp relative),Name.cd]
    simp [relative]

theorem closed (parts : List (List UInt8)) :
    (if (opened two parts).length > (root two).length then (opened two parts).dropLast else opened two parts) =
      root two ++ [slash].intercalate parts := by
  rcases Decidable.em (parts = []) with rfl | nonempty
  · simp [opened,spread]
  · rw [opened,spread_eq nonempty,if_pos (by simp),← append_assoc,dropLast_concat]

/-- The new name is the normalised one, and the string never ends before the limit: not behind any
number of pieces, nor inside the loop that backs up from there. -/
theorem updatepwd_normalises (name : Name) (dir : List UInt8) :
    updatepwd name.text dir = some (name.cd dir).text ∧
      ∃ new lim, start name.text dir = some (new,lim) ∧
        ∀ count turns,
          lim ≤ (backUp lim turns (((pieces (cdcomppath dir)).take count).foldl (put lim) new)).length := by
  have plain : ∀ part ∈ (if dir.head? ≠ some slash then name.parts else []), Plain part := by
    split
    exacts [name.plain,by simp]
  have whole {count : Nat} : ∀ piece ∈ (pieces dir).take count, piece ≠ [] ∧ slash ∉ piece :=
    fun _ listed => pieces_whole (mem_of_mem_take listed)
  constructor
  · rw [updatepwd,start_cd,pieces_cdcomppath]
    simp only [Option.bind_eq_bind,Option.bind_some,foldl_opened _ plain fun _ => pieces_whole]
    exact congrArg some (closed _ _)
  · refine ⟨_,_,start_cd name dir,fun count turns => le_backUp turns ?_⟩
    rw [pieces_cdcomppath,foldl_opened _ plain whole]
    exact le_opened _ _

end Stablebox.Ash.Updatepwd
