import Mathlib.Data.List.Basic

/-! Names in a tree of directories: the pieces of a text between its slashes, and what a sequence
of pieces makes of a list of components. -/
namespace Stablebox.Paths

open List

def slash : UInt8 := 47
def dot : List UInt8 := [46]
def dotDot : List UInt8 := [46,46]

def pieces (path : List UInt8) : List (List UInt8) := (path.splitOn slash).filter (· ≠ [])

/-- A piece is a component to go down to, or one of the two names with a meaning of their own. -/
def enter (parts : List (List UInt8)) (piece : List UInt8) : List (List UInt8) :=
  if piece = dotDot then parts.dropLast else if piece = dot then parts else parts ++ [piece]

def resolve (parts pieces : List (List UInt8)) : List (List UInt8) := pieces.foldl enter parts

structure Plain (part : List UInt8) : Prop where
  nonempty : part ≠ []
  whole : slash ∉ part
  notDot : part ≠ dot
  notDotDot : part ≠ dotDot

def spread (parts : List (List UInt8)) : List UInt8 := parts.flatMap (· ++ [slash])

theorem pieces_slash (path : List UInt8) : pieces (slash :: path) = pieces path := by
  simp [pieces,splitOn,splitOnP_cons_eq_if_modifyHead]

theorem slash_not_mem_splitOn {path : List UInt8} : ∀ piece ∈ path.splitOn slash, slash ∉ piece := by
  induction path with
  | nil => simp [splitOn]
  | cons c path ih =>
    rw [splitOn,splitOnP_cons_eq_if_modifyHead,← splitOn]
    split
    · rintro piece (_ | ⟨_,listed⟩)
      · simp
      · exact ih piece listed
    · rename_i other
      cases shape : path.splitOn slash with
      | nil => simp
      | cons first rest =>
        rw [shape] at ih
        rintro piece (_ | ⟨_,listed⟩)
        · have := ih first (mem_cons_self ..)
          simp only [beq_iff_eq] at other
          simp [this,Ne.symm other]
        · exact ih piece (.tail _ listed)

theorem pieces_whole {path piece : List UInt8} (listed : piece ∈ pieces path) : piece ≠ [] ∧ slash ∉ piece := by
  obtain ⟨split,nonempty⟩ := mem_filter.mp listed
  exact ⟨by simpa using nonempty,slash_not_mem_splitOn piece split⟩

theorem resolve_plain (plain : ∀ part ∈ parts, Plain part) (whole : ∀ piece ∈ list, piece ≠ [] ∧ slash ∉ piece) :
    ∀ part ∈ resolve parts list, Plain part := by
  induction list generalizing parts with
  | nil => exact plain
  | cons piece list ih =>
    refine ih ?_ (forall_mem_cons.mp whole).2
    obtain ⟨nonempty,inside⟩ := whole piece (mem_cons_self ..)
    unfold enter
    split
    · exact fun part listed => plain part (dropLast_subset parts listed)
    split
    · exact plain
    rename_i notDotDot notDot
    intro part listed
    rcases mem_append.mp listed with old | new
    · exact plain part old
    · rw [mem_singleton.mp new]
      exact ⟨nonempty,inside,notDot,notDotDot⟩

theorem spread_eq (nonempty : parts ≠ []) :
    spread parts = [slash].intercalate parts ++ [slash] := by
  induction parts with
  | nil => exact absurd rfl nonempty
  | cons part parts ih =>
    cases parts with
    | nil => simp [spread,List.intercalate]
    | cons second parts =>
      rw [spread,flatMap_cons,← spread,ih (by simp),intercalate_cons_cons]
      simp

end Stablebox.Paths
