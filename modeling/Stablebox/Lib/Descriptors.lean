import Mathlib.Data.List.Basic

/-! Descriptor tables of a process: `open`, `dup` and `close` over the open files of any
type. A new descriptor is the lowest free one from a given number on. -/
namespace Stablebox.Descriptors

open List Function

/-- Descriptors from `limit` on do not exist. -/
structure Table (α : Type) where
  files : Nat → Option α
  limit : Nat
  bounded : ∀ fd, limit ≤ fd → files fd = none

inductive Errno where
  | badf
  | inval
  | mfile
  deriving DecidableEq

variable {α : Type}

namespace Table

/-- The lowest free descriptor that is not below `start`. -/
def lowest (t : Table α) (start : Nat) : Option Nat :=
  (List.range' start (t.limit - start)).find? fun fd => (t.files fd).isNone

def install (t : Table α) (fd : Nat) (file : α) (inside : fd < t.limit) : Table α where
  files := update t.files fd (some file)
  limit := t.limit
  bounded := by
    intro other far
    rw [update_of_ne (by omega)]
    exact t.bounded other far

def close (t : Table α) (fd : Nat) : Table α where
  files := update t.files fd none
  limit := t.limit
  bounded := by
    intro other far
    by_cases same : other = fd
    · rw [same,update_self]
    · rw [update_of_ne same]
      exact t.bounded other far

variable {start fd : Nat} {t next : Table α}

theorem lowest_spec (found : t.lowest start = some fd) : start ≤ fd ∧ fd < t.limit ∧ t.files fd = none := by
  have free := find?_some found
  have place := mem_of_find?_eq_some found
  rw [mem_range'_1] at place
  rw [Option.isNone_iff_eq_none] at free
  exact ⟨place.1,by omega,free⟩

def allocate (t : Table α) (start : Nat) (file : α) : Option (Nat × Table α) :=
  match found : t.lowest start with
  | none => none
  | some fd => some (fd,t.install fd file (lowest_spec found).2.1)

/-- `fcntl(fd, F_DUPFD, start)`. -/
def duplicate (t : Table α) (fd start : Nat) : Except Errno (Nat × Table α) :=
  match t.files fd with
  | none => .error .badf
  | some file =>
    if start < t.limit then
      match t.allocate start file with
      | none => .error .mfile
      | some new => .ok new
    else .error .inval

@[simp] theorem close_files (t : Table α) (fd : Nat) : (t.close fd).files = update t.files fd none := rfl

@[simp] theorem close_limit (t : Table α) (fd : Nat) : (t.close fd).limit = t.limit := rfl

theorem lowest_free (inside : start < t.limit) (free : t.files start = none) : t.lowest start = some start := by
  obtain ⟨more,size⟩ : ∃ more, t.limit - start = more + 1 := ⟨t.limit - start - 1,by omega⟩
  simp [lowest,size,range'_succ,free]

theorem allocate_spec (opened : t.allocate start file = some (fd,next)) :
    start ≤ fd ∧ t.files fd = none ∧ next.files = update t.files fd (some file) ∧ next.limit = t.limit := by
  unfold allocate at opened
  split at opened
  · cases opened
  rename_i found
  obtain ⟨low,_,free⟩ := lowest_spec found
  cases opened
  exact ⟨low,free,rfl,rfl⟩

theorem duplicate_spec (copied : t.duplicate source start = .ok (fd,next)) :
    ∃ file, t.files source = some file ∧ start ≤ fd ∧ t.files fd = none ∧
      next.files = update t.files fd (some file) ∧ next.limit = t.limit := by
  unfold duplicate at copied
  split at copied
  · cases copied
  rename_i file there
  split at copied
  · split at copied
    · cases copied
    rename_i new opened
    cases copied
    exact ⟨file,there,allocate_spec opened⟩
  · cases copied

theorem allocate_free (inside : start < t.limit) (free : t.files start = none) :
    ∃ next, t.allocate start file = some (start,next) ∧
      next.files = update t.files start (some file) ∧ next.limit = t.limit := by
  unfold allocate
  split
  · rename_i found
    cases (lowest_free inside free).symm.trans found
  · rename_i fd found
    obtain rfl : start = fd := Option.mem_unique (lowest_free inside free) found
    exact ⟨_,rfl,rfl,rfl⟩

theorem duplicate_free (there : t.files source = some file) (inside : start < t.limit) (free : t.files start = none) :
    ∃ next, t.duplicate source start = .ok (start,next) ∧
      next.files = update t.files start (some file) ∧ next.limit = t.limit := by
  obtain ⟨next,opened,shape⟩ : ∃ next, t.allocate start file = some (start,next) ∧ _ := allocate_free inside free
  exact ⟨next,by simp [duplicate,there,inside,opened],shape⟩

theorem lt_limit (there : t.files fd = some file) : fd < t.limit := by
  by_contra far
  cases (t.bounded fd (by omega)).symm.trans there

end Table

end Stablebox.Descriptors
