import Stablebox.Lib.Memory

/-! Strings of C in a flat memory: a string ends at its first null byte, and a stretch of
memory may hold several of them one behind the other. -/
namespace Stablebox

open List

/-- `memchr(m + start, '\0', count)`, as the offset of the byte found. -/
def Memory.memchr (m : Memory) (start count : Nat) : Option Nat :=
  (List.range' start count).find? fun i => m i = 0

/-- The string at an offset of an object of `limit` bytes; none if the object ends before it does. -/
def Memory.cString (m : Memory) (offset limit : Nat) : Option (List UInt8) :=
  (m.memchr offset (limit - offset)).map fun c => m.get offset (c - offset)

def terminated (pieces : List (List UInt8)) : List UInt8 := pieces.flatMap (· ++ [0])

@[simp] theorem terminated_nil : terminated [] = [] := rfl

@[simp] theorem terminated_cons (piece : List UInt8) (pieces : List (List UInt8)) :
    terminated (piece :: pieces) = piece ++ 0 :: terminated pieces := by simp [terminated]

@[simp] theorem terminated_append (before after : List (List UInt8)) :
    terminated (before ++ after) = terminated before ++ terminated after := by simp [terminated]

theorem length_le_terminated (pieces : List (List UInt8)) : pieces.length ≤ (terminated pieces).length := by
  induction pieces with
  | nil => simp
  | cons piece pieces ih =>
    simp only [terminated_cons,length_cons,length_append]
    omega

variable {m : Memory} {count : Nat}

theorem Memory.memchr_eq_some :
    m.memchr start count = some c ↔
      m c = 0 ∧ (start ≤ c ∧ c < start + count) ∧ ∀ i, start ≤ i → i < c → m i ≠ 0 := by
  simp [Memory.memchr,find?_range'_eq_some]

namespace Memory

theorem of_get_append (here : m.get offset count = front ++ back) :
    m.get offset front.length = front ∧ m.get (offset + front.length) back.length = back := by
  have length : count = front.length + back.length := by
    rw [← length_append,← here,get_length]
  rw [length,get_add] at here
  exact append_inj here (by simp)

theorem of_get (here : m.get offset count = bytes) (bound : i < bytes.length) : m (offset + i) = bytes[i] := by
  have length : count = bytes.length := by rw [← here,get_length]
  rw [length] at here
  exact (m.get_eq_iff offset bytes).mp here i bound

theorem memchr_plain (here : m.get offset piece.length = piece) (plain : 0 ∉ piece)
    (ended : m (offset + piece.length) = 0) (inside : offset ≤ start) (before : start ≤ offset + piece.length)
    (covered : offset + piece.length < start + count) : m.memchr start count = some (offset + piece.length) := by
  refine memchr_eq_some.mpr ⟨ended,⟨before,covered⟩,?_⟩
  intro i after stop zero
  have bound : i - offset < piece.length := by omega
  have byte := of_get here bound
  rw [show offset + (i - offset) = i by omega,zero] at byte
  exact plain (byte ▸ getElem_mem bound)

theorem of_get_terminated (here : m.get offset count = terminated (piece :: pieces)) :
    m.get offset piece.length = piece ∧
      m (offset + piece.length) = 0 ∧
        m.get (offset + piece.length + 1) (terminated pieces).length = terminated pieces := by
  rw [terminated_cons] at here
  obtain ⟨first,rest⟩ := of_get_append here
  have split : m.get (offset + piece.length) (0 :: terminated pieces).length = [0] ++ terminated pieces := rest
  have byte := of_get rest (i := 0) (by simp)
  exact ⟨first,by simpa using byte,(of_get_append split).2⟩

/-- A search that starts inside a stretch of strings ends at the terminator of one of them. -/
theorem memchr_terminated (count : Nat) (pieces : List (List UInt8)) (offset : Nat)
    (here : m.get offset (terminated pieces).length = terminated pieces) (plain : ∀ piece ∈ pieces, 0 ∉ piece)
    (inside : offset ≤ start) (before : start < offset + (terminated pieces).length)
    (covered : offset + (terminated pieces).length ≤ start + count) :
    ∃ gone kept, pieces = gone ++ kept ∧ gone ≠ [] ∧ start < offset + (terminated gone).length ∧
      m.memchr start count = some (offset + (terminated gone).length - 1) := by
  induction pieces generalizing offset with
  | nil =>
    rw [terminated_nil,length_nil] at before
    omega
  | cons piece pieces ih =>
    obtain ⟨first,ended,behind⟩ := of_get_terminated here
    rw [terminated_cons,length_append,length_cons] at before covered
    by_cases early : start ≤ offset + piece.length
    · refine ⟨[piece],pieces,rfl,by simp,by simp; omega,?_⟩
      rw [memchr_plain first (plain piece (by simp)) ended inside early (by omega)]
      simp
    · obtain ⟨gone,kept,shape,_,later,found⟩ := ih (offset + piece.length + 1) behind
        (forall_mem_cons.mp plain).2 (by omega) (by omega) (by omega)
      refine ⟨piece :: gone,kept,by rw [shape,cons_append],by simp,?_,?_⟩
      · rw [terminated_cons,length_append,length_cons]
        omega
      · rw [found,terminated_cons,length_append,length_cons]
        congr 1
        omega

theorem cString_terminated (limit : Nat)
    (here : m.get offset (terminated (piece :: pieces)).length = terminated (piece :: pieces)) (plain : 0 ∉ piece)
    (inside : offset + (terminated (piece :: pieces)).length ≤ limit) : m.cString offset limit = some piece := by
  obtain ⟨first,ended,_⟩ := of_get_terminated here
  rw [terminated_cons,length_append,length_cons] at inside
  rw [cString,memchr_plain first plain ended (Nat.le_refl _) (by omega) (by omega)]
  simp [first]

end Memory

end Stablebox
