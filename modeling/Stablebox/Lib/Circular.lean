import Stablebox.Lib.Memory

/-! Circular buffers in flat memory: what a buffer of `size` bytes holds from a place on, and
what writes at its two ends do to that. -/
namespace Stablebox

open List Nat

variable {m : Memory} {size start count : Nat}

namespace Memory

def around (m : Memory) (size start count : Nat) : List UInt8 :=
  (List.range count).map fun i => m ((start + i) % size)

@[simp] theorem around_length (m : Memory) (size start count : Nat) :
    (m.around size start count).length = count := by simp [around]

@[simp] theorem around_zero (m : Memory) (size start : Nat) : m.around size start 0 = [] := rfl

theorem around_add (m : Memory) (size start a b : Nat) :
    m.around size start (a + b) = m.around size start a ++ m.around size (start + a) b := by
  simp [around,range_add,Function.comp_def,add_assoc]

theorem around_end (m : Memory) (size count : Nat) : m.around size size count = m.around size 0 count := by
  simp [around]

theorem around_flat (flat : start + count ≤ size) : m.around size start count = m.get start count := by
  apply map_congr_left
  intro i member
  have bound := mem_range.mp member
  rw [mod_eq_of_lt (by omega)]

end Memory

theorem wrapped_index (size i : Nat) (near : i < 2 * size) : i % size = if i < size then i else i - size := by
  split
  · exact mod_eq_of_lt ‹_›
  · rw [mod_eq_sub_mod (by omega),mod_eq_of_lt (by omega)]

namespace Memory

theorem around_put_outside (outside : ∀ i < count,
      (start + i) % size < offset ∨ offset + bytes.length ≤ (start + i) % size) :
    (m.put offset bytes).around size start count = m.around size start count := by
  apply map_congr_left
  intro i member
  exact m.put_outside (outside i (mem_range.mp member))

theorem around_put_behind (inside : start ≤ size) (before : offset + bytes.length ≤ start)
    (room : start + count ≤ offset + size) :
    (m.put offset bytes).around size start count = m.around size start count := by
  apply around_put_outside
  intro i bound
  rw [wrapped_index _ _ (by omega)]
  split <;> omega

theorem around_put_next (inside : start < size) (fits : kept ≤ bytes.length) (room : count + bytes.length ≤ size)
    (flat : (start + count) % size + bytes.length ≤ size) :
    (m.put ((start + count) % size) bytes).around size start (count + kept)
      = m.around size start count ++ bytes.take kept := by
  have place := wrapped_index size (start + count) (by omega)
  rw [around_add]
  congr 1
  · apply around_put_outside
    intro i bound
    rw [wrapped_index _ _ (by omega),place]
    split <;> split <;> omega
  · have same : (m.put ((start + count) % size) bytes).around size (start + count) kept
        = (m.put ((start + count) % size) bytes).around size ((start + count) % size) kept := by
      apply map_congr_left
      intro i _
      rw [mod_add_mod]
    rw [same,around_flat (by omega)]
    have whole := m.get_put_same ((start + count) % size) bytes
    rw [show bytes.length = kept + (bytes.length - kept) by omega,get_add] at whole
    have front := congrArg (List.take kept) whole
    rw [take_append_of_le_length (by simp)] at front
    rw [← front,take_of_length_le (by simp)]

theorem around_split (part : n ≤ count) (flat : start + n ≤ size) :
    m.around size start count = m.get start n ++ m.around size (start + n) (count - n) := by
  rw [← around_flat flat,← around_add]
  congr 1
  omega

theorem around_drop (part : n ≤ count) :
    m.around size (start + n) (count - n) = (m.around size start count).drop n := by
  have split := m.around_add size start n (count - n)
  rw [show n + (count - n) = count by omega] at split
  rw [split,drop_append_of_le_length (by simp),drop_of_length_le (by simp),nil_append]

end Memory

end Stablebox
