import Mathlib.Data.List.Basic

/-! Lines of a text file: `bb_get_chunk_from_file` and `bb_get_chomped_line_from_file`. A
file is the list of the bytes that are still to be read. -/
namespace Stablebox.Libbb

def text (s : String) : List UInt8 := s.toList.map fun c => UInt8.ofNat c.toNat

def takeChunk : List UInt8 → List UInt8 × List UInt8
  | [] => ([],[])
  | ch :: file =>
    if ch = 0 ∨ ch = 10 then ([ch],file)
    else (ch :: (takeChunk file).1,(takeChunk file).2)

def bbGetChunkFromFile (file : List UInt8) : Option (List UInt8 × List UInt8) :=
  if file.isEmpty then none else some (takeChunk file)

def bbGetChompedLineFromFile (file : List UInt8) : Option (List UInt8 × List UInt8) := do
  let (chunk,file) ← bbGetChunkFromFile file
  return (chunk.takeWhile fun ch => ch ≠ 0 ∧ ch ≠ 10,file)

theorem takeChunk_append (rest : List UInt8) (plain : ∀ ch ∈ line, ch ≠ 0 ∧ ch ≠ 10) :
    takeChunk (line ++ 10 :: rest) = (line ++ [10],rest) := by
  induction line with
  | nil => rfl
  | cons ch line ih =>
    have here := plain ch (by simp)
    simp [takeChunk,here,ih fun c listed => plain c (by simp [listed])]

theorem chomped_append (line rest : List UInt8) (plain : ∀ ch ∈ line, ch ≠ 0 ∧ ch ≠ 10) :
    bbGetChompedLineFromFile (line ++ 10 :: rest) = some (line,rest) := by
  have every : ∀ ch ∈ line, decide (ch ≠ 0 ∧ ch ≠ 10) = true := by simpa using plain
  have whole : (line ++ [10]).takeWhile (fun ch => ch ≠ 0 ∧ ch ≠ 10) = line := by
    rw [List.takeWhile_append_of_pos every]
    simp
  have more : (line ++ 10 :: rest).isEmpty = false := by simp
  simp only [bbGetChompedLineFromFile,bbGetChunkFromFile,more,Bool.false_eq_true,if_false,
    takeChunk_append rest plain,Option.bind_eq_bind,Option.bind_some,whole]
  rfl

end Stablebox.Libbb
