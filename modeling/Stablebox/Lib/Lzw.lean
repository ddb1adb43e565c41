import Mathlib.Data.List.Basic
import Mathlib.Data.List.TakeWhile

/-! The dictionary coding of Lempel, Ziv and Welch over any alphabet, with a limit on the size of
the dictionary and a code that clears it. -/
namespace Stablebox.Lzw

open List

/-- The symbols have codes of their own; those of the dictionary start at `first`. -/
structure Alphabet (α : Type) where
  index : α → Nat
  symbol : Nat → Option α
  first : Nat
  symbol_index : ∀ a, symbol (index a) = some a
  symbol_first : ∀ code, first ≤ code → symbol code = none

variable {α : Type} (alphabet : Alphabet α) (limit : Nat)

def grow (dict : List (List α)) (phrase : List α) : List (List α) :=
  if alphabet.first + dict.length < limit then dict ++ [phrase] else dict

section Encoder

variable [DecidableEq α]

def codeOf (dict : List (List α)) : List α → Nat
  | [a] => alphabet.index a
  | phrase => alphabet.first + dict.idxOf phrase

/-- The codes of a text that goes on after `phrase`, which is known: the longest known phrase is
taken each time. -/
def encodeFrom (dict : List (List α)) (phrase : List α) : List α → List Nat
  | [] => [codeOf alphabet dict phrase]
  | a :: rest =>
    if phrase ++ [a] ∈ dict then encodeFrom dict (phrase ++ [a]) rest
    else codeOf alphabet dict phrase :: encodeFrom (grow alphabet limit dict (phrase ++ [a])) [a] rest

def encode : List α → List Nat
  | [] => []
  | a :: rest => encodeFrom alphabet limit [] [a] rest

end Encoder

/-- The phrase of a code; the code that is just missing stands for the last phrase and its own
first symbol. -/
def phraseOf (dict : List (List α)) (last : List α) (code : Nat) : Option (List α) :=
  match alphabet.symbol code with
  | some a => some [a]
  | none =>
    if code < alphabet.first then none
    else
      match dict[code - alphabet.first]? with
      | some phrase => some phrase
      | none => if code = alphabet.first + dict.length ∧ code < limit then some (last ++ last.take 1) else none

/-- The text of a list of codes; there is no dictionary before the first of them and after the
code that clears it. -/
def decode (clear : Option Nat) : Option (List (List α) × List α) → List Nat → Option (List α)
  | _,[] => some []
  | none,code :: codes =>
    match alphabet.symbol code with
    | none => none
    | some a => (decode clear (some ([],[a])) codes).map ([a] ++ ·)
  | some (dict,last),code :: codes =>
    if clear = some code then decode clear none codes
    else
      match phraseOf alphabet limit dict last code with
      | none => none
      | some phrase =>
        (decode clear (some (grow alphabet limit dict (last ++ phrase.take 1),phrase)) codes).map (phrase ++ ·)

variable {alphabet limit}

theorem mem_grow (listed : other ∈ grow alphabet limit dict phrase) :
    other ∈ dict ∨ other = phrase ∧ alphabet.first + dict.length < limit := by
  unfold grow at listed
  split at listed
  · rename_i room
    rcases mem_append.mp listed with old | new
    · exact .inl old
    · exact .inr ⟨mem_singleton.mp new,room⟩
  · exact .inl listed

variable [DecidableEq α]

theorem idxOf_grow (listed : other ∈ dict) :
    (grow alphabet limit dict phrase).idxOf other = dict.idxOf other := by
  unfold grow
  split
  · exact idxOf_append_of_mem listed
  · rfl

/-- The decoder is one phrase behind, and finds what the encoder meant. -/
theorem phraseOf_codeOf (lastNonempty : last ≠ [])
    (known : phrase.length = 1 ∨ phrase ∈ grow alphabet limit dict (last ++ phrase.take 1)) :
    phraseOf alphabet limit dict last (codeOf alphabet (grow alphabet limit dict (last ++ phrase.take 1)) phrase) =
      some phrase := by
  by_cases single : phrase.length = 1
  · obtain ⟨a,rfl⟩ := length_eq_one_iff.mp single
    simp [phraseOf,codeOf,alphabet.symbol_index]
  have code : codeOf alphabet (grow alphabet limit dict (last ++ phrase.take 1)) phrase =
      alphabet.first + (grow alphabet limit dict (last ++ phrase.take 1)).idxOf phrase := by
    unfold codeOf
    split
    · simp at single
    · rfl
  have beyond (n : Nat) := alphabet.symbol_first (alphabet.first + n) (Nat.le_add_right _ _)
  rw [code]
  rcases mem_grow (known.resolve_left single) with old | ⟨same,room⟩
  · have bound := idxOf_lt_length_of_mem old
    simp [phraseOf,beyond,idxOf_grow old,bound]
  by_cases old : phrase ∈ dict
  · have bound := idxOf_lt_length_of_mem old
    simp [phraseOf,beyond,idxOf_grow old,bound]
  -- the newest phrase, which the decoder does not have yet
  have newest : (grow alphabet limit dict (last ++ phrase.take 1)).idxOf phrase = dict.length := by
    rw [grow,if_pos room,idxOf_append_of_notMem old,← same]
    simp
  have start : phrase.take 1 = last.take 1 := by
    obtain ⟨a,others,rfl⟩ := exists_cons_of_ne_nil lastNonempty
    rw [same]
    simp
  rw [newest]
  simp [phraseOf,beyond,room,← start,← same]

theorem codeOf_ne_clear (dict : List (List α)) (phrase : List α) (apart : alphabet.symbol clear = none)
    (low : clear < alphabet.first) : codeOf alphabet dict phrase ≠ clear := by
  intro same
  unfold codeOf at same
  split at same
  · rw [← same,alphabet.symbol_index] at apart
    cases apart
  · omega

def pairs : List α → List (List α)
  | a :: b :: rest => [a,b] :: pairs (b :: rest)
  | _ => []

theorem encodeFrom_pairs (rest : List α) (a : α) (dict : List (List α)) (distinct : (pairs (a :: rest)).Nodup)
    (new : ∀ pair ∈ pairs (a :: rest), pair ∉ dict) :
    encodeFrom alphabet limit dict [a] rest = (a :: rest).map alphabet.index := by
  induction rest generalizing a dict with
  | nil => rfl
  | cons b rest ih =>
    obtain ⟨fresh,others⟩ := nodup_cons.mp distinct
    have unknown : [a] ++ [b] ∉ dict := new _ (mem_cons_self ..)
    rw [encodeFrom,if_neg unknown,ih b _ others]
    · rfl
    intro pair listed known
    rcases mem_grow known with old | ⟨rfl,_⟩
    · exact new pair (.tail _ listed) old
    · exact fresh listed

theorem encode_pairs (distinct : (pairs text).Nodup) :
    encode alphabet limit text = text.map alphabet.index := by
  cases text with
  | nil => rfl
  | cons a rest => exact encodeFrom_pairs rest a [] distinct (by simp)

section RoundTrip

variable (apart : ∀ code, clear = some code → alphabet.symbol code = none ∧ code < alphabet.first)

include apart

theorem decode_encodeFrom {tail : List Nat}
    (after : ∀ dict last, decode alphabet limit clear (some (dict,last)) tail = some out) (rest : List α)
    (dict : List (List α)) (last phrase : List α) (lastNonempty : last ≠ []) (nonempty : phrase ≠ [])
    (known : phrase.length = 1 ∨ phrase ∈ grow alphabet limit dict (last ++ phrase.take 1)) :
    decode alphabet limit clear (some (dict,last))
      (encodeFrom alphabet limit (grow alphabet limit dict (last ++ phrase.take 1)) phrase rest ++ tail) =
        some (phrase ++ rest ++ out) := by
  have other (dict : List (List α)) (phrase : List α) : clear ≠ some (codeOf alphabet dict phrase) := fun same =>
    codeOf_ne_clear dict phrase (apart _ same).1 (apart _ same).2 rfl
  induction rest generalizing dict last phrase with
  | nil => simp [encodeFrom,decode,other,phraseOf_codeOf lastNonempty known,after]
  | cons a rest ih =>
    have start : (phrase ++ [a]).take 1 = phrase.take 1 := by
      obtain ⟨b,others,rfl⟩ := exists_cons_of_ne_nil nonempty
      rfl
    unfold encodeFrom
    split
    · have whole := ih dict last (phrase ++ [a]) lastNonempty (by simp) (.inr (by rwa [start]))
      rw [start] at whole
      simpa using whole
    · have whole := ih (grow alphabet limit dict (last ++ phrase.take 1)) phrase [a] nonempty (by simp) (.inl rfl)
      rw [show ([a] : List α).take 1 = [a] from rfl] at whole
      simp [decode,other,phraseOf_codeOf lastNonempty known,whole]

theorem decode_encode {tail : List Nat}
    (after : ∀ dict last, decode alphabet limit clear (some (dict,last)) tail = some out) (nonempty : text ≠ []) :
    decode alphabet limit clear none (encode alphabet limit text ++ tail) = some (text ++ out) := by
  obtain ⟨a,rest,rfl⟩ := exists_cons_of_ne_nil nonempty
  cases rest with
  | nil => simp [encode,encodeFrom,codeOf,decode,alphabet.symbol_index,after]
  | cons b rest =>
    have whole := decode_encodeFrom apart after rest [] [a] [b] (by simp) (by simp) (.inl rfl)
    rw [take_of_length_le (by simp),singleton_append] at whole
    simp [encode,encodeFrom,codeOf,decode,alphabet.symbol_index,whole]

end RoundTrip

/-- Stretches of text, each with a dictionary of its own. -/
def encodeAll (alphabet : Alphabet α) (limit : Nat) (clear : Nat) : List (List α) → List Nat
  | [] => []
  | [text] => encode alphabet limit text
  | text :: texts => encode alphabet limit text ++ clear :: encodeAll alphabet limit clear texts

theorem decode_encodeAll (apart : alphabet.symbol clear = none) (low : clear < alphabet.first)
    (nonempty : ∀ text ∈ texts, text ≠ []) :
    decode alphabet limit (some clear) none (encodeAll alphabet limit clear texts) = some texts.flatten := by
  have clears : ∀ code, some clear = some code → alphabet.symbol code = none ∧ code < alphabet.first := by
    rintro code ⟨⟩
    exact ⟨apart,low⟩
  induction texts with
  | nil => rfl
  | cons text texts ih =>
    have here := nonempty text (mem_cons_self ..)
    have others := ih (forall_mem_cons.mp nonempty).2
    cases texts with
    | nil =>
      have ends (dict : List (List α)) (last : List α) :
          decode alphabet limit (some clear) (some (dict,last)) [] = some [] := by rw [decode]
      simpa [encodeAll] using decode_encode clears ends here
    | cons next texts =>
      have after (dict : List (List α)) (last : List α) :
          decode alphabet limit (some clear) (some (dict,last))
            (clear :: encodeAll alphabet limit clear (next :: texts)) =
            some (next :: texts).flatten := by
        rw [decode,if_pos rfl,others]
      exact decode_encode clears after here

end Stablebox.Lzw
