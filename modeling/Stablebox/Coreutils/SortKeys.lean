import Stablebox.Coreutils.Sort
import Stablebox.Lib.Runs

/-! The keys of `sort` against those of the standard: from character C of field F to character D of field G. -/
namespace Stablebox.Sort

open List Runs Nat

open Digits (isSpace)

/-- What stands between the separators, or each word with the white space before it. -/
def fields (separator : UInt8) (str : Line) : List Line :=
  if separator ≠ 0 then str.splitOnP (· == separator)
  else (runs (fun c => !isSpace c) str).map fun run => run.1 ++ run.2

def gap (separator : UInt8) : Nat := if separator ≠ 0 then 1 else 0

def offset (separator : UInt8) (str : Line) (n : Nat) : Nat :=
  (((fields separator str).take n).map fun field => field.length + gap separator).sum

def susStart (separator : UInt8) (str : Line) (key : SortKey) (flags : Nat) : Nat :=
  let start := min (offset separator str (key.startWord - 1)) str.length
  if has flags flagB then start + ((str.drop start).takeWhile isSpace).length else start

def susEnd (separator : UInt8) (str : Line) (key : SortKey) : Nat :=
  if key.endWord = 0 then str.length else offset separator str key.endWord - gap separator

def susKey (separator : UInt8) (str : Line) (key : SortKey) (flags : Nat) : Line :=
  let fin :=
    if key.endWord = 0 ∨ key.endChar = 0 then susEnd separator str key
    else offset separator str (key.endWord - 1) + key.endChar
  let text := (str.take fin).drop (susStart separator str key flags + (key.startChar - 1))
  let text := if has flags flagD then text.filter fun c => isSpace c || isAlnum c else text
  let text := if has flags flagI then text.filter isPrint else text
  if has flags flagF then text.map toUpper else text

/-- With a separator: a line without it, the second field without an end, or the first one of a line that does not
begin with it. -/
def Places (separator : UInt8) (str : Line) (key : SortKey) : Prop :=
  separator = 0 ∨ separator ∉ str ∨ key.startWord = 2 ∧ key.endWord = 0 ∨
    key.startWord = 1 ∧ key.endWord ≤ 1 ∧ str.head? ≠ some separator

/-- For the whole line, none of the modifiers that change it; for another key, `f`, no modifier at all or nothing to
fold, no character D, fields that are found, and no white space at the end that would be removed. -/
def Suits (separator : UInt8) (str : Line) (key : SortKey) (flags : Nat) : Prop :=
  if key.whole then ∀ flag ∈ [flagB,flagD,flagI,flagF], has flags flag = false
  else (flags = 0 ∨ has flags flagF ∨ ∀ c ∈ str, toUpper c = c) ∧ key.endChar = 0 ∧ Places separator str key ∧
    (has flags flagBB →
      ∀ c ∈ ((str.take (susEnd separator str key)).drop (susStart separator str key flags)).getLast?, !isSpace c)

instance (separator : UInt8) (str : Line) (key : SortKey) : Decidable (Places separator str key) :=
  inferInstanceAs (Decidable (_ ∨ _))

instance (separator : UInt8) (str : Line) (key : SortKey) (flags : Nat) : Decidable (Suits separator str key flags) :=
  inferInstanceAs (Decidable (ite _ _ _))

variable {separator : UInt8} {str : Line} {key : SortKey} {flags : Nat}

def blankField (str : Line) : Line :=
  (Runs.first (fun c => !isSpace c) str).1 ++ (Runs.first (fun c => !isSpace c) str).2

theorem offset_blank (str : Line) (n : Nat) :
    offset 0 str (n + 1) = (blankField str).length + offset 0 (behind (fun c => !isSpace c) str) n := by
  by_cases empty : str = []
  · simp [empty,offset,fields,blankField,runs]
  · simp [offset,fields,gap,blankField,runs_eq empty]

theorem skipField_blank (str : Line) (pos : Nat) :
    skipField 0 str pos = pos + (blankField (str.drop pos)).length ∧
      str.drop (skipField 0 str pos) = behind (fun c => !isSpace c) (str.drop pos) := by
  have first : (str.drop (pos + ((str.drop pos).takeWhile isSpace).length)) = (str.drop pos).dropWhile isSpace := by
    rw [← drop_drop,drop_takeWhile]
  constructor
  · simp only [skipField,blankField,Runs.first]
    simp [first,add_assoc]
  · simp only [skipField,if_true,first,ne_eq,not_true_eq_false,if_false]
    rw [← drop_drop,first,drop_takeWhile]
    simp [behind]

theorem skipFields_blank (str : Line) (n pos : Nat) : (skipField 0 str)^[n] pos = pos + offset 0 (str.drop pos) n := by
  induction n generalizing pos with
  | zero => simp [offset]
  | succ n ih =>
    obtain ⟨next,behind⟩ := skipField_blank str pos
    rw [Function.iterate_succ_apply,ih,behind,offset_blank,next,add_assoc]

theorem offset_blank_le (str : Line) (n : Nat) : offset 0 str n ≤ str.length := by
  induction n generalizing str with
  | zero => simp [offset]
  | succ n ih =>
    have whole := congrArg List.length (first_behind (fun c => !isSpace c) str)
    have rest := ih (behind (fun c => !isSpace c) str)
    rw [offset_blank,blankField]
    simp only [length_append] at whole ⊢
    omega

theorem skipField_separator (str : Line) (separates : separator ≠ 0) :
    (str[skipField separator str 0]? = some separator ∧ offset separator str 1 = skipField separator str 0 + 1 ∧
      skipField separator str 0 < str.length) ∨
    str[skipField separator str 0]? = none ∧ offset separator str 1 = str.length + 1 ∧
      skipField separator str 0 = str.length := by
  have stops : skipField separator str 0 = (str.takeWhile (· != separator)).length := by
    simp [skipField,separates]
  have letters : ∀ c ∈ str.takeWhile (· != separator), (c == separator) = false := fun c listed => by
    simpa using mem_takeWhile_imp listed
  have whole := takeWhile_append_dropWhile (p := (· != separator)) (l := str)
  rw [stops]
  generalize str.takeWhile (· != separator) = front at *
  cases rest : str.dropWhile (· != separator) with
  | nil =>
    rw [rest,append_nil] at whole
    subst whole
    simp [offset,fields,separates,gap,splitOnP_eq_singleton letters]
  | cons c back =>
    have stop : c = separator := by
      have := head?_dropWhile_not (· != separator) str
      simpa [rest] using this
    rw [rest,stop] at whole
    rw [← whole]
    simp [offset,fields,separates,gap,splitOnP_append_cons_of_forall_mem letters]

theorem skipFields_absent (absent : separator ∉ str) (separates : separator ≠ 0) (n : Nat) :
    (skipField separator str)^[n] 0 = if n = 0 then 0 else str.length := by
  have stops (pos : Nat) : skipField separator str pos = pos + (str.length - pos) := by
    have all : ∀ c ∈ str.drop pos, (c != separator) = true := fun c listed => by
      simpa using ne_of_mem_of_not_mem (mem_of_mem_drop listed) absent
    simp [skipField,separates,takeWhile_eq_self_iff.mpr all]
  induction n with
  | zero => rfl
  | succ n ih =>
    rw [Function.iterate_succ_apply',ih,stops]
    split <;> simp

theorem offset_absent (absent : separator ∉ str) (separates : separator ≠ 0) (n : Nat) :
    offset separator str n = if n = 0 then 0 else str.length + 1 := by
  have letters : ∀ c ∈ str, (c == separator) = false := fun c listed => by
    simpa using ne_of_mem_of_not_mem listed absent
  cases n <;> simp [offset,fields,separates,gap,splitOnP_eq_singleton letters]

theorem start_eq (first : 1 ≤ key.startWord) (place : Places separator str key) :
    (if separator ≠ 0 ∧ str[fieldBound separator str key.startWord 0]? = some separator then
      fieldBound separator str key.startWord 0 + 1 else fieldBound separator str key.startWord 0) =
      min (offset separator str (key.startWord - 1)) str.length ∧
    fieldBound separator str key.endWord 1 = susEnd separator str key := by
  have bound : fieldBound separator str key.startWord 0 = (skipField separator str)^[key.startWord - 1] 0 :=
    if_neg (by omega)
  rw [bound,fieldBound,susEnd,Nat.add_sub_cancel]
  by_cases blank : separator = 0
  · subst blank
    have inside := offset_blank_le str (key.startWord - 1)
    simp [skipFields_blank,gap,inside]
  · have stops := skipField_separator str blank
    rcases place with zero | absent | ⟨second,unbounded⟩ | ⟨one,last,begins⟩
    · exact absurd zero blank
    · have never (i : Nat) : str[i]? ≠ some separator := fun here => absent (mem_of_getElem? here)
      simp only [never,and_false,if_false,skipFields_absent absent blank,offset_absent absent blank,gap,if_pos blank]
      split_ifs <;> simp
    · rcases stops with ⟨found,next,more⟩ | ⟨_,next,whole⟩
      · simp [second,unbounded,blank,found,next]
        omega
      · simp [second,unbounded,blank,next,whole]
    · have head : str[0]? ≠ some separator := by rwa [← head?_eq_getElem?]
      refine ⟨by simp [one,head,offset],?_⟩
      rcases le_one_iff_eq_zero_or_eq_one.mp last with none | one
      · simp [none]
      rcases stops with ⟨_,next,_⟩ | ⟨_,next,whole⟩
      · simp [one,next,gap,blank]
      · simp [one,next,gap,blank,whole]

/-- The key that is cut out of a line is that of the standard. -/
theorem getKey_sus (separator : UInt8) (str : Line) (key : SortKey) (flags : Nat) (first : 1 ≤ key.startWord)
    (suits : Suits separator str key flags) : getKey separator str key flags = susKey separator str key flags := by
  unfold Suits at suits
  split at suits
  next whole =>
    rw [getKey_whole whole]
    obtain ⟨word,char,last,_⟩ := whole
    simp at suits
    simp [susKey,susStart,susEnd,suits,word,char,last,offset]
  next part =>
    obtain ⟨folds,last,place,trailing⟩ := suits
    obtain ⟨opens,closes⟩ := start_eq first place
    rw [getKey,if_neg fun both => part both.1]
    simp only [last,ne_eq,not_true_eq_false,if_false]
    simp only [ne_eq] at opens
    rw [opens,closes]
    generalize begins : (if has flags flagB then _ else _ : Nat) = start
    replace begins : susStart separator str key flags = start := begins
    rw [begins] at trailing
    simp only [susKey,last,or_true,if_true,begins]
    generalize susEnd separator str key = fin at *
    have ends : (if has flags flagBB then
        fin - (((str.take fin).drop start).reverse.takeWhile isSpace).length else fin) = fin := by
      split
      next blanks =>
        have none : ((str.take fin).drop start).reverse.takeWhile isSpace = [] := by
          rw [takeWhile_eq_nil_iff]
          intro some
          have last := trailing blanks _
            (getLast?_eq_head?_reverse.trans (head?_eq_getElem? ▸ getElem?_eq_getElem some))
          simpa using last
        rw [none,length_nil,Nat.sub_zero]
      next => rfl
    rw [ends]
    have cut : (str.take fin).drop
        (if ¬key.startChar = 0 then min (start + (key.startChar - 1)) str.length else start) =
        (str.take fin).drop (start + (key.startChar - 1)) := by
      split
      · rcases le_total (start + (key.startChar - 1)) str.length with short | long
        · rw [min_eq_left short]
        · rw [Nat.min_eq_right long,drop_eq_nil_of_le (by simp),drop_eq_nil_of_le (by simp; omega)]
      · next none => rw [not_not.mp none,Nat.zero_sub,Nat.add_zero]
    rw [cut]
    rcases folds with rfl | folded | upper
    · simp [has]
    · have modified : flags ≠ 0 := by
        rintro rfl
        simp [has] at folded
      rw [if_pos folded,if_pos (by simp [modified,flagF])]
    · have part : (str.take fin).drop (start + (key.startChar - 1)) ⊆ str :=
        ((drop_sublist _ _).trans (take_sublist _ _)).subset
      generalize (str.take fin).drop (start + (key.startChar - 1)) = text at part
      rw [map_congr_left (g := id),map_id,ite_self,ite_self]
      intro c listed
      refine upper c (part ?_)
      split_ifs at listed <;> simp_all

/-- `sort -k2.2,3f` on "a  bc d". -/
theorem getKey_second : getKey 0 [97,32,32,98,99,32,100] ⟨2,2,3,0,1024⟩ 1024 = [32,66,67,32,68] := by
  rw [getKey_sus 0 _ _ _ (by decide) (by decide)]
  decide

/-- Field three of "a:b:c" begins at the second one. -/
theorem getKey_stuck : getKey 58 [97,58,98,58,99] ⟨3,0,0,0,0⟩ 0 = [98,58,99] ∧
    susKey 58 [97,58,98,58,99] ⟨3,0,0,0,0⟩ 0 = [99] := by decide

end Stablebox.Sort
