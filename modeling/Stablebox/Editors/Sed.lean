import Mathlib.Algebra.Ring.Int.Defs
import Mathlib.Data.List.TakeWhile
import Mathlib.Tactic.ByContra

/-! Which commands `process_files` executes on a line: address ranges, and the groups that are skipped. -/
namespace Stablebox.Sed

open List

/-! ### The loop over the commands -/

/-- A compiled regular expression, as the pattern spaces that it matches. -/
abbrev Regex := List UInt8 → Bool

/-- The part of `sed_cmd_t` that selects lines. -/
structure SedCmd where
  begMatch : Option Regex
  endMatch : Option Regex
  begLine : Int
  endLine : Int
  invert : Bool
  cmd : UInt8

/-- What the tests of a command look at; `nextLine` is whether there is one. -/
structure Line where
  linenum : Int
  nextLine : Bool
  patternSpace : List UInt8

namespace SedCmd

variable (c : SedCmd) (oldMatched : Bool) (line : Line)

def matched : Bool :=
  oldMatched || (c.begLine == 0 && c.endLine == 0 && c.begMatch.isNone && c.endMatch.isNone) ||
    (decide (c.begLine > 0) && c.begLine == line.linenum) || c.begMatch.any (· line.patternSpace) ||
    (c.begLine == -1 && !line.nextLine)

def inMatch : Bool :=
  c.matched oldMatched line &&
    !((if c.endLine ≠ 0 then if c.endLine = -1 then !line.nextLine else decide (c.endLine ≤ line.linenum)
        else c.endMatch.isNone) ||
      (c.endMatch.any (· line.patternSpace) && oldMatched))

def selected : Bool := if c.invert then !c.matched oldMatched line else c.matched oldMatched line

/-- The bit `in_match` of a command, and the lines on which the command was executed. -/
structure State where
  inMatch : Bool
  executed : List Nat

def turn (count : Nat) (nextLine : Bool) (s : State) (patternSpace : List UInt8) : State :=
  let line := ⟨Int.bmod count 4294967296,nextLine,patternSpace⟩
  ⟨c.inMatch s.inMatch line,if c.selected s.inMatch line then count :: s.executed else s.executed⟩

end SedCmd

open SedCmd

/-- A command that the loop comes to, with the pattern space as it is then. -/
structure Visit where
  place : Nat
  patternSpace : List UInt8
deriving DecidableEq

section Loop

variable (script : List SedCmd)

def visit (count : Nat) (nextLine : Bool) (s : Nat → State) (v : Visit) : Nat → State :=
  match script[v.place]? with
  | none => s
  | some c => Function.update s v.place (c.turn count nextLine (s v.place) v.patternSpace)

/-- The first lines of the input, each with the commands that the loop comes to on it, in whatever way the commands
lead there. -/
def processed (lines : List (List Visit)) : Nat → Nat → State
  | 0 => fun _ => ⟨false,[]⟩
  | count + 1 =>
    (lines.getD count []).foldl (visit script (count + 1) (decide (count + 1 < lines.length))) (processed lines count)

def processFiles (lines : List (List Visit)) : Nat → State := processed script lines lines.length

def Inner (c : SedCmd) : Bool := c.cmd != 125

/-- Where the loop goes on behind the `{` of a group; `none` is the error "Unterminated {". -/
def openGroup (place : Nat) (selected : Bool) : Option Nat :=
  if selected then some (place + 1)
  else
    let closing := place + ((script.drop place).takeWhile Inner).length
    if closing < script.length then some (closing + 1) else none

end Loop

/-! ### Ranges of lines -/

section Ranges

-- `Ends s j`: the range that starts at line `s` ends with line `j`.
variable (Begins : Nat → Prop) (Ends : Nat → Nat → Prop)

/-- A range starts at a line that begins one and is in none; the lines are counted from 1. -/
def Starts (k : Nat) : Prop :=
  0 < k ∧ Begins k ∧ ∀ s, (earlier : s < k) → Starts s → ∃ j, s ≤ j ∧ j < k ∧ Ends s j
termination_by k
decreasing_by exact earlier

def Inside (k : Nat) : Prop := ∃ s < k, Starts Begins Ends s ∧ ∀ j, s ≤ j → j < k → ¬ Ends s j

def InRange (k : Nat) : Prop := ∃ s ≤ k, Starts Begins Ends s ∧ ∀ j, s ≤ j → j < k → ¬ Ends s j

variable {Begins Ends} (positive : 0 < k)

include positive

theorem starts_iff : Starts Begins Ends k ↔ Begins k ∧ ¬ Inside Begins Ends k := by
  rw [Starts,Inside]
  constructor
  · rintro ⟨-,begins,closed⟩
    refine ⟨begins,?_⟩
    rintro ⟨s,earlier,starts,still⟩
    obtain ⟨j,start,before,ends⟩ := closed s earlier starts
    exact still j start before ends
  · rintro ⟨begins,outside⟩
    refine ⟨positive,begins,fun s earlier starts => ?_⟩
    by_contra still
    exact outside ⟨s,earlier,starts,fun j start before ends => still ⟨j,start,before,ends⟩⟩

theorem inRange_iff : InRange Begins Ends k ↔ Inside Begins Ends k ∨ Begins k := by
  constructor
  · rintro ⟨s,upTo,starts,still⟩
    rcases Nat.lt_or_eq_of_le upTo with earlier | rfl
    · exact .inl ⟨s,earlier,starts,still⟩
    · exact .inr ((starts_iff positive).mp starts).1
  · intro either
    by_cases inside : Inside Begins Ends k
    · obtain ⟨s,earlier,rest⟩ := inside
      exact ⟨s,le_of_lt earlier,rest⟩
    · exact ⟨k,le_refl k,(starts_iff positive).mpr ⟨either.resolve_left inside,inside⟩,by omega⟩

theorem inside_succ (later : ∀ s < k, Ends s k ↔ Ends 0 k) : Inside Begins Ends (k + 1) ↔
    Inside Begins Ends k ∧ ¬ Ends 0 k ∨ ¬ Inside Begins Ends k ∧ Begins k ∧ ¬ Ends k k := by
  constructor
  · rintro ⟨s,upTo,starts,still⟩
    have here := still k (by omega) (by omega)
    rcases Nat.lt_or_eq_of_le (Nat.le_of_lt_succ upTo) with earlier | rfl
    · rw [later s earlier] at here
      exact .inl ⟨⟨s,earlier,starts,fun j start before => still j start (by omega)⟩,here⟩
    · obtain ⟨begins,outside⟩ := (starts_iff positive).mp starts
      exact .inr ⟨outside,begins,here⟩
  · rintro (⟨⟨s,earlier,starts,still⟩,here⟩ | ⟨outside,begins,here⟩)
    · refine ⟨s,by omega,starts,fun j start before => ?_⟩
      rcases Nat.lt_or_eq_of_le (Nat.le_of_lt_succ before) with less | rfl
      · exact still j start less
      · rwa [later s earlier]
    · refine ⟨k,by omega,(starts_iff positive).mpr ⟨begins,outside⟩,fun j start before => ?_⟩
      obtain rfl : k = j := by omega
      exact here

end Ranges

/-! ### Addresses -/

inductive Address where
  | line (n : Nat) (positive : 0 < n) (int : n < 2147483648)
  | last
  | regex (r : Regex)

inductive Addresses where
  | all
  | span (first : Address) (second : Option Address)

namespace Address

def linenum : Address → Int
  | line n _ _ => n
  | last => -1
  | regex _ => 0

def match? : Address → Option Regex
  | regex r => some r
  | _ => none

def Matches (lines : Nat) (space : Nat → List UInt8) (k : Nat) : Address → Prop
  | line n _ _ => n = k
  | last => k = lines
  | regex r => r (space k) = true

end Address

namespace Addresses

def command (invert : Bool) (cmd : UInt8) : Addresses → SedCmd
  | all => ⟨none,none,0,0,invert,cmd⟩
  | span first second =>
    ⟨first.match?,second.bind Address.match?,first.linenum,(second.map Address.linenum).getD 0,invert,cmd⟩

variable (lines : Nat) (space : Nat → List UInt8)

def Begins (a : Addresses) (k : Nat) : Prop :=
  match a with
  | all => True
  | span first _ => first.Matches lines space k

/-- A regular expression is only looked for behind the first line of the range. -/
def Ends (a : Addresses) (s j : Nat) : Prop :=
  match a with
  | span _ (some (.line n _ _)) => n ≤ j
  | span _ (some .last) => j = lines
  | span _ (some (.regex r)) => s < j ∧ r (space j) = true
  | _ => True

def Selects (a : Addresses) (k : Nat) : Prop := InRange (a.Begins lines space) (a.Ends lines space) k

variable {lines space} {invert : Bool} {cmd : UInt8}

theorem ends_later (a : Addresses) (s : Nat) (earlier : s < k) : a.Ends lines space s k ↔ a.Ends lines space 0 k := by
  match a with
  | span _ (some (.regex _)) => simp [Ends,earlier,Nat.zero_lt_of_lt earlier]
  | span _ (some (.line _ _ _)) | span _ (some .last) | span _ none | all => rfl

theorem matched_iff (a : Addresses) (old : Bool) (upTo : k ≤ lines) :
    (a.command invert cmd).matched old ⟨k,decide (k < lines),space k⟩ = true ↔
      old = true ∨ a.Begins lines space k := by
  have last : lines ≤ k ↔ k = lines := by omega
  unfold SedCmd.matched command Begins
  match a with
  | all => simp
  | span (.line n positive _) _ =>
    have nonzero : n ≠ 0 ∧ (n : Int) ≠ -1 := by omega
    simp [Address.linenum,Address.match?,Address.Matches,nonzero,positive]
  | span .last _ => simp [Address.linenum,Address.match?,Address.Matches,last]
  | span (.regex r) _ => simp [Address.linenum,Address.match?,Address.Matches]

theorem selected_iff (a : Addresses) (old : Bool) (line : Line) : (a.command invert cmd).selected old line = true ↔
    ((a.command invert cmd).matched old line = true ↔ invert = false) := by
  have same : (a.command invert cmd).invert = invert := by cases a <;> rfl
  rw [SedCmd.selected,same]
  cases invert <;> simp

theorem inMatch_iff (a : Addresses) (old : Bool) (positive : 0 < k) (upTo : k ≤ lines) :
    (a.command invert cmd).inMatch old ⟨k,decide (k < lines),space k⟩ = true ↔
      old = true ∧ ¬ a.Ends lines space 0 k ∨ ¬ old = true ∧ a.Begins lines space k ∧ ¬ a.Ends lines space k k := by
  have next : k < lines ↔ ¬ k = lines := by omega
  rw [SedCmd.inMatch,Bool.and_eq_true,matched_iff a old upTo]
  match a with
  | all | span _ none => simp [command,Ends]
  | span first (some (.line n above _)) =>
    have nonzero : n ≠ 0 ∧ (n : Int) ≠ -1 := by omega
    cases old <;> simp [command,Ends,Address.linenum,Address.match?,nonzero]
  | span first (some .last) => cases old <;> simp [command,Ends,Address.linenum,Address.match?,next]
  | span first (some (.regex r)) => cases old <;> simp [command,Ends,Address.linenum,Address.match?,positive]

end Addresses

/-! ### One command among the others -/

section Run

variable {script : List SedCmd} {i : Nat} {c : SedCmd}

theorem foldl_visit (found : script[i]? = some c) (count : Nat) (nextLine : Bool) (visits : List Visit)
    (s : Nat → State) : visits.foldl (visit script count nextLine) s i =
      (visits.filter (·.place = i)).foldl (fun own v => c.turn count nextLine own v.patternSpace) (s i) := by
  induction visits generalizing s with
  | nil => rfl
  | cons v visits ih =>
    rw [foldl_cons,ih]
    by_cases here : v.place = i
    · simp [visit,here,found]
    · rw [filter_cons_of_neg (by simpa using here)]
      congr 1
      unfold visit
      cases script[v.place]? with
      | none => rfl
      | some _ => exact Function.update_of_ne (Ne.symm here) _ _

theorem mem_executed {n count : Nat} {selected : Bool} :
    n ∈ (if selected then count :: executed else executed) ↔ n = count ∧ selected = true ∨ n ∈ executed := by
  cases selected <;> simp

/-- The loop comes to command `i` once on every line, with the pattern space `space k` on line `k`. -/
def ReachedOnce (lines : List (List Visit)) (i : Nat) (space : Nat → List UInt8) : Prop :=
  ∀ k < lines.length, (lines.getD k []).filter (·.place = i) = [⟨i,space (k + 1)⟩]

variable {lines : List (List Visit)} {space : Nat → List UInt8}

theorem ReachedOnce.turn (once : ReachedOnce lines i space) (found : script[i]? = some c) (inside : k < lines.length) :
    processed script lines (k + 1) i =
      c.turn (k + 1) (decide (k + 1 < lines.length)) (processed script lines k i) (space (k + 1)) := by
  rw [processed,foldl_visit found,once k inside]
  rfl

/-- In an input of fewer than 2^31 lines a command that the loop comes to once on every line is executed on the lines
that its addresses select, or with `!` on the others. -/
theorem processFiles_executed (script : List SedCmd) (lines : List (List Visit)) (i : Nat) (space : Nat → List UInt8)
    (a : Addresses) (invert : Bool) (cmd : UInt8) (found : script[i]? = some (a.command invert cmd))
    (once : ReachedOnce lines i space) (few : lines.length < 2147483648) (n : Nat) :
    n ∈ (processFiles script lines i).executed ↔
      0 < n ∧ n ≤ lines.length ∧ (a.Selects lines.length space n ↔ invert = false) := by
  have upTo : ∀ k ≤ lines.length, ((processed script lines k i).inMatch = true ↔
        Inside (a.Begins lines.length space) (a.Ends lines.length space) (k + 1)) ∧
      (n ∈ (processed script lines k i).executed ↔
        0 < n ∧ n ≤ k ∧ (a.Selects lines.length space n ↔ invert = false)) := by
    intro k
    induction k with
    | zero =>
      refine fun _ => ⟨⟨nofun,?_⟩,nofun,by omega⟩
      rintro ⟨s,less,starts,_⟩
      rw [Starts] at starts
      omega
    | succ k ih =>
      intro inside
      obtain ⟨before,executed⟩ := ih (by omega)
      have number : Int.bmod (k + 1 : Nat) 4294967296 = (k + 1 : Nat) := by
        rw [Int.bmod_def]
        omega
      rw [once.turn found inside,SedCmd.turn,number]
      constructor
      · rw [a.inMatch_iff _ k.succ_pos inside,inside_succ k.succ_pos a.ends_later,before]
      · rw [mem_executed,a.selected_iff,a.matched_iff _ inside,before,← inRange_iff k.succ_pos,executed,
          ← Addresses.Selects]
        constructor
        · rintro (⟨rfl,chosen⟩ | ⟨positive,upTo,chosen⟩)
          · exact ⟨k.succ_pos,le_refl _,chosen⟩
          · exact ⟨positive,by omega,chosen⟩
        · rintro ⟨positive,upTo,chosen⟩
          rcases Nat.lt_or_eq_of_le upTo with earlier | rfl
          · exact .inr ⟨positive,by omega,chosen⟩
          · exact .inl ⟨rfl,chosen⟩
  exact (upTo lines.length (le_refl _)).2

def numbered (n : Nat) (positive : 0 < n) (int : n < 2147483648) : Addresses := .span (.line n positive int) none

/-- The command `2p` in an input of two lines. -/
theorem processFiles_executed_second :
    let a := numbered 2 (by decide) (by decide)
    2 ∈ (processFiles [a.command false 112] [[⟨0,[]⟩],[⟨0,[]⟩]] 0).executed ↔
      0 < 2 ∧ 2 ≤ 2 ∧ (a.Selects 2 (fun _ => []) 2 ↔ false = false) :=
  processFiles_executed _ [[⟨0,[]⟩],[⟨0,[]⟩]] 0 (fun _ => []) _ false 112 rfl (by unfold ReachedOnce; decide)
    (by decide) 2

theorem reachedOnce_replicate (n : Nat) : ReachedOnce (replicate n [⟨0,[]⟩]) 0 fun _ => [] := by
  intro k inside
  rw [length_replicate] at inside
  simp [getD_eq_getElem?_getD,inside]

/-- Behind 2^32 lines `linenum` is 1 again, and `1p` prints a second line. -/
theorem linenum_wraps :
    let a := numbered 1 (by decide) (by decide)
    let lines : List (List Visit) := replicate 4294967297 [⟨0,[]⟩]
    ReachedOnce lines 0 (fun _ => []) ∧ 4294967297 ∈ (processFiles [a.command false 112] lines 0).executed ∧
      ¬ a.Selects 4294967297 (fun _ => []) 4294967297 := by
  intro a lines
  have length : lines.length = 4294967296 + 1 := length_replicate
  have once : ReachedOnce lines 0 (fun _ => []) := reachedOnce_replicate _
  refine ⟨once,?_,?_⟩
  · rw [processFiles,length,once.turn (c := a.command false 112) rfl (by omega),SedCmd.turn,mem_executed]
    exact .inl ⟨rfl,by simp [SedCmd.selected,SedCmd.matched,Addresses.command,a,numbered,Address.linenum]⟩
  · rintro ⟨s,upTo,starts,still⟩
    rcases Nat.lt_or_eq_of_le upTo with earlier | rfl
    · exact still s (le_refl s) earlier trivial
    · rw [Starts] at starts
      exact absurd starts.2.1 (show ¬ 1 = 4294967297 by decide)

/-! ### Groups -/

/-- Commands with every group closed, of any depth. -/
inductive Nested : List SedCmd → Prop where
  | nil : Nested []
  | single {c : SedCmd} {rest : List SedCmd} (plain : c.cmd ≠ 123 ∧ c.cmd ≠ 125) (more : Nested rest) :
      Nested (c :: rest)
  | group {opening closing : SedCmd} {body rest : List SedCmd} (opens : opening.cmd = 123) (closes : closing.cmd = 125)
      (inner : Nested body) (more : Nested rest) : Nested (opening :: body ++ closing :: rest)

/-- From one place to a later one the loop comes to nothing but `}`, for which the switch has no case. -/
def Passes (script : List SedCmd) (place target : Nat) : Prop :=
  place ≤ target ∧ ∀ c ∈ (script.take target).drop place, c.cmd = 125

theorem openGroup_first (before after : List SedCmd) {front : List SedCmd} (opens : opening.cmd = 123)
    (inside : ∀ c ∈ front, Inner c) (closes : closing.cmd = 125) :
    openGroup (before ++ opening :: front ++ closing :: after) before.length false =
      some (before.length + front.length + 2) := by
  have skipped : (opening :: (front ++ closing :: after)).takeWhile Inner = opening :: front := by
    rw [takeWhile_cons_of_pos (by simp [Inner,opens]),takeWhile_append_of_pos inside,
      takeWhile_cons_of_neg (by simp [Inner,closes]),append_nil]
  rw [openGroup,if_neg Bool.false_ne_true,append_assoc,drop_left,cons_append,skipped]
  simp only [length_append,length_cons]
  rw [if_pos (by omega)]
  congr 1

/-- From a group that is not selected the loop gets behind its own `}`, over nothing that does anything, if and only
if behind the first `}` inside of it there are only others. -/
theorem openGroup_iff (before body after : List SedCmd) (opening closing : SedCmd) (opens : opening.cmd = 123)
    (closes : closing.cmd = 125) (_nested : Nested body) (old : Bool) (line : Line)
    (unselected : opening.selected old line = false) :
    (∃ place, openGroup (before ++ opening :: body ++ closing :: after) before.length (opening.selected old line) =
      some place ∧ Passes (before ++ opening :: body ++ closing :: after) place (before.length + body.length + 2)) ↔
    ∀ c ∈ body.dropWhile Inner, c.cmd = 125 := by
  have inside : ∀ c ∈ body.takeWhile Inner, Inner c := fun _ => mem_takeWhile_imp
  have whole : body.takeWhile Inner ++ body.dropWhile Inner = body := takeWhile_append_dropWhile
  rw [unselected]
  cases behind : body.dropWhile Inner with
  | nil =>
    rw [behind,append_nil] at whole
    rw [whole] at inside
    rw [openGroup_first before after opens inside closes]
    simp [Passes,drop_take]
  | cons first rest =>
    have ends : first.cmd = 125 := by
      have stops := head_dropWhile_not Inner (l := body) (by simp [behind])
      simpa [behind,Inner] using stops
    rw [behind] at whole
    generalize body.takeWhile Inner = front at *
    subst whole
    have place := openGroup_first before (rest ++ closing :: after) opens inside ends
    have same : before ++ opening :: (front ++ first :: rest) ++ closing :: after =
      (before ++ opening :: front ++ [first]) ++ (rest ++ [closing]) ++ after := by simp
    have drops : ((before ++ opening :: (front ++ first :: rest) ++ closing :: after).take
        (before.length + (front ++ first :: rest).length + 2)).drop (before.length + front.length + 2) =
        rest ++ [closing] := by
      rw [same,take_left' (by simp; omega),drop_left' (by simp; omega)]
    simp only [append_assoc,cons_append] at place drops ⊢
    rw [place]
    simp only [Passes,Option.some.injEq,exists_eq_left',drops]
    simp [or_imp,forall_and,ends,closes]

def plainCmd (cmd : UInt8) : SedCmd := Addresses.all.command false cmd

def secondLine (cmd : UInt8) : SedCmd := (numbered 2 (by decide) (by decide)).command false cmd

/-- The script `2{=;2{p}}` on line 1. -/
theorem openGroup_simple :
    let body := [plainCmd 61,secondLine 123,plainCmd 112,plainCmd 125]
    ∃ place, openGroup ([] ++ secondLine 123 :: body ++ plainCmd 125 :: []) 0
        ((secondLine 123).selected false ⟨1,true,[]⟩) = some place ∧
      Passes ([] ++ secondLine 123 :: body ++ plainCmd 125 :: []) place 6 := by
  have nested : Nested (secondLine 123 :: [plainCmd 112] ++ plainCmd 125 :: []) :=
    .group rfl rfl (.single (by decide) .nil) .nil
  exact (openGroup_iff [] _ [] (secondLine 123) (plainCmd 125) rfl rfl (.single (c := plainCmd 61) (by decide) nested)
    false ⟨1,true,[]⟩ rfl).mpr (by decide)

/-- The script `2{2{p};=}` on line 1: the loop goes on with the command behind the inner `}`. -/
theorem openGroup_nested :
    let body := [secondLine 123,plainCmd 112,plainCmd 125,plainCmd 61]
    Nested body ∧ (secondLine 123).selected false ⟨1,true,[]⟩ = false ∧
      openGroup (secondLine 123 :: body ++ [plainCmd 125]) 0 false = some 4 ∧
      ¬ Passes (secondLine 123 :: body ++ [plainCmd 125]) 4 6 := by
  have inner : Nested [plainCmd 112] := .single (by decide) .nil
  have more : Nested [plainCmd 61] := .single (by decide) .nil
  have nested : Nested (secondLine 123 :: [plainCmd 112] ++ plainCmd 125 :: [plainCmd 61]) := .group rfl rfl inner more
  refine ⟨nested,rfl,rfl,fun passes => ?_⟩
  exact absurd (passes.2 (plainCmd 61) (.head _)) (by decide)

end Run

end Stablebox.Sed
