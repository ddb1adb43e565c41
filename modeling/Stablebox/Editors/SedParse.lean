import Stablebox.Lib.Digits

/-! How `parse_subst_cmd` reads an `s` command: the search for its delimiters, and its flags. -/
namespace Stablebox.Sed

open List Digits

/-! ### The search for a delimiter -/

/-- The loop of `index_of_next_unescaped_regexp_delim`; `before` are the characters read so far, the last one first. -/
def delimLoop (delimiter : Int) (before : List UInt8) : List UInt8 → Int → Bool → Option Nat
  | [],_,_ => none
  | ch :: str,bracket,escaped =>
    let idx : Int := before.length
    if 0 ≤ bracket then
      let first := bracket = idx - 1 ∨ bracket = idx - 2 ∧ before.head? = some 94
      delimLoop delimiter (ch :: before) str (if ch = 93 ∧ ¬ first then -1 else bracket) escaped
    else if escaped then delimLoop delimiter (ch :: before) str bracket false
    else if ch = 92 then delimLoop delimiter (ch :: before) str bracket true
    else if bracket = -1 ∧ ch = 91 then delimLoop delimiter (ch :: before) str idx escaped
    else if ch.toNat = delimiter then some before.length
    else delimLoop delimiter (ch :: before) str bracket escaped

def indexOfNextUnescapedRegexpDelim (delimiter : Int) (str : List UInt8) : Option Nat :=
  if delimiter < 0 then delimLoop (-delimiter) [] str (-2) false else delimLoop delimiter [] str (-1) false

inductive Place where
  | outside
  | escaped
  /-- Behind the `[` of a bracket expression. -/
  | opened
  /-- Behind its `[^`. -/
  | negated
  | listed
  /-- Behind a `[` in the list, which may begin an element. -/
  | inner
  /-- In one of `[:name:]`, `[.x.]` and `[=x=]`. -/
  | element (kind : UInt8)
  /-- In an element, behind its `kind`. -/
  | closing (kind : UInt8)
deriving DecidableEq

namespace Place

def inList (c : UInt8) : Place := if c = 93 then outside else if c = 91 then inner else listed

def next (c : UInt8) : Place → Place
  | outside => if c = 92 then escaped else if c = 91 then opened else outside
  | escaped => outside
  | opened => if c = 94 then negated else if c = 93 then listed else inList c
  | negated => if c = 93 then listed else inList c
  | listed => inList c
  | inner => if c = 58 ∨ c = 46 ∨ c = 61 then element c else inList c
  | element kind => if c = kind then closing kind else element kind
  | closing kind => if c = 93 then listed else if c = kind then closing kind else element kind

def isElement : Place → Bool
  | element _ | closing _ => true
  | _ => false

end Place

def places (place : Place) : List UInt8 → List (Place × UInt8)
  | [] => []
  | c :: str => (place,c) :: places (place.next c) str

/-- A delimiter that is neither escaped nor in a bracket expression. -/
def Delimits (delimiter : UInt8) (spot : Place × UInt8) : Bool := spot = (.outside,delimiter)

/-- A `]` in an element, which the search takes for the end of the bracket expression. -/
def Misread (spot : Place × UInt8) : Bool := spot.1.isElement && spot.2 == 93

/-- A delimiter `[` or backslash does not occur; in front of another one, no `]` in an element is met. -/
def Plain (delimiter : UInt8) (str : List UInt8) : Prop :=
  if delimiter = 91 ∨ delimiter = 92 then ∀ spot ∈ places .outside str, Delimits delimiter spot = false
  else ∀ spot ∈ (places .outside str).takeWhile (!Delimits delimiter ·), Misread spot = false

instance (delimiter : UInt8) (str : List UInt8) : Decidable (Plain delimiter str) :=
  inferInstanceAs (Decidable (ite _ _ _))

/-- The state of the loop behind `before`. -/
def Agrees (before : List UInt8) (bracket : Int) (escaped : Bool) : Place → Prop
  | .outside => bracket = -1 ∧ escaped = false
  | .escaped => bracket = -1 ∧ escaped = true
  | .opened => bracket = before.length - 1 ∧ 0 ≤ bracket ∧ escaped = false
  | .negated => bracket = before.length - 2 ∧ before.head? = some 94 ∧ 0 ≤ bracket ∧ escaped = false
  | .listed | .inner | .element _ | .closing _ =>
    0 ≤ bracket ∧ bracket < before.length - 1 ∧ (bracket = before.length - 2 → before.head? ≠ some 94) ∧ escaped = false

theorem agrees_next (agrees : Agrees before bracket escaped place) (other : Delimits delimiter (place,c) = false)
    (plain : Misread (place,c) = false) :
    ∃ bracket' escaped', Agrees (c :: before) bracket' escaped' (place.next c) ∧ ∀ str,
      delimLoop delimiter.toNat before (c :: str) bracket escaped =
        delimLoop delimiter.toNat (c :: before) str bracket' escaped' := by
  cases place with
  | outside =>
    obtain ⟨rfl,rfl⟩ := agrees
    have differ : ¬ c.toNat = (delimiter.toNat : Int) := by
      rw [Nat.cast_inj,UInt8.toNat_inj]
      simpa [Delimits] using other
    by_cases escape : c = 92
    · exact ⟨-1,true,by simp [Agrees,Place.next,escape],fun str => by simp [delimLoop,escape]⟩
    by_cases opens : c = 91
    · exact ⟨before.length,false,by simp [Agrees,Place.next,opens],fun str => by simp [delimLoop,opens]⟩
    exact ⟨-1,false,by simp [Agrees,Place.next,escape,opens],fun str => by simp [delimLoop,escape,opens,differ]⟩
  | escaped =>
    obtain ⟨rfl,rfl⟩ := agrees
    exact ⟨-1,false,⟨rfl,rfl⟩,fun str => by simp [delimLoop]⟩
  | opened =>
    refine ⟨_,_,?_,fun str => if_pos agrees.2.1⟩
    grind [Agrees,Place.next,Place.inList]
  | negated =>
    refine ⟨_,_,?_,fun str => if_pos agrees.2.2.1⟩
    grind [Agrees,Place.next,Place.inList]
  | listed =>
    refine ⟨_,_,?_,fun str => if_pos agrees.1⟩
    grind [Agrees,Place.next,Place.inList]
  | inner =>
    refine ⟨_,_,?_,fun str => if_pos agrees.1⟩
    grind [Agrees,Place.next,Place.inList]
  | element kind =>
    refine ⟨_,_,?_,fun str => if_pos agrees.1⟩
    grind [Agrees,Place.next,Misread,Place.isElement]
  | closing kind =>
    refine ⟨_,_,?_,fun str => if_pos agrees.1⟩
    grind [Agrees,Place.next,Misread,Place.isElement]

theorem delimLoop_places (ordinary : ¬ (delimiter = 91 ∨ delimiter = 92)) (before str : List UInt8) (bracket : Int)
    (escaped : Bool) (place : Place) (agrees : Agrees before bracket escaped place)
    (plain : ∀ spot ∈ (places place str).takeWhile (!Delimits delimiter ·), Misread spot = false) :
    delimLoop delimiter.toNat before str bracket escaped =
      ((places place str).findIdx? (Delimits delimiter)).map (· + before.length) := by
  induction str generalizing before bracket escaped place with
  | nil => rfl
  | cons c str ih =>
    rw [places,findIdx?_cons]
    cases here : Delimits delimiter (place,c) with
    | true =>
      obtain ⟨rfl,rfl⟩ : place = .outside ∧ c = delimiter := by simpa [Delimits] using here
      obtain ⟨rfl,rfl⟩ := agrees
      obtain ⟨bracket,backslash⟩ := not_or.mp ordinary
      simp [delimLoop,bracket,backslash]
    | false =>
      simp only [places,here,takeWhile_cons,Bool.not_false,if_true,mem_cons,forall_eq_or_imp] at plain
      obtain ⟨bracket',escaped',agrees,step⟩ := agrees_next agrees here plain.1
      rw [step,ih _ _ _ _ agrees plain.2]
      simp [Function.comp_def,Nat.add_comm,Nat.add_left_comm]

/-- The branches in front of the comparison take these characters. -/
theorem delimLoop_special {delimiter : UInt8} (special : delimiter = 91 ∨ delimiter = 92) (before str : List UInt8)
    (bracket : Int)
    (positive : -1 ≤ bracket) (escaped : Bool) : delimLoop delimiter.toNat before str bracket escaped = none := by
  induction str generalizing before bracket escaped with
  | nil => rfl
  | cons c str ih =>
    have differ : ¬ (c = 91 ∨ c = 92) → ¬ c.toNat = (delimiter.toNat : Int) := by
      rw [Nat.cast_inj,UInt8.toNat_inj]
      rintro other rfl
      exact other special
    rw [delimLoop]
    split_ifs
    · exact ih _ _ (by split <;> omega) _
    · exact ih _ _ positive _
    · exact ih _ _ positive _
    · exact ih _ _ (by omega) _
    · grind
    · exact ih _ _ positive _

/-- The elements of a bracket expression are not known to the search, nor are two of the delimiters. -/
theorem indexOfNextUnescapedRegexpDelim_places (delimiter : UInt8) (str : List UInt8) (plain : Plain delimiter str) :
    indexOfNextUnescapedRegexpDelim delimiter.toNat str = (places .outside str).findIdx? (Delimits delimiter) := by
  rw [indexOfNextUnescapedRegexpDelim,if_neg (by omega)]
  unfold Plain at plain
  split at plain
  next special => rw [delimLoop_special special [] str (-1) le_rfl,findIdx?_eq_none_iff.mpr plain]
  next ordinary =>
    rw [delimLoop_places ordinary [] str (-1) false .outside ⟨rfl,rfl⟩ plain]
    simp

/-- The pattern `[]/[]\/` and its delimiter. -/
theorem delimiter_found : indexOfNextUnescapedRegexpDelim 47 [91,93,47,91,93,92,47,47] = some 7 :=
  indexOfNextUnescapedRegexpDelim_places 47 [91,93,47,91,93,92,47,47] (by decide)

/-- The pattern `[[.-.]/]`: the search takes the `]` of the element for the end of the bracket expression. -/
theorem delimiter_in_brackets :
    let str := [91,91,46,45,46,93,47,93,47]
    indexOfNextUnescapedRegexpDelim 47 str = some 6 ∧ (places .outside str).findIdx? (Delimits 47) = some 8 := by
  decide

/-! ### The flags -/

def copyParsingEscapes : List UInt8 → List UInt8
  | 92 :: 110 :: string => 10 :: copyParsingEscapes string
  | 92 :: c :: string => 92 :: c :: copyParsingEscapes string
  | c :: string => c :: copyParsingEscapes string
  | [] => []

def unmatched (delimiter : UInt8) : String := "unmatched '" ++ String.singleton (Char.ofNat delimiter.toNat) ++ "'"

/-- The match string, the replacement and the index of the third delimiter. -/
def parseRegexDelim : List UInt8 → Except String (List UInt8 × List UInt8 × Nat)
  | [] => .error "bad format in substitution expression"
  | delimiter :: cmdstr =>
    match indexOfNextUnescapedRegexpDelim delimiter.toNat cmdstr with
    | none => .error (unmatched delimiter)
    | some idx =>
      let rest := cmdstr.drop (idx + 1)
      match indexOfNextUnescapedRegexpDelim (-delimiter.toNat) rest with
      | none => .error (unmatched delimiter)
      | some last =>
        .ok (copyParsingEscapes (cmdstr.take idx),copyParsingEscapes (rest.take last),idx + 2 + last)

/-- What the flags set: two fields of `sed_cmd_t`, and `REG_ICASE` in `cflags`. -/
structure Subst where
  whichMatch : Nat
  subP : Bool
  icase : Bool
deriving DecidableEq

inductive Parsed where
  /-- The command, and its text from the returned index on. -/
  | done (cmd : Subst) (behind : List UInt8)
  | died (message : String)
  /-- A byte behind the terminating NUL is read. -/
  | beyond
deriving DecidableEq

theorem tail_dropWhile_lt (p : UInt8 → Bool) (c : UInt8) (text : List UInt8) :
    (text.dropWhile p).tail.length < (c :: text).length :=
  Nat.lt_succ_of_le (((tail_sublist _).trans (dropWhile_sublist p)).length_le)

def flagLoop (anchored : Bool) (text : List UInt8) (cmd : Subst) : Parsed :=
  match text with
  | [] => .done cmd []
  | c :: rest =>
    if isDigit 10 c then
      if anchored then flagLoop anchored rest cmd
      else
        -- the loop header steps over the character behind the number
        let behind := rest.dropWhile (isDigit 10)
        if behind = [] then .beyond
        else flagLoop anchored behind.tail { cmd with whichMatch := (strtol 10 text % 65536).toNat }
    else if isSpace c then flagLoop anchored rest cmd
    else if c = 103 then flagLoop anchored rest (if anchored then cmd else { cmd with whichMatch := 0 })
    else if c = 112 then flagLoop anchored rest { cmd with subP := true }
    else if c = 119 then
      -- `parse_file_cmd` starts at the `w` and stops at the end of the line
      let behind := rest.dropWhile (· ≠ 10)
      if behind = [] then .beyond else flagLoop anchored behind.tail cmd
    else if c = 73 then flagLoop anchored rest { cmd with icase := true }
    else if c = 35 then .done cmd []
    else if c = 59 ∨ c = 125 then .done cmd text
    else .died "bad option in substitution expression"
termination_by text.length
decreasing_by all_goals first | exact Nat.lt_succ_self _ | exact tail_dropWhile_lt _ _ _

def parseSubstCmd (substr : List UInt8) : Parsed :=
  match parseRegexDelim substr with
  | .error message => .died message
  | .ok (pattern,_,idx) => flagLoop (pattern.head? == some 94) (substr.drop (idx + 1)) ⟨1,false,false⟩

inductive Flag where
  | all
  | print
  | icase
  | number (digits : List Nat) (some : digits ≠ []) (small : ∀ digit ∈ digits, digit < 10)
  | space (c : UInt8) (blank : isSpace c)

namespace Flag

def text : Flag → List UInt8
  | all => [103]
  | print => [112]
  | icase => [73]
  | number digits _ _ => digits.map ascii
  | space c _ => [c]

def which : Flag → Option Nat
  | all => some 0
  | number digits _ _ => some (parse 10 digits)
  | _ => none

def set (cmd : Subst) : Flag → Subst
  | all => { cmd with whichMatch := 0 }
  | print => { cmd with subP := true }
  | icase => { cmd with icase := true }
  | number digits _ _ => { cmd with whichMatch := parse 10 digits }
  | space _ _ => cmd

theorem foldl_set (flags : List Flag) (cmd : Subst) :
    ((flags.foldl set cmd).subP ↔ cmd.subP ∨ print ∈ flags) ∧
      ((flags.foldl set cmd).icase ↔ cmd.icase ∨ icase ∈ flags) ∧
      (flags.foldl set cmd).whichMatch = (flags.reverse.findSome? which).getD cmd.whichMatch := by
  induction flags generalizing cmd with
  | nil => simp
  | cons flag flags ih =>
    obtain ⟨subP,icase,value⟩ := ih (set cmd flag)
    rw [foldl_cons,subP,icase,value]
    cases flag <;> simp [set,which]

end Flag

/-- Every number fits into an `unsigned short` and has a space behind it. -/
def Spaced : List Flag → Prop
  | .number digits _ _ :: .space _ _ :: flags => parse 10 digits < 65536 ∧ Spaced flags
  | .number _ _ _ :: _ => False
  | _ :: flags => Spaced flags
  | [] => True

def FlagsEnd (text : List UInt8) : Prop := ∀ c, text.head? = some c → c = 59 ∨ c = 125 ∨ c = 35

theorem space_not_digit (blank : isSpace c) : isDigit 10 c = false := by
  simp [isSpace,isDigit,UInt8.le_iff_toNat_le,← UInt8.toNat_inj] at blank ⊢
  omega

theorem flagLoop_spaced (flags : List Flag) (spaced : Spaced flags) (ending : List UInt8) (cmd : Subst) :
    flagLoop false (flags.flatMap Flag.text ++ ending) cmd = flagLoop false ending (flags.foldl Flag.set cmd) := by
  fun_induction Spaced flags generalizing cmd with
  | case1 digits nonempty small c blank flags ih =>
    have ends (other : UInt8) (first : (c :: (flags.flatMap Flag.text ++ ending)).head? = some other) :
        isDigit 10 other = false := by
      cases first
      exact space_not_digit blank
    have value := strtol_digits le_rfl nonempty small _ ends (by omega)
    have all := small
    obtain ⟨digit,digits,rfl⟩ := exists_cons_of_ne_nil nonempty
    rw [forall_mem_cons] at all
    have behind := (takeWhile_digits le_rfl all.2 ends).2
    rw [foldl_cons,foldl_cons,Flag.set,Flag.set,← ih spaced.2]
    simp only [flatMap_cons,Flag.text,map_cons,cons_append,nil_append,append_assoc] at value ⊢
    rw [flagLoop,if_pos (isDigit_ascii all.1 le_rfl),if_neg Bool.false_ne_true]
    simp only [behind]
    rw [if_neg (cons_ne_nil _ _),value,tail_cons,Int.emod_eq_of_lt (by omega) (by omega),Int.toNat_natCast]
  | case2 => exact spaced.elim
  | case3 flag flags _ notNumber ih =>
    rw [flatMap_cons,append_assoc,foldl_cons,← ih spaced]
    cases flag with
    | number digits nonempty small => exact absurd rfl (notNumber digits nonempty small)
    | space c blank =>
      have := space_not_digit blank
      simp [Flag.text,Flag.set,flagLoop,blank,this]
    | _ => simp [Flag.text,Flag.set,flagLoop,isDigit,isSpace]
  | case4 => rfl

/-- Flags behind a number are lost, so that one needs a space behind it. -/
theorem parseSubstCmd_flags (substr ending : List UInt8) (flags : List Flag) {pattern replace : List UInt8} {idx : Nat}
    (delimited : parseRegexDelim substr = .ok (pattern,replace,idx)) (plain : pattern.head? ≠ some 94)
    (text : substr.drop (idx + 1) = flags.flatMap Flag.text ++ ending) (ends : FlagsEnd ending)
    (spaced : Spaced flags) :
    ∃ cmd behind, parseSubstCmd substr = .done cmd behind ∧ (cmd.subP ↔ .print ∈ flags) ∧
      (cmd.icase ↔ .icase ∈ flags) ∧ cmd.whichMatch = (flags.reverse.findSome? Flag.which).getD 1 := by
  have stops (cmd : Subst) : ∃ behind, flagLoop false ending cmd = .done cmd behind := by
    cases ending with
    | nil => exact ⟨_,by rw [flagLoop]⟩
    | cons c more => rcases ends c rfl with rfl | rfl | rfl <;> simp [flagLoop,isDigit,isSpace]
  obtain ⟨behind,stopped⟩ := stops (flags.foldl Flag.set ⟨1,false,false⟩)
  refine ⟨_,behind,?_,by simpa using Flag.foldl_set flags ⟨1,false,false⟩⟩
  simp only [parseSubstCmd,delimited,text,beq_false_of_ne plain]
  rw [flagLoop_spaced flags spaced,stopped]

/-- The command `s/a/b/2 p`. -/
theorem parseSubstCmd_print : ∃ cmd behind, parseSubstCmd [47,97,47,98,47,50,32,112] = .done cmd behind ∧ cmd.subP := by
  obtain ⟨cmd,behind,done,subP,_⟩ := parseSubstCmd_flags [47,97,47,98,47,50,32,112] []
    [.number [2] (by decide) (by decide),.space 32 rfl,.print] rfl (by decide) rfl (by simp [FlagsEnd])
      ⟨by decide,trivial⟩
  exact ⟨cmd,behind,done,subP.mpr (by simp)⟩

/-- The commands `s/a/b/2p` and `s/a/b/2`: the flag is lost, and the byte behind the end is read. -/
theorem parseSubstCmd_number :
    parseSubstCmd [47,97,47,98,47,50,112] = .done ⟨2,false,false⟩ [] ∧ parseSubstCmd [47,97,47,98,47,50] = .beyond := by
  have here : parseRegexDelim [47,97,47,98,47,50,112] = .ok ([97],[98],4) := rfl
  have there : parseRegexDelim [47,97,47,98,47,50] = .ok ([97],[98],4) := rfl
  simp [parseSubstCmd,here,there,flagLoop,isDigit,strtol,scan,isSpace,parse]

end Stablebox.Sed
