import Stablebox.Lib.Digits
import Stablebox.Lib.Runs

/-! The comparison of package versions in dpkg.c, and the order of the Debian policy it stands for. -/
namespace Stablebox.Dpkg

open List Runs Digits
open Digits (atoi isDigit parse)

/-! ### The program -/

def strcmp : List UInt8 → List UInt8 → Int
  | [],[] => 0
  | [],_ :: _ => -1
  | _ :: _,[] => 1
  | a :: as,b :: bs => if a < b then -1 else if b < a then 1 else strcmp as bs

/-- The loop of `version_compare_part` from where it has come in both strings.
A number that is no `int` is undefined. -/
def versionCompareLoop : (fuel : Nat) → (version1 version2 : List UInt8) → Option Int
  | 0,_,_ => none
  | fuel + 1,version1,version2 =>
    if version1 = [] ∧ version2 = [] then some 0
    else
      -- compare non-digit section
      let name1 := version1.takeWhile fun c => !isDigit 10 c
      let version1 := version1.drop name1.length
      let name2 := version2.takeWhile fun c => !isDigit 10 c
      let version2 := version2.drop name2.length
      let tmpInt := strcmp name1 name2
      if tmpInt ≠ 0 then some tmpInt
      else
        -- compare digits
        let name1 := version1.takeWhile (isDigit 10)
        let version1 := version1.drop name1.length
        let name2 := version2.takeWhile (isDigit 10)
        let version2 := version2.drop name2.length
        match atoi name1, atoi name2 with
        | some verNum1,some verNum2 =>
          if verNum1 < verNum2 then some (-1)
          else if verNum1 > verNum2 then some 1
          else versionCompareLoop fuel version1 version2
        | _,_ => none

def versionComparePart (version1 version2 : List UInt8) : Option Int :=
  versionCompareLoop (version1.length + version2.length + 1) version1 version2

/-- The epoch and what is behind it. Only one character is looked at; there is none behind an empty string. -/
def splitEpoch (version : List UInt8) : Option (UInt8 × List UInt8) :=
  match version with
  | [] => none
  | epoch :: rest =>
    if rest.head? = some 58 then some (epoch,(version.dropWhile (· ≠ 58)).drop 1) else some (48,version)

def chop (version : List UInt8) : List UInt8 × Option (List UInt8) :=
  if 45 ∈ version then
    ((version.reverse.dropWhile (· ≠ 45)).tail.reverse,some (version.reverse.takeWhile (· ≠ 45)).reverse)
  else (version,none)

/-- `version_compare`. The strings with the Debian versions are freed before these are compared. -/
def versionCompare (ver1 ver2 : List UInt8) : Option Int :=
  match splitEpoch ver1, splitEpoch ver2 with
  | some (epoch1,upstream1),some (epoch2,upstream2) =>
    if epoch1 < epoch2 then some (-1)
    else if epoch1 > epoch2 then some 1
    else
      let (upstream1,debVer1) := chop upstream1
      let (upstream2,debVer2) := chop upstream2
      match versionComparePart upstream1 upstream2 with
      | none => none
      | some result =>
        if result ≠ 0 then some result
        else
          match debVer1, debVer2 with
          | none,none => versionComparePart [] []
          | _,_ => none
  | _,_ => none

/-! ### The policy -/

def isLetter (c : UInt8) : Bool := (65 ≤ c && c ≤ 90) || (97 ≤ c && c ≤ 122)

/-- Letters sort before other characters, and the tilde before everything, even the end of a part. -/
def weight (c : UInt8) : Int := if c = 126 then -1 else if isLetter c then c.toNat else c.toNat + 256

def policyText : List UInt8 → List UInt8 → Ordering
  | [],[] => .eq
  | [],b :: _ => compare 0 (weight b)
  | a :: _,[] => compare (weight a) 0
  | a :: as,b :: bs => (compare (weight a) (weight b)).then (policyText as bs)

def number (digits : List UInt8) : Nat := parse 10 (digits.map fun c => c.toNat - 48)

abbrev Run := List UInt8 × List UInt8

/-- The order of two parts, by their runs side by side. -/
def policyRuns : List (Run × Run) → Ordering
  | [] => .eq
  | ((text1,digits1),(text2,digits2)) :: rest =>
    (policyText text1 text2).then ((compare (number digits1) (number digits2)).then (policyRuns rest))

def sideBySide (part1 part2 : List UInt8) : List (Run × Run) :=
  zipPad ([],[]) (runs (isDigit 10) part1) (runs (isDigit 10) part2)

def policyPart (part1 part2 : List UInt8) : Ordering := policyRuns (sideBySide part1 part2)

example : policyPart [97,126] [97] = .lt ∧ policyPart [49,46,48] [49,46,48,48] = .eq := by decide

def Plain (c : UInt8) : Prop := isDigit 10 c ∨ isLetter c ∨ c = 46 ∨ c = 43 ∨ c = 126

instance (c : UInt8) : Decidable (Plain c) := inferInstanceAs (Decidable (_ ∨ _))

/-- A version `[epoch:]upstream[-revision]`. -/
structure Version where
  epoch : Option (List UInt8)
  upstream : List UInt8
  revision : Option (List UInt8)
  epochDigits : ∀ digits ∈ epoch, digits ≠ [] ∧ ∀ c ∈ digits, isDigit 10 c
  nonempty : upstream ≠ []
  upstreamPlain : ∀ c ∈ upstream, Plain c
  revisionPlain : ∀ text ∈ revision, ∀ c ∈ text, Plain c

namespace Version

def revisionText (version : Version) : List UInt8 :=
  match version.revision with
  | none => []
  | some revision => 45 :: revision

def text (version : Version) : List UInt8 :=
  (match version.epoch with
    | none => []
    | some digits => digits ++ [58]) ++ (version.upstream ++ version.revisionText)

def epochNumber (version : Version) : Nat := number (version.epoch.getD [])

end Version

/-- Epochs as numbers, then the upstream versions, then the revisions. -/
def policyOrder (a b : Version) : Ordering :=
  (compare a.epochNumber b.epochNumber).then ((policyPart a.upstream b.upstream).then
    (policyPart (a.revision.getD []) (b.revision.getD [])))

def sign (result : Int) : Ordering := compare result 0

/-! ### A part -/

theorem strcmp_eq_zero_iff (a b : List UInt8) : strcmp a b = 0 ↔ a = b := by
  induction a generalizing b with
  | nil => cases b <;> simp [strcmp]
  | cons x a ih =>
    cases b with
    | nil => simp [strcmp]
    | cons y b =>
      simp only [strcmp,UInt8.lt_iff_toNat_lt,cons.injEq,← UInt8.toNat_inj]
      split
      · omega
      split
      · omega
      · have same : x.toNat = y.toNat := by omega
        simp [ih,same]

theorem atoi_number (all : ∀ c ∈ digits, isDigit 10 c) :
    atoi digits = if number digits < 2 ^ 31 then some (number digits : Int) else none := by
  have value (c : UInt8) (digit : isDigit 10 c) : ascii (c.toNat - 48) = c := by
    simp only [isDigit,Bool.and_eq_true,decide_eq_true_eq] at digit
    apply UInt8.toNat_inj.mp
    rw [toNat_ascii (by omega)]
    omega
  have back : (digits.map fun c => c.toNat - 48).map ascii = digits := by
    rw [map_map]
    conv_rhs => rw [← map_id digits]
    exact map_congr_left fun c listed => value c (all c listed)
  have small : ∀ digit ∈ digits.map fun c => c.toNat - 48, digit < 10 := by
    intro digit listed
    obtain ⟨c,there,rfl⟩ := mem_map.mp listed
    have := all c there
    simp only [isDigit,Bool.and_eq_true,decide_eq_true_eq] at this
    omega
  cases digits with
  | nil => rfl
  | cons c digits =>
    have read := atoi_digits (by simp) small [] (by simp)
    rwa [append_nil,back] at read

/-- What the loop makes of the runs of both parts: it stops at the first difference, and at a number that is no
`int`. -/
def codeRuns : List (Run × Run) → Option Ordering
  | [] => some .eq
  | ((text1,digits1),(text2,digits2)) :: rest =>
    if text1 = text2 then
      if number digits1 < 2 ^ 31 ∧ number digits2 < 2 ^ 31 then
        if number digits1 = number digits2 then codeRuns rest else some (compare (number digits1) (number digits2))
      else none
    else some (sign (strcmp text1 text2))

variable {text1 text2 : List UInt8}

theorem turn_runs (all1 : ∀ c ∈ digits1, isDigit 10 c) (all2 : ∀ c ∈ digits2, isDigit 10 c)
    (next : later.map sign = codeRuns rest) :
    (if strcmp text1 text2 ≠ 0 then some (strcmp text1 text2)
      else
        match atoi digits1,atoi digits2 with
        | some verNum1,some verNum2 =>
          if verNum1 < verNum2 then some (-1) else if verNum1 > verNum2 then some 1 else later
        | _,_ => none).map sign = codeRuns (((text1,digits1),(text2,digits2)) :: rest) := by
  rw [codeRuns,atoi_number all1,atoi_number all2]
  generalize number digits1 = n1
  generalize number digits2 = n2
  simp only [ne_eq,strcmp_eq_zero_iff,ite_not]
  by_cases same : text1 = text2
  · by_cases fits1 : n1 < 2 ^ 31
    · by_cases fits2 : n2 < 2 ^ 31
      · simp only [same,fits1,fits2,and_self,if_true,Int.ofNat_lt,gt_iff_lt]
        rcases lt_trichotomy n1 n2 with less | equal | more
        · rw [if_pos less,if_neg (ne_of_lt less),Nat.compare_eq_lt.mpr less]
          rfl
        · rw [if_neg (by omega),if_neg (by omega),if_pos equal,next]
        · rw [if_neg (by omega),if_pos more,if_neg (by omega),Nat.compare_eq_gt.mpr more]
          rfl
      · simp only [same,fits1,fits2,and_false,if_true,if_false,Option.map_none]
    · simp only [same,fits1,false_and,if_true,if_false,Option.map_none]
  · simp [same]

theorem versionCompareLoop_runs (fuel : Nat) (part1 part2 : List UInt8) (enough : part1.length + part2.length < fuel) :
    (versionCompareLoop fuel part1 part2).map sign = codeRuns (sideBySide part1 part2) := by
  induction fuel generalizing part1 part2 with
  | zero => omega
  | succ fuel ih =>
    rw [versionCompareLoop]
    by_cases empty : part1 = [] ∧ part2 = []
    · obtain ⟨rfl,rfl⟩ := empty
      rfl
    have front : sideBySide part1 part2 = (first (isDigit 10) part1,first (isDigit 10) part2) ::
        sideBySide (behind (isDigit 10) part1) (behind (isDigit 10) part2) := zipPad_runs empty
    have shorter : (behind (isDigit 10) part1).length + (behind (isDigit 10) part2).length < fuel := by
      have less1 := length_behind_le (isDigit 10) part1
      have less2 := length_behind_le (isDigit 10) part2
      by_cases empty1 : part1 = []
      · have := length_behind (isDigit 10) fun empty2 => empty ⟨empty1,empty2⟩
        omega
      · have := length_behind (isDigit 10) empty1
        omega
    have digits (part : List UInt8) : ∀ c ∈ (first (isDigit 10) part).2, isDigit 10 c := fun c listed =>
      mem_takeWhile_imp listed
    rw [front,if_neg empty]
    simp only [drop_takeWhile]
    exact turn_runs (digits part1) (digits part2) (ih _ _ shorter)

theorem versionComparePart_runs (part1 part2 : List UInt8) :
    (versionComparePart part1 part2).map sign = codeRuns (sideBySide part1 part2) :=
  versionCompareLoop_runs _ part1 part2 (Nat.lt_succ_self _)

/-! ### Where the orders of a part agree -/

/-- At their first difference the texts have two letters, two other characters, or the end of one: no tilde, and no
letter against a character that is none. -/
def SameSide : List UInt8 → List UInt8 → Prop
  | [],[] => True
  | [],b :: _ => b ≠ 126
  | a :: _,[] => a ≠ 126
  | a :: as,b :: bs => if a = b then SameSide as bs else a ≠ 126 ∧ b ≠ 126 ∧ isLetter a = isLetter b

/-- Up to the first difference every number is an `int`, and a difference of texts is of the kind above. -/
def Agreeable : List (Run × Run) → Prop
  | [] => True
  | ((text1,digits1),(text2,digits2)) :: rest =>
    if text1 = text2 then
      number digits1 < 2 ^ 31 ∧ number digits2 < 2 ^ 31 ∧ (number digits1 = number digits2 → Agreeable rest)
    else SameSide text1 text2

def Textual (c : UInt8) : Prop := isLetter c ∨ c = 46 ∨ c = 43 ∨ c = 126

instance (c : UInt8) : Decidable (Textual c) := inferInstanceAs (Decidable (_ ∨ _))

theorem isLetter_iff (c : UInt8) : isLetter c ↔ 65 ≤ c.toNat ∧ c.toNat ≤ 90 ∨ 97 ≤ c.toNat ∧ c.toNat ≤ 122 := by
  simp [isLetter,UInt8.le_iff_toNat_le]

theorem sign_strcmp_cons (as bs : List UInt8) (different : a ≠ b) :
    sign (strcmp (a :: as) (b :: bs)) = compare a.toNat b.toNat := by
  have distinct : a.toNat ≠ b.toNat := fun same => different (UInt8.toNat_inj.mp same)
  simp only [strcmp,UInt8.lt_iff_toNat_lt]
  rcases lt_or_gt_of_ne distinct with less | more
  · rw [if_pos less,Nat.compare_eq_lt.mpr less]
    rfl
  · rw [if_neg (by omega),if_pos more,Nat.compare_eq_gt.mpr more]
    rfl

theorem ne_tilde_iff (c : UInt8) : c ≠ 126 ↔ c.toNat ≠ 126 := not_congr UInt8.toNat_inj.symm

variable {c : UInt8}

theorem weight_cases (textual : Textual c) :
    c.toNat = 126 ∧ isLetter c = false ∧ weight c = -1 ∨
      65 ≤ c.toNat ∧ c.toNat ≤ 122 ∧ isLetter c = true ∧ weight c = c.toNat ∨
      c.toNat < 65 ∧ isLetter c = false ∧ weight c = c.toNat + 256 := by
  rcases textual with letter | rfl | rfl | rfl
  · have bounds := (isLetter_iff c).mp letter
    have other : c ≠ 126 := (ne_tilde_iff c).mpr (by omega)
    exact .inr (.inl ⟨by omega,by omega,letter,by rw [weight,if_neg other,if_pos letter]⟩)
  · exact .inr (.inr (by decide))
  · exact .inr (.inr (by decide))
  · exact .inl (by decide)

theorem compare_weight (left : Textual a) (right : Textual b) (different : a ≠ b) :
    weight a ≠ weight b ∧
      (compare a.toNat b.toNat = compare (weight a) (weight b) ↔ a ≠ 126 ∧ b ≠ 126 ∧ isLetter a = isLetter b) := by
  have distinct : a.toNat ≠ b.toNat := fun same => different (UInt8.toNat_inj.mp same)
  have weights : weight a ≠ weight b ∧
      ((a.toNat < b.toNat ↔ weight a < weight b) ↔ a ≠ 126 ∧ b ≠ 126 ∧ isLetter a = isLetter b) := by
    rw [ne_tilde_iff,ne_tilde_iff]
    rcases weight_cases left with ⟨_,classA,ofA⟩ | ⟨_,_,classA,ofA⟩ | ⟨_,classA,ofA⟩ <;>
      rcases weight_cases right with ⟨_,classB,ofB⟩ | ⟨_,_,classB,ofB⟩ | ⟨_,classB,ofB⟩ <;>
      simp only [ofA,ofB,classA,classB,and_true,and_false,Bool.false_eq_true,Bool.true_eq_false,iff_false] <;> omega
  refine ⟨weights.1,Iff.trans ?_ weights.2⟩
  rcases lt_or_gt_of_ne distinct with less | more
  · rw [Nat.compare_eq_lt.mpr less,eq_comm,compare_lt_iff_lt]
    simp [less]
  · rw [Nat.compare_eq_gt.mpr more,eq_comm,compare_gt_iff_gt]
    omega

theorem weight_ne_zero (textual : Textual c) : weight c ≠ 0 := by
  rcases weight_cases textual with ⟨_,_,weighs⟩ | ⟨_,_,_,weighs⟩ | ⟨_,_,weighs⟩ <;> omega

theorem weight_pos_iff (textual : Textual c) : 0 < weight c ↔ c ≠ 126 := by
  rw [ne_tilde_iff]
  rcases weight_cases textual with ⟨_,_,weighs⟩ | ⟨_,_,_,weighs⟩ | ⟨_,_,weighs⟩ <;> omega

theorem policyText_eq (left : ∀ c ∈ text1, Textual c) (right : ∀ c ∈ text2, Textual c) :
    policyText text1 text2 = .eq ↔ text1 = text2 := by
  induction text1 generalizing text2 with
  | nil =>
    cases text2 with
    | nil => simp [policyText]
    | cons b text2 => simp [policyText,(weight_ne_zero (right b mem_cons_self)).symm]
  | cons a text1 ih =>
    cases text2 with
    | nil => simp [policyText,weight_ne_zero (left a mem_cons_self)]
    | cons b text2 =>
      have rest := ih (forall_mem_cons.mp left).2
        (forall_mem_cons.mp right).2
      rw [policyText,Ordering.then_eq_eq,compare_eq_iff_eq,rest,cons.injEq]
      by_cases same : a = b
      · simp [same]
      · have := (compare_weight (left a (.head _)) (right b (.head _)) same).1
        simp [same,this]

theorem then_of_ne {first : Ordering} (decided : first ≠ .eq) (next : Ordering) : first.then next = first := by
  cases first <;> first | rfl | exact absurd rfl decided

theorem sign_strcmp_iff (left : ∀ c ∈ text1, Textual c) (right : ∀ c ∈ text2, Textual c)
    (different : text1 ≠ text2) : sign (strcmp text1 text2) = policyText text1 text2 ↔ SameSide text1 text2 := by
  induction text1 generalizing text2 with
  | nil =>
    cases text2 with
    | nil => exact absurd rfl different
    | cons b text2 =>
      rw [policyText,SameSide,show sign (strcmp [] (b :: text2)) = .lt from rfl,eq_comm,compare_lt_iff_lt]
      exact weight_pos_iff (right b (.head _))
  | cons a text1 ih =>
    cases text2 with
    | nil =>
      rw [policyText,SameSide,show sign (strcmp (a :: text1) []) = .gt from rfl,eq_comm,compare_gt_iff_gt]
      exact weight_pos_iff (left a (.head _))
    | cons b text2 =>
      rw [policyText,SameSide]
      by_cases same : a = b
      · subst same
        have rest := ih (forall_mem_cons.mp left).2
          (fun c listed => right c (mem_cons_of_mem a listed)) fun equal => different (by rw [equal])
        rw [if_pos rfl,compare_eq_iff_eq.mpr rfl,Ordering.eq_then,← rest,strcmp]
        simp
      · obtain ⟨weights,orders⟩ := compare_weight (left a (.head _)) (right b (.head _)) same
        rw [if_neg same,sign_strcmp_cons _ _ same,then_of_ne (fun equal => weights (compare_eq_iff_eq.mp equal)),orders]

def TextualRuns (pairs : List (Run × Run)) : Prop :=
  ∀ pair ∈ pairs, (∀ c ∈ pair.1.1, Textual c) ∧ ∀ c ∈ pair.2.1, Textual c

theorem codeRuns_agreeable {pairs : List (Run × Run)} (textual : TextualRuns pairs) :
    (Agreeable pairs → codeRuns pairs = some (policyRuns pairs)) ∧
      (¬Agreeable pairs → codeRuns pairs = none ∨ policyRuns pairs ≠ .eq ∧
        codeRuns pairs ≠ some (policyRuns pairs)) := by
  induction pairs with
  | nil => exact ⟨fun _ => rfl,fun not => absurd trivial not⟩
  | cons pair rest ih =>
    obtain ⟨⟨text1,digits1⟩,⟨text2,digits2⟩⟩ := pair
    obtain ⟨left,right⟩ := textual _ (.head _)
    rw [Agreeable,codeRuns,policyRuns]
    by_cases same : text1 = text2
    · rw [if_pos same,if_pos same,(policyText_eq left right).mpr same,Ordering.eq_then]
      by_cases fits : number digits1 < 2 ^ 31 ∧ number digits2 < 2 ^ 31
      · rw [if_pos fits]
        by_cases equal : number digits1 = number digits2
        · obtain ⟨yes,no⟩ := ih (forall_mem_cons.mp textual).2
          rw [if_pos equal,compare_eq_iff_eq.mpr equal,Ordering.eq_then]
          exact ⟨fun agreeable => yes (agreeable.2.2 equal),
            fun not => no fun agreeable => not ⟨fits.1,fits.2,fun _ => agreeable⟩⟩
        · rw [if_neg equal,then_of_ne fun compared => equal (compare_eq_iff_eq.mp compared)]
          exact ⟨fun _ => rfl,fun not => absurd ⟨fits.1,fits.2,fun same => absurd same equal⟩ not⟩
      · exact ⟨fun agreeable => absurd ⟨agreeable.1,agreeable.2.1⟩ fits,fun _ => .inl (if_neg fits)⟩
    · have decided : policyText text1 text2 ≠ .eq := fun equal => same ((policyText_eq left right).mp equal)
      have agree := sign_strcmp_iff left right same
      rw [if_neg same,if_neg same,then_of_ne decided]
      exact ⟨fun side => congrArg some (agree.mpr side),
        fun not => .inr ⟨decided,fun equal => not (agree.mp (Option.some.inj equal))⟩⟩

theorem textualRuns_sideBySide (left : ∀ c ∈ part1, Plain c) (right : ∀ c ∈ part2, Plain c) :
    TextualRuns (sideBySide part1 part2) := by
  have textual {part : List UInt8} (plain : ∀ c ∈ part, Plain c) {run : Run}
      (listed : run = ([],[]) ∨ run ∈ runs (isDigit 10) part) : ∀ c ∈ run.1, Textual c := by
    intro c there
    rcases listed with rfl | listed
    · cases there
    obtain ⟨known,outside⟩ := mem_runs listed c there
    rcases plain c known with digit | others
    · cases outside.symm.trans digit
    · exact others
  intro pair listed
  obtain ⟨first,second⟩ := mem_zipPad listed
  exact ⟨textual left first,textual right second⟩

/-! ### What the program makes of a version -/

theorem isDigit_ne_colon (digit : isDigit 10 c) : c ≠ 58 := by
  rintro rfl
  cases digit

theorem plain_ne_colon (plain : Plain c) : c ≠ 58 := by
  rintro rfl
  revert plain
  decide

theorem plain_ne_dash (plain : Plain c) : c ≠ 45 := by
  rintro rfl
  revert plain
  decide

namespace Version

def long (version : Version) : Bool :=
  match version.epoch with
  | some (_ :: _ :: _) => true
  | _ => false

def lead (version : Version) : UInt8 :=
  match version.epoch with
  | some [digit] => digit
  | _ => 48

def base (version : Version) : List UInt8 :=
  match version.epoch with
  | some (digit :: digit' :: digits) => digit :: digit' :: digits ++ 58 :: version.upstream
  | _ => version.upstream

theorem splitEpoch_text (version : Version) :
    splitEpoch version.text = some (version.lead,version.base ++ version.revisionText) := by
  match kind : version.epoch with
  | none =>
    have second : (version.upstream ++ version.revisionText).tail.head? ≠ some 58 := by
      have plain := version.upstreamPlain
      match front : version.upstream with
      | [] => exact absurd front version.nonempty
      | [c] =>
        cases revision : version.revision <;> simp [revisionText,revision]
      | c :: c' :: rest =>
        rw [front] at plain
        simpa using plain_ne_colon (plain c' (by simp))
    obtain ⟨c,rest,front⟩ := exists_cons_of_ne_nil version.nonempty
    rw [front,cons_append,tail_cons] at second
    simp only [text,lead,base,kind,front,nil_append,cons_append,splitEpoch]
    rw [if_neg second]
  | some [] => exact absurd rfl (version.epochDigits [] kind).1
  | some [digit] =>
    have known := isDigit_ne_colon ((version.epochDigits [digit] kind).2 digit (by simp))
    simp [text,lead,base,kind,splitEpoch,known]
  | some (digit :: digit' :: digits) =>
    have known := isDigit_ne_colon ((version.epochDigits _ kind).2 digit' (by simp))
    simp [text,lead,base,kind,splitEpoch,known]

theorem dash_not_mem_base (version : Version) : 45 ∉ version.base := by
  have upstream : 45 ∉ version.upstream := fun listed => plain_ne_dash (version.upstreamPlain 45 listed) rfl
  match kind : version.epoch with
  | none => simpa [base,kind] using upstream
  | some [] => simpa [base,kind] using upstream
  | some [digit] => simpa [base,kind] using upstream
  | some (digit :: digit' :: digits) =>
    have known : 45 ∉ digit :: digit' :: digits := fun listed =>
      absurd ((version.epochDigits _ kind).2 45 listed) (by decide)
    simp only [base,kind,mem_append,not_or]
    exact ⟨known,fun listed => upstream (by simpa using listed)⟩

theorem chop_text (version : Version) :
    chop (version.base ++ version.revisionText) = (version.base,version.revision) := by
  match kind : version.revision with
  | none =>
    rw [revisionText,kind,append_nil,chop,if_neg version.dash_not_mem_base]
  | some revision =>
    have hyphenless : ∀ c ∈ revision.reverse, c ≠ 45 := fun c listed =>
      plain_ne_dash (version.revisionPlain revision kind c (mem_reverse.mp listed))
    rw [revisionText,kind,chop,if_pos (by simp),reverse_append,reverse_cons,append_assoc]
    rw [takeWhile_append_of_pos (by simpa using hyphenless),dropWhile_append_of_pos (by simpa using hyphenless)]
    simp

end Version

/-- Equal upstream versions are an answer only if both versions end there. -/
def answer (bare : Prop) [Decidable bare] : Ordering → Option Ordering
  | .eq => if bare then some .eq else none
  | order => some order

theorem answer_of_ne [Decidable bare] (decided : order ≠ .eq) : answer bare order = some order := by
  cases order <;> first | rfl | exact absurd rfl decided

theorem eq_of_answer [Decidable bare] (answered : answer bare order = some result) :
    order = result := by
  cases order with
  | eq =>
    rw [answer] at answered
    split at answered
    · exact Option.some.inj answered
    · cases answered
  | lt => exact Option.some.inj answered
  | gt => exact Option.some.inj answered

theorem versionCompare_text (a b : Version) :
    (versionCompare a.text b.text).map sign =
      if a.lead < b.lead then some .lt else if b.lead < a.lead then some .gt
      else (codeRuns (sideBySide a.base b.base)).bind (answer (a.revision = none ∧ b.revision = none)) := by
  rw [versionCompare,a.splitEpoch_text,b.splitEpoch_text]
  dsimp only
  split_ifs
  · rfl
  · rfl
  rw [a.chop_text,b.chop_text,← versionComparePart_runs]
  cases compared : versionComparePart a.base b.base with
  | none => rfl
  | some result =>
    simp only [Option.map_some,Option.bind_some]
    by_cases zero : result = 0
    · subst zero
      cases a.revision <;> cases b.revision <;> rfl
    · rw [if_pos zero,Option.map_some,answer_of_ne (fun equal : sign result = .eq => zero (compare_eq_iff_eq.mp equal))]

/-! ### Where the orders of two versions agree -/

/-- The upstream versions are comparable, and decide unless there are no revisions. -/
def Comparable (a b : Version) : Prop :=
  Agreeable (sideBySide a.upstream b.upstream) ∧
    (policyPart a.upstream b.upstream = .eq → a.revision = none ∧ b.revision = none)

def front (upstream : List UInt8) : List UInt8 := upstream.takeWhile (isDigit 10)

def behindFront (upstream : List UInt8) : List UInt8 := upstream.dropWhile (isDigit 10)

/-- A long epoch, taken for the first number of an upstream version, sorts before the other upstream version. -/
def Below (epoch : Nat) (upstream : List UInt8) : Prop :=
  front upstream = [] ∨
    epoch < 2 ^ 31 ∧ number (front upstream) < 2 ^ 31 ∧
      (epoch < number (front upstream) ∨
        epoch = number (front upstream) ∧ ∃ c ∈ (behindFront upstream).head?, isLetter c ∨ c = 126)

def Above (epoch : Nat) (upstream : List UInt8) : Prop :=
  front upstream ≠ [] ∧ epoch < 2 ^ 31 ∧ number (front upstream) < 2 ^ 31 ∧
    (number (front upstream) < epoch ∨
      epoch = number (front upstream) ∧ ∀ c ∈ (behindFront upstream).head?, c = 46 ∨ c = 43)

/-- The order of a version with a long epoch and one without comes out by chance. -/
def Lucky (long short : Version) (order : Ordering) : Prop :=
  if 0 < short.epochNumber then order = .lt
  else order = .gt ∧ Above long.epochNumber short.upstream ∨ order = .lt ∧ Below long.epochNumber short.upstream

/-- The condition on two versions under which the program keeps to the policy. -/
def Faithful (a b : Version) : Prop :=
  match a.long, b.long with
  | false,false => a.epochNumber = b.epochNumber → Comparable a b
  | true,true =>
    a.epochNumber < 2 ^ 31 ∧ b.epochNumber < 2 ^ 31 ∧ (a.epochNumber = b.epochNumber → Comparable a b)
  | true,false => Lucky a b (policyOrder a b)
  | false,true => Lucky b a (policyOrder a b).swap

theorem comparable_iff (a b : Version) :
    (codeRuns (sideBySide a.upstream b.upstream)).bind (answer (a.revision = none ∧ b.revision = none)) =
      some ((policyPart a.upstream b.upstream).then (policyPart (a.revision.getD []) (b.revision.getD []))) ↔
      Comparable a b := by
  have textual := textualRuns_sideBySide a.upstreamPlain b.upstreamPlain
  rw [Comparable,policyPart]
  by_cases agreeable : Agreeable (sideBySide a.upstream b.upstream)
  · rw [(codeRuns_agreeable textual).1 agreeable,Option.bind_some,and_iff_right agreeable]
    by_cases equal : policyRuns (sideBySide a.upstream b.upstream) = .eq
    · rw [equal,Ordering.eq_then,answer]
      split_ifs with bare
      · rw [bare.1,bare.2]
        simp [policyPart,sideBySide,runs,zipPad,policyRuns]
      · simp [bare]
    · rw [answer_of_ne equal,then_of_ne equal]
      simp [equal]
  · refine iff_of_false ?_ fun both => agreeable both.1
    rcases (codeRuns_agreeable textual).2 agreeable with undefined | ⟨decided,other⟩
    · rw [undefined]
      simp
    · rw [then_of_ne decided]
      intro same
      obtain ⟨order,compared,answered⟩ := Option.bind_eq_some_iff.mp same
      exact other (eq_of_answer answered ▸ compared)

theorem codeRuns_long (some1 : digits1 ≠ []) (some2 : digits2 ≠ []) (all1 : ∀ c ∈ digits1, isDigit 10 c)
    (all2 : ∀ c ∈ digits2, isDigit 10 c) (nonempty : upstream1 ≠ []) :
    codeRuns (sideBySide (digits1 ++ 58 :: upstream1) (digits2 ++ 58 :: upstream2)) =
      if number digits1 < 2 ^ 31 ∧ number digits2 < 2 ^ 31 then
        if number digits1 = number digits2 then codeRuns (sideBySide upstream1 upstream2)
        else some (compare (number digits1) (number digits2))
      else none := by
  have colon : isDigit 10 58 = false := rfl
  have after : codeRuns (sideBySide (58 :: upstream1) (58 :: upstream2)) =
      codeRuns (sideBySide upstream1 upstream2) := by
    rw [sideBySide,zipPad_runs (by simp),(first_cons colon upstream1).1,(first_cons colon upstream1).2,
      (first_cons colon upstream2).1,(first_cons colon upstream2).2]
    rw [sideBySide,zipPad_runs fun both => nonempty both.1,codeRuns,codeRuns]
    simp [strcmp]
  rw [sideBySide,zipPad_runs (by simp),(first_append some1 all1 colon).1,(first_append some1 all1 colon).2,
    (first_append some2 all2 colon).1,(first_append some2 all2 colon).2,codeRuns,if_pos rfl,← after]
  rfl

theorem gt_iff (yes : above) (no : ¬below) (order : Ordering) :
    some Ordering.gt = some order ↔ order = .gt ∧ above ∨ order = .lt ∧ below := by
  cases order <;> simp [yes,no]

theorem lt_iff (no : ¬above) (yes : below) (order : Ordering) :
    some Ordering.lt = some order ↔ order = .gt ∧ above ∨ order = .lt ∧ below := by
  cases order <;> simp [yes,no]

theorem not_isDigit_of_textual (textual : Textual c) : isDigit 10 c = false := by
  rcases textual with letter | rfl | rfl | rfl
  · rw [isLetter_iff] at letter
    simp [isDigit]
    omega
  · rfl
  · rfl
  · rfl

theorem codeRuns_colon (upstream : List UInt8) (textual : ∀ c ∈ rest.head?, Textual c) (order : Ordering) :
    codeRuns (sideBySide (58 :: upstream) rest) = some order ↔
      order = .gt ∧ (∀ c ∈ rest.head?, c = 46 ∨ c = 43) ∨ order = .lt ∧ ∃ c ∈ rest.head?, isLetter c ∨ c = 126 := by
  have colon : isDigit 10 58 = false := rfl
  rw [sideBySide,zipPad_runs (by simp),(first_cons colon upstream).1]
  cases rest with
  | nil =>
    exact gt_iff (by simp) (by simp) order
  | cons c rest =>
    have kind : Textual c := textual c rfl
    have different : 58 ≠ c := by
      rintro rfl
      exact absurd kind (by decide)
    rw [(first_cons (not_isDigit_of_textual kind) rest).1,codeRuns,if_neg (by simp [different]),
      sign_strcmp_cons _ _ different]
    simp only [head?_cons,Option.mem_some_iff,forall_eq',exists_eq_left']
    rcases kind with letter | rfl | rfl | rfl
    · have bounds := (isLetter_iff c).mp letter
      rw [Nat.compare_eq_lt.mpr (show (58 : UInt8).toNat < c.toNat by change 58 < _; omega)]
      refine lt_iff ?_ (.inl letter) order
      rintro (rfl | rfl) <;> cases letter
    · exact gt_iff (by decide) (by decide) order
    · exact gt_iff (by decide) (by decide) order
    · exact lt_iff (by decide) (by decide) order

/-- A long epoch against the first number of an upstream version: the answer is never that both are equal. -/
theorem codeRuns_long_short (upstream1 : List UInt8) (written : digits ≠ []) (all : ∀ c ∈ digits, isDigit 10 c)
    (nonempty : upstream2 ≠ []) (plain : ∀ c ∈ upstream2, Plain c) (order : Ordering) :
    codeRuns (sideBySide (digits ++ 58 :: upstream1) upstream2) = some order ↔
      order = .gt ∧ Above (number digits) upstream2 ∨ order = .lt ∧ Below (number digits) upstream2 := by
  have colon : isDigit 10 58 = false := rfl
  rw [sideBySide,zipPad_runs (by simp),(first_append written all colon).1,(first_append written all colon).2,
    codeRuns.eq_def]
  obtain ⟨c,rest,rfl⟩ := exists_cons_of_ne_nil nonempty
  cases kind : isDigit 10 c with
  | false =>
    have empty : front (c :: rest) = [] := by simp [front,kind]
    rw [(first_cons kind rest).1]
    exact lt_iff (fun above => above.1 empty) (.inl empty) order
  | true =>
    have start : front (c :: rest) ≠ [] := by simp [front,kind]
    have first : first (isDigit 10) (c :: rest) = ([],front (c :: rest)) := by simp [first,front,kind]
    have behind : behind (isDigit 10) (c :: rest) = behindFront (c :: rest) := by
      simp [behind,behindFront,kind]
    have textual : ∀ c' ∈ (behindFront (c :: rest)).head?, Textual c' := by
      intro c' next
      have stop := head?_dropWhile_not (isDigit 10) (c :: rest)
      rw [← behindFront,next] at stop
      rcases plain c' ((dropWhile_sublist _).subset (mem_of_mem_head? next)) with digit | others
      · simp [digit] at stop
      · exact others
    have later := codeRuns_colon upstream1 textual order
    rw [first,behind,Above,Below]
    dsimp only
    generalize front (c :: rest) = digits2 at *
    by_cases fits : number digits < 2 ^ 31 ∧ number digits2 < 2 ^ 31
    · simp only [start,fits,ne_eq,not_false_eq_true,true_and,false_or,if_true]
      rcases lt_trichotomy (number digits) (number digits2) with less | equal | more
      · rw [if_neg (by omega),Nat.compare_eq_lt.mpr less]
        exact lt_iff (by omega) (.inl less) order
      · simp only [equal,if_true,lt_irrefl,false_or,true_and]
        exact later
      · rw [if_neg (by omega),Nat.compare_eq_gt.mpr more]
        exact gt_iff (.inl more) (by omega) order
    · rw [if_neg fits]
      refine iff_of_false (by simp) ?_
      rintro (⟨_,_,fits1,fits2,_⟩ | ⟨_,empty | ⟨fits1,fits2,_⟩⟩)
      · exact fits ⟨fits1,fits2⟩
      · exact start empty
      · exact fits ⟨fits1,fits2⟩

theorem sign_strcmp_swap (text1 text2 : List UInt8) : sign (strcmp text2 text1) = (sign (strcmp text1 text2)).swap := by
  induction text1 generalizing text2 with
  | nil => cases text2 <;> rfl
  | cons a text1 ih =>
    cases text2 with
    | nil => rfl
    | cons b text2 =>
      by_cases same : a = b
      · subst same
        simpa [strcmp] using ih text2
      · rw [sign_strcmp_cons _ _ same,sign_strcmp_cons _ _ (Ne.symm same),Nat.compare_swap]

theorem codeRuns_swap (part1 part2 : List UInt8) :
    codeRuns (sideBySide part2 part1) = (codeRuns (sideBySide part1 part2)).map Ordering.swap := by
  rw [sideBySide,zipPad_swap,← sideBySide]
  induction sideBySide part1 part2 with
  | nil => rfl
  | cons pair rest ih =>
    obtain ⟨⟨text1,digits1⟩,⟨text2,digits2⟩⟩ := pair
    rw [map_cons,Prod.swap_prod_mk,codeRuns,codeRuns,ih,sign_strcmp_swap text1 text2,
      ← Nat.compare_swap (number digits1) (number digits2)]
    simp only [eq_comm (a := text2),eq_comm (a := number digits2),and_comm (a := number digits2 < 2 ^ 31)]
    split
    · split
      · split <;> rfl
      · rfl
    · rfl

theorem Version.short_lead {version : Version} (short : version.long = false) :
    version.lead.toNat = 48 + version.epochNumber ∧ version.base = version.upstream := by
  match kind : version.epoch with
  | none => simp [lead,base,epochNumber,kind,number,parse]
  | some [] => exact absurd rfl (version.epochDigits [] kind).1
  | some [digit] =>
    have known := (version.epochDigits [digit] kind).2 digit (by simp)
    simp only [isDigit,Bool.and_eq_true,decide_eq_true_eq] at known
    simp only [lead,base,epochNumber,kind,number,Option.getD_some,map_cons,map_nil,parse,and_true]
    simp
    omega
  | some (digit :: digit' :: digits) => simp [long,kind] at short

theorem Version.long_lead {version : Version} (long : version.long = true) :
    version.lead = 48 ∧ ∃ digits, digits ≠ [] ∧ (∀ c ∈ digits, isDigit 10 c) ∧ version.epochNumber = number digits ∧
      version.base = digits ++ 58 :: version.upstream := by
  match kind : version.epoch with
  | none => simp [Version.long,kind] at long
  | some [] => simp [Version.long,kind] at long
  | some [digit] => simp [Version.long,kind] at long
  | some (digit :: digit' :: digits) =>
    refine ⟨by simp [lead,kind],digit :: digit' :: digits,by simp,(version.epochDigits _ kind).2,?_,?_⟩
    · simp [epochNumber,kind]
    · simp [base,kind]

theorem bind_answer_iff [Decidable bare] (decided : compared ≠ some .eq) (order : Ordering) :
    compared.bind (answer bare) = some order ↔ compared = some order := by
  cases compared with
  | none => rfl
  | some result =>
    rw [Option.bind_some,answer_of_ne fun equal => decided (congrArg some equal)]

variable {long : Version}

theorem codeRuns_lucky_iff (isLong : long.long = true) (isShort : short.long = false) (zero : short.epochNumber = 0)
    (order : Ordering) : codeRuns (sideBySide long.base short.base) = some order ↔ Lucky long short order := by
  obtain ⟨_,digits,nonempty,all,value,base⟩ := Version.long_lead isLong
  rw [base,(Version.short_lead isShort).2,codeRuns_long_short _ nonempty all short.nonempty short.upstreamPlain,Lucky,
    if_neg (by omega),value]

theorem not_lucky_eq : ¬Lucky long short .eq := by
  rw [Lucky]
  split <;> simp

theorem long_short_iff (isLong : long.long = true) (isShort : short.long = false)
    (zero : short.epochNumber = 0) (bare : Prop) [Decidable bare] (order : Ordering) :
    (codeRuns (sideBySide long.base short.base)).bind (answer bare) = some order ↔ Lucky long short order := by
  have lucky := codeRuns_lucky_iff isLong isShort zero
  rw [bind_answer_iff fun equal => not_lucky_eq ((lucky .eq).mp equal),lucky]

theorem short_long_iff (isShort : short.long = false) (isLong : long.long = true)
    (zero : short.epochNumber = 0) (bare : Prop) [Decidable bare] (order : Ordering) :
    (codeRuns (sideBySide short.base long.base)).bind (answer bare) = some order ↔ Lucky long short order.swap := by
  have lucky (order : Ordering) : codeRuns (sideBySide short.base long.base) = some order ↔
      Lucky long short order.swap := by
    rw [← codeRuns_lucky_iff isLong isShort zero,codeRuns_swap long.base short.base]
    cases codeRuns (sideBySide long.base short.base) with
    | none => simp
    | some result => cases result <;> cases order <;> simp
  rw [bind_answer_iff fun equal => not_lucky_eq ((lucky .eq).mp equal),lucky]

/-- The program keeps to the policy on exactly the faithful pairs. -/
theorem versionOrder_iff (a b : Version) :
    (versionCompare a.text b.text).map sign = some (policyOrder a b) ↔ Faithful a b := by
  rw [versionCompare_text]
  simp only [UInt8.lt_iff_toNat_lt]
  cases left : a.long with
  | false =>
    obtain ⟨leadA,baseA⟩ := Version.short_lead left
    cases right : b.long with
    | false =>
      obtain ⟨leadB,baseB⟩ := Version.short_lead right
      rw [Faithful,left,right,policyOrder,baseA,baseB]
      dsimp only
      rcases lt_trichotomy a.epochNumber b.epochNumber with less | equal | more
      · rw [if_pos (by omega),Nat.compare_eq_lt.mpr less]
        simp [ne_of_lt less]
      · rw [if_neg (by omega),if_neg (by omega),compare_eq_iff_eq.mpr equal,Ordering.eq_then,comparable_iff]
        simp [equal]
      · rw [if_neg (by omega),if_pos (by omega),Nat.compare_eq_gt.mpr more]
        simp [ne_of_gt more]
    | true =>
      obtain ⟨leadB,_⟩ := Version.long_lead right
      rw [Faithful,left,right,leadA,leadB,if_neg (by simp)]
      dsimp only
      rcases eq_zero_or_pos a.epochNumber with zero | pos
      · rw [if_neg (by simp [zero]),short_long_iff left right zero]
      · rw [if_pos (by simpa using pos),Lucky,if_pos pos]
        cases policyOrder a b <;> simp
  | true =>
    obtain ⟨leadA,digits1,some1,all1,value1,baseA⟩ := Version.long_lead left
    cases right : b.long with
    | false =>
      obtain ⟨leadB,baseB⟩ := Version.short_lead right
      rw [Faithful,left,right,leadA,leadB]
      dsimp only
      rcases eq_zero_or_pos b.epochNumber with zero | pos
      · rw [if_neg (by simp [zero]),if_neg (by simp),long_short_iff left right zero]
      · rw [if_pos (by simpa using pos),Lucky,if_pos pos,Option.some.injEq,eq_comm]
    | true =>
      obtain ⟨leadB,digits2,some2,all2,value2,baseB⟩ := Version.long_lead right
      rw [Faithful,left,right,leadA,leadB,if_neg (by simp),if_neg (by simp),baseA,baseB,
        codeRuns_long some1 some2 all1 all2 a.nonempty,← value1,← value2,policyOrder]
      dsimp only
      by_cases fits : a.epochNumber < 2 ^ 31 ∧ b.epochNumber < 2 ^ 31
      · rw [if_pos fits]
        by_cases equal : a.epochNumber = b.epochNumber
        · rw [if_pos equal,compare_eq_iff_eq.mpr equal,Ordering.eq_then,comparable_iff]
          exact ⟨fun comparable => ⟨fits.1,fits.2,fun _ => comparable⟩,fun faithful => faithful.2.2 equal⟩
        · have decided : compare a.epochNumber b.epochNumber ≠ .eq := fun same => equal (compare_eq_iff_eq.mp same)
          rw [if_neg equal,Option.bind_some,answer_of_ne decided,then_of_ne decided]
          exact iff_of_true rfl ⟨fits.1,fits.2,fun same => absurd same equal⟩
      · rw [if_neg fits]
        refine iff_of_false (by simp) fun both => fits ⟨both.1,both.2.1⟩

def candidate : Version := ⟨none,[49,46,48,126,114,99,49],none,by simp,by simp,by decide +kernel,by simp⟩

def release : Version := ⟨none,[49,46,48],none,by simp,by simp,by decide +kernel,by simp⟩

/-- A release candidate is taken for newer than the release. -/
theorem candidate_above_release :
    policyOrder candidate release = .lt ∧ versionCompare candidate.text release.text = some 1 := by decide

end Stablebox.Dpkg
