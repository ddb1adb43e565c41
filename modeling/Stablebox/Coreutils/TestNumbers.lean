import Mathlib.Data.List.TakeWhile
import Stablebox.Lib.Digits

/-! The numeric comparisons of `test` (coreutils/test.c). -/
namespace Stablebox.Test

open Digits List

abbrev Text := List UInt8

inductive Token where
  | inteq | intne | intge | intgt | intle | intlt
  deriving DecidableEq, Repr

structure Outcome where
  status : Nat
  line : Option Text
  deriving DecidableEq, Repr

def outOfRange : Text := "out of range".toUTF8.toList

def badNumber : Text := "bad number".toUTF8.toList

/-- `syntax(op, msg)`; the `longjmp` behind it makes 2 the status. -/
def syntaxError (op msg : Text) : Outcome := ⟨2,some (if op ≠ [] then op ++ [58,32] ++ msg else msg)⟩

/-- The text at the end pointer of `strtol(s, &p, 10)`: `s` itself if it finds no digit. -/
def unread (s : Text) : Text :=
  let text := s.dropWhile isSpace
  let text := if text.head? = some 43 ∨ text.head? = some 45 then text.tail else text
  if text.takeWhile (isDigit 10) = [] then s else text.dropWhile (isDigit 10)

/-- Inside the range of `long` and `long long`, so that `strtol` leaves `errno` at 0. -/
def Fits (value : Int) : Prop := -2 ^ 63 ≤ value ∧ value < 2 ^ 63

instance (value : Int) : Decidable (Fits value) := inferInstanceAs (Decidable (_ ∧ _))

/-- The value returned has the type `arith_t`: `int64_t` with FEATURE_TEST_64 and `int` without. -/
def getn (test64 : Bool) (s : Text) : Except Outcome Int :=
  let (negative,n) := scan 10 s
  let r : Int := if negative then -n else n
  if ¬ Fits r then .error (syntaxError s outOfRange)
  else if (unread s).dropWhile isSpace ≠ [] then .error (syntaxError s badNumber)
  else .ok (if test64 then r else r.bmod (2 ^ 32))

def Token.compares : Token → Int → Int → Bool
  | .inteq,x,y => x = y
  | .intne,x,y => x ≠ y
  | .intge,x,y => y ≤ x
  | .intgt,x,y => y < x
  | .intle,x,y => x ≤ y
  | .intlt,x,y => x < y

def binop (test64 : Bool) (op : Token) (opnd1 opnd2 : Text) : Except Outcome Bool := do
  let x ← getn test64 opnd1
  let y ← getn test64 opnd2
  return op.compares x y

/-- `test opnd1 op opnd2`. -/
def bbTest (test64 : Bool) (op : Token) (opnd1 opnd2 : Text) : Outcome :=
  match binop test64 op opnd1 opnd2 with
  | .error outcome => outcome
  | .ok result => ⟨if result then 0 else 1,none⟩

/-- A decimal integer with an optional sign, white space around it. -/
structure Decimal where
  front : Text
  sign : Option Bool
  digits : List Nat
  back : Text
  blank : ∀ c ∈ front ++ back, isSpace c
  nonempty : digits ≠ []
  small : ∀ digit ∈ digits, digit < 10

namespace Decimal

def signText : Option Bool → Text
  | none => []
  | some false => [43]
  | some true => [45]

def text (d : Decimal) : Text := d.front ++ (signText d.sign ++ (d.digits.map ascii ++ d.back))

def value (d : Decimal) : Int := if d.sign = some true then -parse 10 d.digits else parse 10 d.digits

theorem skip_front (d : Decimal) : d.text.dropWhile isSpace = signText d.sign ++ (d.digits.map ascii ++ d.back) := by
  obtain ⟨first,rest,split⟩ := exists_cons_of_ne_nil d.nonempty
  have plain := (ascii_plain (d.small first (by simp [split]))).1
  have plus : isSpace 43 = false := by decide
  have minus : isSpace 45 = false := by decide
  rw [text,dropWhile_append_of_pos fun c listed => d.blank c (mem_append_left _ listed)]
  rcases d.sign with _ | _ | _ <;> simp [signText,split,plain,plus,minus]

theorem back_ends (d : Decimal) : ∀ c, d.back.head? = some c → isDigit 10 c = false := by
  intro c first
  have space := d.blank c (mem_append_right _ (mem_of_head? first))
  have code : c.toNat = 32 ∨ (9 ≤ c.toNat ∧ c.toNat ≤ 13) := by
    simpa [isSpace,UInt8.le_iff_toNat_le,← UInt8.toNat_inj] using space
  simp only [isDigit,Bool.and_eq_false_iff,decide_eq_false_iff_not]
  omega

theorem scan_text (d : Decimal) : scan 10 d.text = (d.sign == some true,parse 10 d.digits) := by
  have whole := (takeWhile_digits (by decide) d.small d.back_ends).1
  have values := map_ascii_value (by decide) d.small
  have skip := d.skip_front
  cases shape : d.sign with
  | none =>
    have same : scan 10 d.text = scan 10 (d.digits.map ascii ++ d.back) := by
      simp only [scan,text,shape,signText,nil_append]
      rw [dropWhile_append_of_pos fun c listed => d.blank c (mem_append_left _ listed)]
    rw [same,scan_digits (by decide) d.nonempty d.small d.back_ends]
    rfl
  | some negative =>
    cases negative <;> simp only [scan,skip,shape,signText,singleton_append,whole,values] <;> rfl

theorem unread_text (d : Decimal) : unread d.text = d.back := by
  obtain ⟨first,rest,split⟩ := exists_cons_of_ne_nil d.nonempty
  obtain ⟨-,plus,minus⟩ := ascii_plain (d.small first (by simp [split]))
  obtain ⟨whole,behind⟩ := takeWhile_digits (by decide) d.small d.back_ends
  have bare : (if (signText d.sign ++ (d.digits.map ascii ++ d.back)).head? = some 43 ∨
        (signText d.sign ++ (d.digits.map ascii ++ d.back)).head? = some 45
      then (signText d.sign ++ (d.digits.map ascii ++ d.back)).tail
      else signText d.sign ++ (d.digits.map ascii ++ d.back)) = d.digits.map ascii ++ d.back := by
    rcases d.sign with _ | _ | _ <;> simp [signText,split,plus,minus]
  simp only [unread,d.skip_front,bare,whole,behind]
  exact if_neg (by simp [d.nonempty])

theorem getn_text (test64 : Bool) (d : Decimal) : getn test64 d.text =
    if Fits d.value then .ok (if test64 then d.value else d.value.bmod (2 ^ 32))
    else .error (syntaxError d.text outOfRange) := by
  have spaces : d.back.dropWhile isSpace = [] :=
    dropWhile_eq_nil_iff.mpr fun c listed => d.blank c (mem_append_right _ listed)
  have read : (if (d.sign == some true) = true then -(parse 10 d.digits : Int) else parse 10 d.digits) = d.value := by
    simp [value]
  simp only [getn,d.scan_text,d.unread_text,spaces,read]
  split <;> simp_all

end Decimal

/-- The answer is the one of the numbers, or a complaint about one of the operands. -/
def Right (test64 : Bool) (op : Token) (a b : Decimal) : Prop :=
  bbTest test64 op a.text b.text = ⟨if op.compares a.value b.value then 0 else 1,none⟩ ∨
    ∃ s ∈ [a.text,b.text], bbTest test64 op a.text b.text = syntaxError s outOfRange

instance (test64 : Bool) (op : Token) (a b : Decimal) : Decidable (Right test64 op a b) :=
  inferInstanceAs (Decidable (_ ∨ _))

theorem compares_congr_iff :
    (∀ op : Token, op.compares x y = op.compares x' y') ↔ compare x y = compare x' y' := by
  constructor
  · intro same
    have less := same .intlt
    have more := same .intgt
    simp only [Token.compares,decide_eq_decide] at less more
    rcases lt_trichotomy x y with lt | eq | gt
    · rw [compare_lt_iff_lt.mpr lt,compare_lt_iff_lt.mpr (less.mp lt)]
    · have eq' : x' = y' := by omega
      rw [compare_eq_iff_eq.mpr eq,compare_eq_iff_eq.mpr eq']
    · rw [compare_gt_iff_gt.mpr gt,compare_gt_iff_gt.mpr (more.mp gt)]
  · intro same op
    have less : x < y ↔ x' < y' := by rw [← compare_lt_iff_lt,same,compare_lt_iff_lt]
    have more : y < x ↔ y' < x' := by rw [← compare_gt_iff_gt,same,compare_gt_iff_gt]
    cases op <;> simp only [Token.compares,decide_eq_decide] <;> omega

/-- All six operators answer as the two integers do, or complain, exactly if the operands keep their
order in the type `arith_t`. -/
theorem test_right_iff (test64 : Bool) (a b : Decimal) :
    (∀ op, Right test64 op a b) ↔
      (test64 = true ∨ ¬ Fits a.value ∨ ¬ Fits b.value ∨
        compare (a.value.bmod (2 ^ 32)) (b.value.bmod (2 ^ 32)) = compare a.value b.value) := by
  by_cases left : Fits a.value
  · by_cases right : Fits b.value
    · have answer (op : Token) : bbTest test64 op a.text b.text =
          ⟨if op.compares (if test64 then a.value else a.value.bmod (2 ^ 32))
            (if test64 then b.value else b.value.bmod (2 ^ 32)) then 0 else 1,none⟩ := by
        simp [bbTest,binop,a.getn_text,b.getn_text,left,right,bind,Except.bind,pure,Except.pure]
      have right_iff (op : Token) : Right test64 op a b ↔
          op.compares (if test64 then a.value else a.value.bmod (2 ^ 32))
            (if test64 then b.value else b.value.bmod (2 ^ 32)) = op.compares a.value b.value := by
        simp only [Right,answer,syntaxError]
        cases op.compares a.value b.value <;> simp
      rw [forall_congr' right_iff,compares_congr_iff]
      cases test64 <;> simp [left,right]
    · have complaint (op : Token) : bbTest test64 op a.text b.text = syntaxError b.text outOfRange := by
        simp [bbTest,binop,a.getn_text,b.getn_text,left,right,bind,Except.bind]
      exact iff_of_true (fun op => .inr ⟨b.text,by simp,complaint op⟩) (.inr (.inr (.inl right)))
  · have complaint (op : Token) : bbTest test64 op a.text b.text = syntaxError a.text outOfRange := by
      simp [bbTest,binop,a.getn_text,left,bind,Except.bind]
    exact iff_of_true (fun op => .inr ⟨a.text,by simp,complaint op⟩) (.inr (.inl left))

/-- `test 4294967296 -eq 0` is true where `arith_t` is an `int`. -/
theorem test_truncates : ∃ a b : Decimal, a.value = 4294967296 ∧ b.value = 0 ∧
    bbTest false .inteq a.text b.text = ⟨0,none⟩ ∧ ¬ Right false .inteq a b := by
  refine ⟨⟨[],none,[4,2,9,4,9,6,7,2,9,6],[],by simp,by simp,by decide⟩,⟨[],none,[0],[],by simp,by simp,by decide⟩,
    by decide,by decide,by decide +kernel,by decide +kernel⟩

end Stablebox.Test
