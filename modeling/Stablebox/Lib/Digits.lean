import Mathlib.Data.Nat.Digits.Lemmas

/-! Numbers as ASCII text in a base of at most ten: printing as `printf` does and reading as
`strtol` does. -/
namespace Stablebox.Digits

open List Nat

def render (base n : Nat) : List Nat := if n = 0 then [0] else (digits base n).reverse

def parse (base : Nat) (digits : List Nat) : Nat := digits.foldl (fun n digit => n * base + digit) 0

def ascii (digit : Nat) : UInt8 := UInt8.ofNat (48 + digit)

def print (base width n : Nat) : List UInt8 :=
  (replicate (width - (render base n).length) 0 ++ render base n).map ascii

def isSpace (c : UInt8) : Bool := c == 32 || (9 ≤ c && c ≤ 13)

def isDigit (base : Nat) (c : UInt8) : Bool := 48 ≤ c.toNat && c.toNat < 48 + base

/-- White space, a sign and the digits at the front of a text: is it negative, and the
number. -/
def scan (base : Nat) (text : List UInt8) : Bool × Nat :=
  let text := text.dropWhile isSpace
  let (negative,text) :=
    match text with
    | 43 :: text => (false,text)
    | 45 :: text => (true,text)
    | text => (false,text)
  (negative,parse base ((text.takeWhile (isDigit base)).map fun c => c.toNat - 48))

/-- A number that does not fit becomes the largest one; a minus sign negates modulo 2^64. -/
def strtoul (base : Nat) (text : List UInt8) : Nat :=
  let (negative,n) := scan base text
  if 2 ^ 64 ≤ n then 2 ^ 64 - 1 else if negative then (2 ^ 64 - n) % 2 ^ 64 else n

/-- A number that does not fit becomes the next one that does. -/
def strtol (base : Nat) (text : List UInt8) : Int :=
  let (negative,n) := scan base text
  if negative then max (-2 ^ 63) (-n) else min (2 ^ 63 - 1) n

/-- A number that does not fit into an `int` of 32 bits is undefined. -/
def atoi (text : List UInt8) : Option Int :=
  let (negative,n) := scan 10 text
  let value : Int := if negative then -n else n
  if -2 ^ 31 ≤ value ∧ value < 2 ^ 31 then some value else none

theorem render_ne_nil (base n : Nat) : render base n ≠ [] := by
  unfold render
  split
  · simp
  · simpa [digits_eq_nil_iff_eq_zero]

theorem render_lt (large : 1 < base) : ∀ digit ∈ render base n, digit < base := by
  intro digit listed
  unfold render at listed
  split at listed
  · simp only [mem_singleton] at listed
    omega
  · exact digits_lt_base large (mem_reverse.mp listed)

theorem parse_reverse (base : Nat) (digits : List Nat) : parse base digits.reverse = ofDigits base digits := by
  rw [parse,foldl_reverse,ofDigits_eq_foldr]
  simp only [cast_id,mul_comm,add_comm]

theorem parse_eq_ofDigits (base : Nat) (digits : List Nat) : parse base digits = ofDigits base digits.reverse := by
  rw [← parse_reverse,reverse_reverse]

theorem parse_render (base n : Nat) : parse base (render base n) = n := by
  unfold render
  split
  · rename_i zero
    simp [parse,zero]
  · rw [parse_reverse,ofDigits_digits]

theorem parse_zeros (base count : Nat) (digits : List Nat) :
    parse base (replicate count 0 ++ digits) = parse base digits := by
  simp [parse_eq_ofDigits]

theorem render_length_iff (large : 1 < base) {count : Nat} (positive : 0 < count) :
    (render base n).length ≤ count ↔ n < base ^ count := by
  unfold render
  split
  · rename_i zero
    rw [zero]
    exact iff_of_true positive (Nat.pow_pos (by omega))
  · rw [length_reverse]
    exact digits_length_le_iff large n

theorem length_print (base width n : Nat) : (print base width n).length = max width (render base n).length := by
  simp only [print,length_map,length_append,length_replicate]
  omega

theorem toNat_ascii (small : digit < 10) : (ascii digit).toNat = 48 + digit := by
  simp only [ascii,UInt8.toNat_ofNat']
  omega

theorem ascii_plain (small : digit < 10) : isSpace (ascii digit) = false ∧ ascii digit ≠ 43 ∧ ascii digit ≠ 45 := by
  interval_cases digit <;> decide

theorem isDigit_ascii (small : digit < base) (ten : base ≤ 10) : isDigit base (ascii digit) := by
  simp [isDigit,toNat_ascii (lt_of_lt_of_le small ten),small]

theorem parse_append_value (base : Nat) (front back : List Nat) :
    parse base (front ++ back) = parse base front * base ^ back.length + parse base back := by
  simp only [parse_eq_ofDigits,reverse_append,ofDigits_append,length_reverse]
  ring

theorem parse_cons (base digit : Nat) (digits : List Nat) :
    parse base (digit :: digits) = digit * base ^ digits.length + parse base digits := by
  rw [← singleton_append,parse_append_value]
  simp [parse]

variable {digits : List Nat}

theorem parse_lt (small : ∀ digit ∈ digits, digit < base) : parse base digits < base ^ digits.length := by
  induction digits with
  | nil => simp [parse]
  | cons digit digits ih =>
    have rest := ih (forall_mem_cons.mp small).2
    have here := mul_le_mul_right (base ^ digits.length) (small digit (mem_cons_self ..))
    rw [parse_cons,length_cons,pow_succ']
    rw [succ_mul] at here
    omega

theorem map_ascii_value (ten : base ≤ 10) (small : ∀ digit ∈ digits, digit < base) :
    (digits.map ascii).map (fun c => c.toNat - 48) = digits := by
  rw [map_map]
  conv_rhs => rw [← map_id digits]
  apply map_congr_left
  intro digit listed
  have low : digit < 10 := lt_of_lt_of_le (small digit listed) ten
  simp only [Function.comp_apply,toNat_ascii low,id]
  omega

variable {tail : List UInt8}

theorem takeWhile_digits (ten : base ≤ 10) (small : ∀ digit ∈ digits, digit < base)
    (ends : ∀ c, tail.head? = some c → isDigit base c = false) :
    (digits.map ascii ++ tail).takeWhile (isDigit base) = digits.map ascii ∧
      (digits.map ascii ++ tail).dropWhile (isDigit base) = tail := by
  have every : ∀ c ∈ digits.map ascii, isDigit base c = true := by
    intro c listed
    obtain ⟨digit,there,rfl⟩ := mem_map.mp listed
    exact isDigit_ascii (small digit there) ten
  rw [takeWhile_append_of_pos every,dropWhile_append_of_pos every]
  cases tail with
  | nil => simp
  | cons c tail => simp [ends c rfl]

theorem scan_digits (ten : base ≤ 10) (nonempty : digits ≠ []) (small : ∀ digit ∈ digits, digit < base)
    (ends : ∀ c, tail.head? = some c → isDigit base c = false) :
    scan base (digits.map ascii ++ tail) = (false,parse base digits) := by
  have whole := (takeWhile_digits ten small ends).1
  obtain ⟨first,rest,split⟩ := exists_cons_of_ne_nil nonempty
  have firstSmall : first < 10 := by
    have := small first (by simp [split])
    omega
  obtain ⟨notSpace,notPlus,notMinus⟩ := ascii_plain firstSmall
  have kept : (digits.map ascii ++ tail).dropWhile isSpace = digits.map ascii ++ tail := by
    simp [split,notSpace]
  simp only [scan,kept]
  split
  · rename_i text eq
    simp only [split,map_cons,cons_append,cons.injEq] at eq
    exact absurd eq.1 notPlus
  · rename_i text eq
    simp only [split,map_cons,cons_append,cons.injEq] at eq
    exact absurd eq.1 notMinus
  · rw [whole,map_ascii_value ten small]

theorem print_digits (large : 1 < base) (width n : Nat) :
    ∃ digits, print base width n = digits.map ascii ∧ digits ≠ [] ∧
    (∀ digit ∈ digits, digit < base) ∧ parse base digits = n := by
  refine ⟨replicate (width - (render base n).length) 0 ++ render base n,rfl,
    append_ne_nil_of_right_ne_nil _ (render_ne_nil base n),?_,by rw [parse_zeros,parse_render]⟩
  intro digit listed
  rcases mem_append.mp listed with zero | listed
  · rw [eq_of_mem_replicate zero]
    omega
  · exact render_lt large digit listed

theorem scan_print (large : 1 < base) (ten : base ≤ 10) (width n : Nat) (tail : List UInt8)
    (ends : ∀ c, tail.head? = some c → isDigit base c = false) :
    scan base (print base width n ++ tail) = (false,n) := by
  obtain ⟨digits,shape,nonempty,small,value⟩ := print_digits large width n
  rw [shape,scan_digits ten nonempty small ends,value]

theorem strtoul_print (large : 1 < base) (ten : base ≤ 10) (width : Nat)
    (ends : ∀ c, tail.head? = some c → isDigit base c = false) (fits : n < 2 ^ 64) :
    strtoul base (print base width n ++ tail) = n := by
  simp only [strtoul,scan_print large ten width n tail ends,Bool.false_eq_true,if_false]
  exact if_neg (by omega)

theorem strtol_digits (ten : base ≤ 10) (nonempty : digits ≠ []) (small : ∀ digit ∈ digits, digit < base)
    (tail : List UInt8) (ends : ∀ c, tail.head? = some c → isDigit base c = false) (fits : parse base digits < 2 ^ 63) :
    strtol base (digits.map ascii ++ tail) = parse base digits := by
  simp only [strtol,scan_digits ten nonempty small ends,Bool.false_eq_true,if_false]
  omega

theorem atoi_digits (nonempty : digits ≠ []) (small : ∀ digit ∈ digits, digit < 10)
    (tail : List UInt8) (ends : ∀ c, tail.head? = some c → isDigit 10 c = false) :
    atoi (digits.map ascii ++ tail) = if parse 10 digits < 2 ^ 31 then some (parse 10 digits : Int) else none := by
  simp only [atoi,scan_digits (by decide) nonempty small ends,Bool.false_eq_true,if_false]
  split <;> split
  · rfl
  · omega
  · omega
  · rfl

end Stablebox.Digits
