import Mathlib.Data.List.Basic
import Mathlib.Tactic.Ring

/-! Bit strings, the first bit of a stream first: the number that a field of bits holds, the
bits of a number from either end, and the bits of a file. -/
namespace Stablebox.Bits

open List Nat

def value : List Bool → Nat
  | [] => 0
  | bit :: bits => bit.toNat + 2 * value bits

/-- The lowest `n` bits of a number, the lowest first. -/
def low : (n : Nat) → Nat → List Bool
  | 0,_ => []
  | n + 1,v => (v % 2 == 1) :: low n (v / 2)

/-- The lowest `n` bits of a number, the highest of them first. -/
def high : (n : Nat) → Nat → List Bool
  | 0,_ => []
  | n + 1,v => high n (v / 2) ++ [v % 2 == 1]

/-- The bits of a file: in each byte the lowest comes first. -/
def ofBytes (bytes : List UInt8) : List Bool := bytes.flatMap fun byte => low 8 byte.toNat

/-- A file of `n` bytes, filled up with zeros. -/
def toBytes : (n : Nat) → List Bool → List UInt8
  | 0,_ => []
  | n + 1,bits => UInt8.ofNat (value (bits.take 8)) :: toBytes n (bits.drop 8)

variable (n : Nat)

@[simp] theorem low_length (v : Nat) : (low n v).length = n := by
  induction n generalizing v with
  | zero => rfl
  | succ n ih => simp [low,ih]

@[simp] theorem high_length (v : Nat) : (high n v).length = n := by
  induction n generalizing v with
  | zero => rfl
  | succ n ih => simp [high,ih]

theorem toNat_odd (v : Nat) : (v % 2 == 1).toNat = v % 2 := by
  rcases mod_two_eq_zero_or_one v with even | odd
  · simp [even]
  · simp [odd]

variable (bits : List Bool)

theorem value_lt : value bits < 2 ^ bits.length := by
  induction bits with
  | nil => exact one_pos
  | cons bit bits ih =>
    have small : bit.toNat ≤ 1 := Bool.toNat_le bit
    rw [value,length_cons,pow_succ]
    omega

theorem value_append (front back : List Bool) :
    value (front ++ back) = value front + 2 ^ front.length * value back := by
  induction front with
  | nil => simp [value]
  | cons bit front ih =>
    rw [cons_append,value,value,ih,length_cons]
    ring

variable (v : Nat)

theorem value_low : value (low n v) = v % 2 ^ n := by
  induction n generalizing v with
  | zero => simp [low,value,mod_one]
  | succ n ih => rw [low,value,ih,toNat_odd,Nat.pow_succ',mod_mul]

theorem low_value : low bits.length (value bits) = bits := by
  induction bits with
  | nil => rfl
  | cons bit bits ih =>
    have first : (value (bit :: bits) % 2 == 1) = bit := by cases bit <;> simp [value]
    have others : value (bit :: bits) / 2 = value bits := by
      have small : bit.toNat ≤ 1 := Bool.toNat_le bit
      rw [value]
      omega
    rw [length_cons,low,first,others,ih]

theorem value_drop_take : value bits / 2 ^ n = value (bits.drop n) ∧ value bits % 2 ^ n = value (bits.take n) := by
  rw [Nat.div_mod_unique (Nat.two_pow_pos n)]
  have split := value_append (bits.take n) (bits.drop n)
  have bound := value_lt (bits.take n)
  rw [take_append_drop] at split
  rw [length_take] at split bound
  rcases le_total n bits.length with inside | outside
  · rw [min_eq_left inside] at split bound
    exact ⟨split.symm,bound⟩
  · have wide := Nat.pow_le_pow_right (show 0 < 2 by decide) outside
    rw [min_eq_right outside] at bound
    rw [take_of_length_le outside,drop_eq_nil_of_le outside] at *
    exact ⟨rfl,lt_of_lt_of_le bound wide⟩

theorem value_take : value (bits.take n) = value bits % 2 ^ n := (value_drop_take n bits).2.symm

theorem value_drop : value (bits.drop n) = value bits / 2 ^ n := (value_drop_take n bits).1.symm

theorem high_mod : high n (v % 2 ^ n) = high n v := by
  induction n generalizing v with
  | zero => rfl
  | succ n ih =>
    have rest : v % 2 ^ (n + 1) / 2 = v / 2 % 2 ^ n := by
      rw [Nat.pow_succ',mod_mul_right_div_self]
    have last : v % 2 ^ (n + 1) % 2 = v % 2 := mod_mod_of_dvd _ (Dvd.intro_left (2 ^ n) rfl)
    rw [high,high,rest,last,ih]

theorem high_eq_reverse : high n v = (low n v).reverse := by
  induction n generalizing v with
  | zero => rfl
  | succ n ih => rw [high,low,reverse_cons,ih]

def number (bits : List Bool) : Nat := value bits.reverse

theorem number_lt : number bits < 2 ^ bits.length := by
  have bound := value_lt bits.reverse
  rwa [length_reverse] at bound

theorem number_append (front back : List Bool) :
    number (front ++ back) = 2 ^ back.length * number front + number back := by
  rw [number,reverse_append,value_append,length_reverse,add_comm,number,number]

theorem number_high : number (high n v) = v % 2 ^ n := by
  rw [number,high_eq_reverse,reverse_reverse,value_low]

theorem high_add (m v : Nat) : high (n + m) v = high n (v / 2 ^ m) ++ high m v := by
  induction m generalizing v with
  | zero => simp [high]
  | succ m ih => rw [← add_assoc,high,ih,high,append_assoc,Nat.div_div_eq_div_mul,← Nat.pow_succ']

theorem high_take {n m : Nat} (inside : m ≤ n) : (high n v).take m = high m (v / 2 ^ (n - m)) := by
  obtain ⟨rest,rfl⟩ := Nat.exists_eq_add_of_le inside
  rw [high_add,take_left' (high_length m _),Nat.add_sub_cancel_left]

theorem high_drop {n m : Nat} (inside : m ≤ n) : (high n v).drop m = high (n - m) v := by
  obtain ⟨rest,rfl⟩ := Nat.exists_eq_add_of_le inside
  rw [high_add,drop_left' (high_length m _),Nat.add_sub_cancel_left]

/-- The bits of a file that holds the highest bit of every byte first. -/
def ofBytesHigh (bytes : List UInt8) : List Bool := bytes.flatMap fun byte => high 8 byte.toNat

theorem ofBytesHigh_cons (byte : UInt8) (bytes : List UInt8) :
    ofBytesHigh (byte :: bytes) = high 8 byte.toNat ++ ofBytesHigh bytes := rfl

@[simp] theorem ofBytes_length (bytes : List UInt8) : (ofBytes bytes).length = 8 * bytes.length := by
  induction bytes with
  | nil => rfl
  | cons byte bytes ih =>
    rw [ofBytes,flatMap_cons,length_append,low_length,← ofBytes,ih,length_cons]
    omega

theorem ofBytes_cons (byte : UInt8) (bytes : List UInt8) :
    ofBytes (byte :: bytes) = low 8 byte.toNat ++ ofBytes bytes := rfl

theorem ofBytes_append (front back : List UInt8) : ofBytes (front ++ back) = ofBytes front ++ ofBytes back :=
  flatMap_append

theorem ofBytes_drop (bytes : List UInt8) : (ofBytes bytes).drop (8 * n) = ofBytes (bytes.drop n) := by
  induction n generalizing bytes with
  | zero => rfl
  | succ n ih =>
    cases bytes with
    | nil => simp [ofBytes]
    | cons byte bytes =>
      rw [ofBytes_cons,drop_append,drop_eq_nil_of_le (by rw [low_length]; omega),low_length,
        nil_append,show 8 * (n + 1) - 8 = 8 * n by omega,ih,drop_succ_cons]

theorem value_pad (n : Nat) : value (bits ++ replicate n false) = value bits := by
  have zeros : value (replicate n false) = 0 := by
    induction n with
    | zero => rfl
    | succ n ih => simp [replicate_succ,value,ih]
  rw [value_append,zeros]
  omega

theorem ofBytes_toBytes (fits : bits.length ≤ 8 * n) :
    ofBytes (toBytes n bits) = bits ++ replicate (8 * n - bits.length) false := by
  induction n generalizing bits with
  | zero =>
    obtain rfl : bits = [] := length_eq_zero_iff.mp (by omega)
    rfl
  | succ n ih =>
    have small : value (bits.take 8) < 256 := by
      have bound := value_lt (bits.take 8)
      have most : 2 ^ (bits.take 8).length ≤ 2 ^ 8 := Nat.pow_le_pow_right (by decide) (length_take_le 8 bits)
      omega
    have first : low 8 (value (bits.take 8)) = bits.take 8 ++ replicate (8 - bits.length) false := by
      have padded := low_value (bits.take 8 ++ replicate (8 - bits.length) false)
      rw [value_pad,length_append,length_take,length_replicate,
        show min 8 bits.length + (8 - bits.length) = 8 by omega] at padded
      exact padded
    have rest := ih (bits.drop 8) (by rw [length_drop]; omega)
    rw [toBytes,ofBytes_cons,UInt8.toNat_ofNat_of_lt' small,first,rest,length_drop]
    by_cases long : 8 ≤ bits.length
    · rw [show 8 - bits.length = 0 by omega,replicate_zero,append_nil,← append_assoc,take_append_drop,
        show 8 * n - (bits.length - 8) = 8 * (n + 1) - bits.length by omega]
    · rw [take_of_length_le (by omega),drop_eq_nil_of_le (by omega),nil_append,append_assoc,replicate_append_replicate]
      congr 2
      omega

end Stablebox.Bits
