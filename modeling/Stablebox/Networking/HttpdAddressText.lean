import Stablebox.Networking.HttpdAddress

/-! `scan_ip` and `scan_ip_mask` against the grammar of address lines. A line that is not in the
grammar leaves the numbers before the error in `*ip`. -/
namespace Stablebox.Httpd

open Libbb Digits List Nat

/-! One octet. -/

def numeralFrom (n : Nat) (digits : List UInt8) : Nat :=
  (digits.map fun c => c.toNat - 48).foldl (fun n digit => n * 10 + digit) n

variable (n : Nat)

theorem le_numeralFrom (digits : List UInt8) : n ≤ numeralFrom n digits := by
  induction digits generalizing n with
  | nil => exact le_refl n
  | cons c digits ih => exact le_trans (by omega) (ih (n * 10 + (c.toNat - 48)))

theorem scanOctet_eq (s : List UInt8) (octet : Nat) (small : octet ≤ 255) :
    scanOctet s octet =
      if 255 < numeralFrom octet (s.takeWhile (isDigit 10)) then none
      else some (numeralFrom octet (s.takeWhile (isDigit 10)),s.dropWhile (isDigit 10)) := by
  induction s generalizing octet with
  | nil => simp [scanOctet,numeralFrom,not_lt.mpr small]
  | cons c p ih =>
    rw [scanOctet]
    by_cases digit : isDigit 10 c = true
    · rw [if_pos digit,takeWhile_cons_of_pos digit,dropWhile_cons_of_pos digit]
      have grows := le_numeralFrom (octet * 10 + (c.toNat - 48)) (p.takeWhile (isDigit 10))
      have next : numeralFrom octet (c :: p.takeWhile (isDigit 10)) =
          numeralFrom (octet * 10 + (c.toNat - 48)) (p.takeWhile (isDigit 10)) := rfl
      split
      · rw [if_pos (by omega)]
      · exact ih _ (by omega)
    · rw [if_neg digit,takeWhile_cons_of_neg digit,dropWhile_cons_of_neg digit]
      simp [numeralFrom,not_lt.mpr small]

theorem takeWhile_of_ends (ends : endsOctets p = true) :
    p.takeWhile (isDigit 10) = [] ∧ p.dropWhile (isDigit 10) = p ∧ skipDot p = p := by
  cases p with
  | nil => simp [skipDot]
  | cons c p =>
    obtain rfl : c = 47 := by simpa [endsOctets] using ends
    have noDigit : ¬isDigit 10 47 = true := by decide
    exact ⟨takeWhile_cons_of_neg noDigit,dropWhile_cons_of_neg noDigit,by simp [skipDot]⟩

theorem numberAt_of_ends (ends : endsOctets p = true) : numberAt p = none := by
  simp [numberAt,(takeWhile_of_ends ends).1]

/-! The loop. -/

variable (ip : UInt32)

theorem of_numberAt (number : numberAt p = some (v,rest)) :
    p.takeWhile (isDigit 10) ≠ [] ∧ ¬255 < numeral (p.takeWhile (isDigit 10)) ∧
      v = numeral (p.takeWhile (isDigit 10)) ∧ rest = skipDot (p.dropWhile (isDigit 10)) := by
  simp only [numberAt] at number
  split at number
  · cases number
  rename_i good
  cases number
  exact ⟨(not_or.mp good).1,(not_or.mp good).2,rfl,rfl⟩

theorem scanIpLoop_number {rest : List UInt8} {v : Nat} (autoMask : Nat) (number : numberAt p = some (v,rest)) :
    scanIpLoop (n + 1) p ip autoMask =
      scanIpLoop n rest (ip <<< 8 ||| UInt32.ofNat v) (if endsOctets rest then autoMask else autoMask + 8) := by
  obtain ⟨some,small,rfl,rfl⟩ := of_numberAt number
  have starts : startsOctet (n == 3) p = true := by
    cases p with
    | nil => rfl
    | cons c p =>
      by_cases digit : isDigit 10 c = true
      · simp [startsOctet,digit]
      · exact absurd (takeWhile_cons_of_neg digit) some
  rw [scanIpLoop,if_pos starts,scanOctet_eq p 0 (by decide)]
  change ¬255 < numeralFrom 0 (p.takeWhile (isDigit 10)) at small
  rw [if_neg small]
  rfl

theorem scanIpLoop_ended {n : Nat} (autoMask : Nat) (ends : endsOctets p = true)
    (starts : startsOctet (n == 3) p = true) :
    scanIpLoop (n + 1) p ip autoMask = scanIpLoop n p (ip <<< 8 ||| UInt32.ofNat 0) autoMask := by
  obtain ⟨noDigits,same,noDot⟩ := takeWhile_of_ends ends
  rw [scanIpLoop,if_pos starts,scanOctet_eq p 0 (by decide),noDigits,same]
  simp [numeralFrom,noDot,ends]

theorem scanIpLoop_fails (autoMask : Nat) (noNumber : numberAt p = none)
    (bad : ¬(endsOctets p = true ∧ startsOctet (n == 3) p = true)) : scanIpLoop (n + 1) p ip autoMask = (ip,none) := by
  rw [scanIpLoop]
  split
  · rename_i starts
    have goesOn : endsOctets p = false := by simpa [starts] using bad
    have large : 255 < numeralFrom 0 (p.takeWhile (isDigit 10)) := by
      cases p with
      | nil => simp [endsOctets] at goesOn
      | cons c p =>
        have digit : isDigit 10 c = true := by
          simp only [startsOctet,Bool.or_eq_true,Bool.and_eq_true,beq_iff_eq] at starts
          obtain digit | ⟨isSlash,-⟩ := starts
          · exact digit
          · simp [endsOctets,isSlash] at goesOn
        by_contra small
        simp only [numberAt,takeWhile_cons_of_pos digit] at noNumber
        rw [if_neg] at noNumber
        · cases noNumber
        · rw [takeWhile_cons_of_pos digit] at small
          exact not_or.mpr ⟨cons_ne_nil _ _,small⟩
    rw [scanOctet_eq p 0 (by decide),if_pos large]
  · rfl

theorem scanIpLoop_zeros (inner : n ≤ 3) (ip : UInt32) (autoMask : Nat) (ends : endsOctets p = true) :
    scanIpLoop n p ip autoMask =
      (shiftIn ip (replicate n 0),some (p,autoMask)) := by
  induction n generalizing ip with
  | zero => rfl
  | succ n ih =>
    have starts : startsOctet (n == 3) p = true := by
      have notFirst : (n == 3) = false := by simp; omega
      cases p with
      | nil => rfl
      | cons c p =>
        obtain rfl : c = 47 := by simpa [endsOctets] using ends
        simp [startsOctet,notFirst]
    rw [scanIpLoop_ended ip autoMask ends starts,ih (by omega)]
    rfl

theorem numbers_of_ends (ends : endsOctets p = true) : numbers n p = ([],p) := by
  cases n with
  | zero => rfl
  | succ n => simp [numbers,numberAt_of_ends ends]

theorem numbers_nil {n : Nat} (none : (numbers n p).1 = []) : (numbers n p).2 = p := by
  cases n with
  | zero => rfl
  | succ n =>
    rw [numbers] at none ⊢
    split at none
    · rfl
    · cases none

theorem scanIpLoop_numbers (p : List UInt8) (ip : UInt32) (autoMask : Nat)
    (inner : n ≤ 3 ∨ n = 4 ∧ (numbers n p).1 ≠ []) :
    if endsOctets (numbers n p).2 then
      scanIpLoop n p ip autoMask =
        (shiftIn ip ((numbers n p).1 ++ replicate (n - (numbers n p).1.length) 0),
          some ((numbers n p).2,autoMask + 8 * ((numbers n p).1.length - 1)))
    else (scanIpLoop n p ip autoMask).1 = shiftIn ip (numbers n p).1 ∧
      ∀ rest mask, (scanIpLoop n p ip autoMask).2 = some (rest,mask) → rest = (numbers n p).2 := by
  induction n generalizing p ip autoMask with
  | zero => simp [numbers,scanIpLoop,shiftIn]
  | succ n ih =>
    cases number : numberAt p with
    | none =>
      have none : numbers (n + 1) p = ([],p) := by simp [numbers,number]
      rw [none] at inner ⊢
      have few : n + 1 ≤ 3 := by simpa using inner
      split
      · rename_i ends
        rw [scanIpLoop_zeros (n + 1) few ip autoMask ends]
        rfl
      · rename_i goesOn
        rw [scanIpLoop_fails n ip autoMask number (fun both => goesOn both.1)]
        exact ⟨rfl,fun _ _ absurd => nomatch absurd⟩
    | some found =>
      obtain ⟨v,rest⟩ := found
      have split : numbers (n + 1) p = (v :: (numbers n rest).1,(numbers n rest).2) := by simp [numbers,number]
      rw [split,scanIpLoop_number n ip autoMask number]
      have small : n ≤ 3 := by omega
      have next := ih rest (ip <<< 8 ||| UInt32.ofNat v) (if endsOctets rest then autoMask else autoMask + 8)
        (Or.inl small)
      split at next
      · rename_i ends
        have masks : (if endsOctets rest then autoMask else autoMask + 8) + 8 * ((numbers n rest).1.length - 1) =
            autoMask + 8 * (numbers n rest).1.length := by
          split
          · rename_i here
            simp [numbers_of_ends n here]
          · rename_i goesOn
            have some : (numbers n rest).1 ≠ [] := fun none => goesOn (numbers_nil none ▸ ends)
            have := length_pos_iff.mpr some
            omega
        rw [if_pos ends,next,masks]
        simp [shiftIn]
      · rename_i goesOn
        rw [if_neg goesOn]
        exact next

theorem scanIp_none (some : p ≠ []) (none : (numbers 4 p).1 = []) (endc : Option UInt8) :
    scanIp p endc = (0,Option.none) := by
  have noNumber : numberAt p = Option.none := by
    rw [numbers] at none
    split at none
    · assumption
    · cases none
  have fails : scanIpLoop 4 p 0 8 = (0,Option.none) := by
    apply scanIpLoop_fails 3 0 8 noNumber
    rintro ⟨ends,starts⟩
    cases p with
    | nil => exact some rfl
    | cons c p =>
      obtain rfl : c = 47 := by simpa [endsOctets] using ends
      simp [startsOctet,isDigit] at starts
  rw [scanIp,fails]

theorem scanIp_ends (some : (numbers 4 p).1 ≠ []) (endc : Option UInt8) (ends : endsOctets (numbers 4 p).2 = true) :
    scanIp p endc =
      match (numbers 4 p).2 with
      | [] => (addressOf (numbers 4 p).1,Option.some ([],8 * (numbers 4 p).1.length))
      | c :: m =>
        if Option.some c = endc ∧ m ≠ [] then
          (addressOf (numbers 4 p).1,Option.some (m,8 * (numbers 4 p).1.length))
        else (addressOf (numbers 4 p).1,Option.none) := by
  have loop := scanIpLoop_numbers 4 p 0 8 (Or.inr ⟨rfl,some⟩)
  rw [if_pos ends] at loop
  have positive := length_pos_iff.mpr some
  have masks : 8 + 8 * ((numbers 4 p).1.length - 1) = 8 * (numbers 4 p).1.length := by omega
  rw [masks] at loop
  rw [scanIp,loop]
  cases (numbers 4 p).2 <;> rfl

theorem scanIp_fails (some : (numbers 4 p).1 ≠ []) (legal : endc = Option.none ∨ endc = Option.some 47)
    (goesOn : endsOctets (numbers 4 p).2 = false) :
    scanIp p endc = (shiftIn 0 (numbers 4 p).1,Option.none) := by
  have loop := scanIpLoop_numbers 4 p 0 8 (Or.inr ⟨rfl,some⟩)
  rw [goesOn,if_neg Bool.false_ne_true] at loop
  obtain ⟨left,rest⟩ := loop
  rw [scanIp]
  generalize scanIpLoop 4 p 0 8 = result at left rest ⊢
  obtain ⟨ip,_ | ⟨behind,mask⟩⟩ := result
  · rw [← left]
  obtain rfl := rest behind mask rfl
  cases text : (numbers 4 p).2 with
  | nil => simp [endsOctets,text] at goesOn
  | cons c m =>
    have other : Option.some c ≠ endc := by
      rintro rfl
      obtain isNone | isSlash := legal
      · cases isNone
      · rw [text,Option.some.inj isSlash] at goesOn
        simp [endsOctets] at goesOn
    simpa [other] using left

/-! The mask. -/

theorem maskLoop_topBits {i : UInt32} (small : ¬i > 32) : maskLoop i.toNat 0 0x80000000 = topBits i.toNat := by
  have all : ∀ n : Fin 33, maskLoop n.val 0 0x80000000 = topBits n.val := by decide
  have bound : i.toNat < 33 := by
    have := UInt32.le_iff_toNat_le.mp (UInt32.not_lt.mp small)
    simp at this
    omega
  exact all ⟨i.toNat,bound⟩

theorem scanBits_digits (i : Nat) (digits : m.all (isDigit 10) = true) :
    scanBits m (UInt32.ofNat i) = .bits (UInt32.ofNat (numeralFrom i m)) := by
  induction m generalizing i with
  | nil => rfl
  | cons c m ih =>
    simp only [all_cons,Bool.and_eq_true] at digits
    have next : UInt32.ofNat i * 10 + UInt32.ofNat (c.toNat - 48) = UInt32.ofNat (i * 10 + (c.toNat - 48)) := by
      rw [UInt32.ofNat_add,UInt32.ofNat_mul]
      rfl
    rw [scanBits,if_pos digits.1,next,ih _ digits.2]
    rfl

theorem scanBits_other (i : UInt32) (other : ¬m.all (isDigit 10) = true) :
    ∃ d rest, m.dropWhile (isDigit 10) = d :: rest ∧ ¬isDigit 10 d = true ∧
      scanBits m i = if d = 46 then .dotted else .bad := by
  induction m generalizing i with
  | nil => exact absurd rfl other
  | cons c m ih =>
    by_cases digit : isDigit 10 c = true
    · rw [scanBits,if_pos digit,dropWhile_cons_of_pos digit]
      exact ih _ (by simpa [digit] using other)
    · rw [scanBits,if_neg digit,dropWhile_cons_of_neg digit]
      exact ⟨c,m,rfl,digit,rfl⟩

theorem numberAt_other (m : List UInt8) (other : ¬isDigit 10 d = true) : numberAt (d :: m) = none := by
  simp [numberAt,takeWhile_cons_of_neg other]

theorem numbers_bad (run : m.dropWhile (isDigit 10) = d :: rest) (other : ¬isDigit 10 d = true) (noDot : d ≠ 46) :
    (numbers n m).2 ≠ [] := by
  have some : m ≠ [] := by
    rintro rfl
    cases run
  have stuck (k : Nat) : numbers k (d :: rest) = ([],d :: rest) := by
    cases k <;> simp [numbers,numberAt_other rest other]
  cases n with
  | zero => exact some
  | succ n =>
    simp only [numbers]
    split
    · exact some
    rename_i v behind number
    obtain ⟨_,_,_,rfl⟩ := of_numberAt number
    simp [run,skipDot,noDot,stuck]

theorem numbers_length (p : List UInt8) : (numbers n p).1.length ≤ n := by
  induction n generalizing p with
  | zero => exact le_refl 0
  | succ n ih =>
    rw [numbers]
    split
    · exact zero_le _
    · exact succ_le_succ (ih _)

theorem numbers_small (p : List UInt8) : ∀ v ∈ (numbers n p).1, v ≤ 255 := by
  induction n generalizing p with
  | zero => simp [numbers]
  | succ n ih =>
    rw [numbers]
    split
    · simp
    rename_i v rest number
    obtain ⟨_,small,rfl,_⟩ := of_numberAt number
    exact forall_mem_cons.mpr ⟨not_lt.mp small,ih rest⟩

theorem maskOfBits_eq :
    maskOfBits (UInt32.ofNat n) = if n % 2 ^ 32 ≤ 32 then some (topBits (n % 2 ^ 32)) else none := by
  have value : (UInt32.ofNat n).toNat = n % 2 ^ 32 := UInt32.toNat_ofNat'
  have bound : UInt32.ofNat n > 32 ↔ ¬n % 2 ^ 32 ≤ 32 := by
    rw [gt_iff_lt,UInt32.lt_iff_toNat_lt,value,not_le]
    rfl
  rw [maskOfBits]
  split
  · rename_i large
    rw [if_neg (bound.mp large)]
  · rename_i small
    rw [if_pos (by simpa [bound] using small),maskLoop_topBits small,value]

theorem maskOfBits_small {n : Nat} (small : n ≤ 32) : maskOfBits (UInt32.ofNat n) = some (topBits n) := by
  rw [maskOfBits_eq,mod_eq_of_lt (by omega),if_pos small]

theorem scanIpMask_dotted (some : m ≠ []) :
    (match scanIp m none with
      | (mask,Option.some (_,32)) => Option.some mask
      | _ => none) =
      if (numbers 4 m).1.length = 4 ∧ (numbers 4 m).2 = [] then Option.some (addressOf (numbers 4 m).1) else none := by
  by_cases none : (numbers 4 m).1 = []
  · simp [scanIp_none some none,none]
  cases ends : endsOctets (numbers 4 m).2 with
  | false =>
    have behind : (numbers 4 m).2 ≠ [] := by
      intro nothing
      simp [nothing,endsOctets] at ends
    simp [scanIp_fails none (Or.inl rfl) ends,behind]
  | true =>
    rw [scanIp_ends none Option.none ends]
    cases (numbers 4 m).2 with
    | cons c rest => simp
    | nil =>
      by_cases four : (numbers 4 m).1.length = 4
      · simp [four]
      · have other : 8 * (numbers 4 m).1.length ≠ 32 := by omega
        simp [four,other]

/-! The address is zero when its numbers are. -/

theorem shiftIn_one_toNat (v : Nat) (room : ip.toNat < 2 ^ 24) (small : v ≤ 255) :
    (ip <<< 8 ||| UInt32.ofNat v).toNat = ip.toNat * 256 + v := by
  have value : (UInt32.ofNat v).toNat = v := UInt32.toNat_ofNat_of_lt (lt_of_le_of_lt small (by decide))
  have shifted : (ip <<< 8).toNat = ip.toNat <<< 8 := by
    rw [UInt32.toNat_shiftLeft]
    simp only [UInt32.reduceToNat,reduceMod,shiftLeft_eq]
    omega
  rw [UInt32.toNat_or,value,shifted,← shiftLeft_add_eq_or_of_lt (by omega),shiftLeft_eq]

theorem shiftIn_eq_zero (vs : List Nat) (k : Nat) (small : ∀ v ∈ vs, v ≤ 255)
    (few : k + vs.length ≤ 4) (room : ip.toNat < 256 ^ k) : shiftIn ip vs = 0 ↔ ip = 0 ∧ ∀ v ∈ vs, v = 0 := by
  induction vs generalizing ip k with
  | nil => simp [shiftIn]
  | cons v vs ih =>
    have one : v ≤ 255 := small v (.head _)
    rw [length_cons] at few
    have bound : 256 ^ k ≤ 2 ^ 24 := Nat.pow_le_pow_right (by decide) (by omega : k ≤ 3)
    have value := shiftIn_one_toNat ip v (lt_of_lt_of_le room bound) one
    have next : (ip <<< 8 ||| UInt32.ofNat v).toNat < 256 ^ (k + 1) := by
      omega
    have zero : ip <<< 8 ||| UInt32.ofNat v = 0 ↔ ip = 0 ∧ v = 0 := by
      rw [← UInt32.toNat_inj,value,← UInt32.toNat_inj]
      simp only [UInt32.toNat_zero]
      omega
    have rest := ih (ip <<< 8 ||| UInt32.ofNat v) (k + 1) (forall_mem_cons.mp small).2
      (by omega) next
    rw [zero] at rest
    simpa [shiftIn,and_assoc] using rest

theorem shiftIn_numbers_eq_zero (p : List UInt8) : shiftIn 0 (numbers 4 p).1 = 0 ↔ ∀ v ∈ (numbers 4 p).1, v = 0 := by
  have := shiftIn_eq_zero 0 (numbers 4 p).1 0 (numbers_small 4 p) (by simpa using numbers_length 4 p) (by decide)
  simpa using this

theorem addressOf_numbers_eq_zero (p : List UInt8) : addressOf (numbers 4 p).1 = 0 ↔ ∀ v ∈ (numbers 4 p).1, v = 0 := by
  have few := numbers_length 4 p
  have zeros (v : Nat) (member : v ∈ replicate (4 - (numbers 4 p).1.length) 0) : v = 0 := eq_of_mem_replicate member
  have small := forall_mem_append.mpr ⟨numbers_small 4 p,fun v member => (zeros v member).trans_le (zero_le _)⟩
  rw [addressOf,shiftIn_eq_zero 0 _ 0 small (by simp; omega) (by decide),forall_mem_append]
  exact ⟨fun all => all.2.1,fun zero => ⟨rfl,zero,zeros⟩⟩

/-! The line. -/

theorem maskOfBits_numeral (digits : m.all (isDigit 10) = true) :
    scanBits m 0 = .bits (UInt32.ofNat (numeral m)) ∧
      maskOfBits (UInt32.ofNat (numeral m)) =
        if numeral m % 2 ^ 32 ≤ 32 then some (topBits (numeral m % 2 ^ 32)) else none :=
  ⟨scanBits_digits 0 digits,maskOfBits_eq _⟩

theorem scanIpMask_slash (some : (numbers 4 p).1 ≠ []) (behind : (numbers 4 p).2 = 47 :: m) (long : m ≠ []) :
    scanIpMask p =
      (addressOf (numbers 4 p).1,
        if m.all (isDigit 10) then
          if numeral m % 2 ^ 32 ≤ 32 then Option.some (topBits (numeral m % 2 ^ 32)) else none
        else if (numbers 4 m).1.length = 4 ∧ (numbers 4 m).2 = [] then Option.some (addressOf (numbers 4 m).1)
        else none) := by
  have address := scanIp_ends some (Option.some 47) (by rw [behind]; rfl)
  rw [behind] at address
  simp only [ne_eq,long,not_false_eq_true,and_self,if_true] at address
  rw [scanIpMask,address]
  obtain ⟨c,m,rfl⟩ := exists_cons_of_ne_nil long
  by_cases digits : (c :: m).all (isDigit 10) = true
  · obtain ⟨bits,mask⟩ := maskOfBits_numeral digits
    rw [if_pos digits,← mask]
    simp only [bits]
  · obtain ⟨d,rest,run,noDigit,decided⟩ := scanBits_other 0 digits
    rw [if_neg digits]
    simp only [decided]
    by_cases dot : d = 46
    · rw [← scanIpMask_dotted long]
      simp only [dot,if_true]
      rcases scanIp (c :: m) none with ⟨mask,_ | ⟨rest,bits⟩⟩
      · rfl
      by_cases full : bits = 32
      · subst full
        rfl
      · simp [full]
    · have stuck := numbers_bad 4 run noDigit dot
      rw [if_neg (fun both : _ ∧ _ => stuck both.2)]
      simp [dot]

theorem scanIpMask_range {ip mask : UInt32} (rule : readRule p = .range ip mask) :
    scanIpMask p = (ip,Option.some mask) := by
  simp only [readRule] at rule
  split at rule
  · cases rule
  split at rule
  · cases rule
  rename_i some
  split at rule
  · rename_i mask' read
    obtain ⟨rfl,rfl⟩ := Rule.range.inj rule
    cases behind : (numbers 4 p).2 with
    | nil =>
      rw [behind,readMask] at read
      have address := scanIp_ends some (Option.some 47) (by rw [behind]; rfl)
      rw [behind] at address
      have few := numbers_length 4 p
      simp only [scanIpMask,address,maskOfBits_small (show 8 * (numbers 4 p).1.length ≤ 32 by omega),read]
    | cons c m =>
      rw [behind,readMask] at read
      split at read
      · cases read
      rename_i good
      rw [not_or,not_not] at good
      obtain ⟨rfl,long⟩ := good
      rw [scanIpMask_slash some behind long]
      split at read
      · rename_i digits
        rw [if_pos digits]
        split at read
        · rename_i small
          rw [mod_eq_of_lt (by omega),if_pos small,read]
        · cases read
      · rename_i other
        rw [if_neg other,read]
  · cases rule

theorem scanIpMask_malformed (some : p ≠ []) (rule : readRule p = .malformed) :
    match overflow p with
    | Option.some (ip,mask) => scanIpMask p = (ip,Option.some mask)
    | none => (scanIpMask p).2 = none ∧ ((scanIpMask p).1 = 0 ↔ ∀ v ∈ (numbers 4 p).1, v = 0) := by
  by_cases none : (numbers 4 p).1 = []
  · have noOverflow : overflow p = Option.none := by
      rw [overflow]
      split <;> simp [none]
    have failed : scanIpMask p = (0,Option.none) := by simp only [scanIpMask,scanIp_none some none]
    rw [noOverflow]
    simp [failed,none]
  have noMask : readMask (numbers 4 p).1.length (numbers 4 p).2 = Option.none := by
    simp only [readRule,none,if_false] at rule
    split at rule
    · cases rule
    split at rule
    · cases rule
    · assumption
  cases behind : (numbers 4 p).2 with
  | nil =>
    rw [behind,readMask] at noMask
    cases noMask
  | cons c m =>
    by_cases isSlash : c = 47
    · subst isSlash
      by_cases long : m = []
      · have noOverflow : overflow p = Option.none := by simp [overflow,behind,long]
        have address := scanIp_ends none (Option.some 47) (by rw [behind]; rfl)
        have failed : scanIpMask p = (addressOf (numbers 4 p).1,Option.none) := by
          simp only [scanIpMask,address,behind,long]
          rfl
        rw [noOverflow,failed]
        exact ⟨rfl,addressOf_numbers_eq_zero p⟩
      · rw [scanIpMask_slash none behind long]
        rw [behind,readMask,if_neg (by simp [long])] at noMask
        split at noMask
        · rename_i digits
          have large : 32 < numeral m := by
            by_contra small
            cases (if_pos (not_lt.mp small)).symm.trans noMask
          rw [if_pos digits]
          by_cases wraps : numeral m % 2 ^ 32 ≤ 32
          · have isOverflow : overflow p =
                Option.some (addressOf (numbers 4 p).1,topBits (numeral m % 2 ^ 32)) := by
              simp only [overflow,behind,ne_eq,none,long,digits,large,wraps,not_false_eq_true,and_self,if_true]
            rw [isOverflow,if_pos wraps]
          · have noOverflow : overflow p = Option.none := by
              simp only [overflow,behind,wraps,and_false,if_false]
            rw [noOverflow,if_neg wraps]
            exact ⟨rfl,addressOf_numbers_eq_zero p⟩
        · rename_i other
          have noOverflow : overflow p = Option.none := by
            simp [overflow,behind,other,Bool.false_eq_true,false_and,and_false]
          rw [noOverflow,if_neg other,noMask]
          exact ⟨rfl,addressOf_numbers_eq_zero p⟩
    · have goesOn : endsOctets (numbers 4 p).2 = false := by simp [behind,endsOctets,isSlash]
      have noOverflow : overflow p = Option.none := by simp [overflow,behind,isSlash]
      have failed : scanIpMask p = (shiftIn 0 (numbers 4 p).1,Option.none) := by
        simp only [scanIpMask,scanIp_fails none (Or.inr rfl) goesOn]
      rw [noOverflow,failed]
      exact ⟨rfl,shiftIn_numbers_eq_zero p⟩

end Stablebox.Httpd
