import Mathlib.Tactic.Ring
import Stablebox.Archival.Unlzma

/-! The range decoder can be led anywhere: for every sequence of decisions there is an
input that makes it take them. An input is found from its end, since every code that is
to be left comes from some code and some bytes. -/
namespace Stablebox.Unlzma

open List Function Nat

variable {α β : Type}

/-- From a range of at least `small`, some input makes the computation return `a`, whatever
code is to be left and whatever input follows. -/
def LeadsFrom (small : Nat) (m : Decode α) (a : α) (left : Nat) : Prop :=
  ∀ range p, small ≤ range → range < 2 ^ 32 → ∃ rangeAfter pAfter, left ≤ rangeAfter ∧ rangeAfter < 2 ^ 32 ∧
    ∀ codeAfter rest, codeAfter < rangeAfter → ∃ code bytes, code < range ∧
      ∀ bound, ∃ boundAfter, m ⟨code,range,bound,p,bytes ++ rest⟩ =
        .ok (a,⟨codeAfter,rangeAfter,boundAfter,pAfter,rest⟩)

def Leads (m : Decode α) (a : α) : Prop := LeadsFrom (2 ^ 16) m a (2 ^ 16)

theorem LeadsFrom.bind (first : LeadsFrom small m a middle) (second : LeadsFrom middle (f a) b left) :
    LeadsFrom small (m >>= f) b left := by
  intro range p low high
  obtain ⟨range₁,p₁,low₁,high₁,first⟩ := first range p low high
  obtain ⟨range₂,p₂,low₂,high₂,second⟩ := second range₁ p₁ low₁ high₁
  refine ⟨range₂,p₂,low₂,high₂,fun code₂ rest inside₂ => ?_⟩
  obtain ⟨code₁,bytes₁,inside₁,second⟩ := second code₂ rest inside₂
  obtain ⟨code,bytes,inside,first⟩ := first code₁ (bytes₁ ++ rest) inside₁
  refine ⟨code,bytes ++ bytes₁,inside,fun bound => ?_⟩
  obtain ⟨bound₁,first⟩ := first bound
  obtain ⟨bound₂,second⟩ := second bound₁
  refine ⟨bound₂,?_⟩
  rw [append_assoc]
  show (m _ >>= fun r => f r.1 r.2) = _
  rw [first]
  exact second

theorem Leads.bind (first : Leads m a) (second : Leads (f a) b) :
    Leads (m >>= f) b := LeadsFrom.bind first second

theorem leads_pure (a : α) : Leads (pure a) a :=
  fun range p low high => ⟨range,p,low,high,fun code _ inside => ⟨code,[],inside,fun bound => ⟨bound,rfl⟩⟩⟩

theorem shift_in (code byte : Nat) (small : code < 2 ^ 24) (low : byte < 2 ^ 8) :
    (code <<< 8 % 2 ^ 32) ||| byte = code * 256 + byte := by
  have shifted : code <<< 8 = code * 256 := shiftLeft_eq code 8
  rw [mod_eq_of_lt (by omega),← shiftLeft_add_eq_or_of_lt low,shifted]

theorem leads_normalize : LeadsFrom (2 ^ 16) rcNormalize () (2 ^ 24) := by
  intro range p low high
  by_cases short : range < 1 <<< 24
  · have shifted : range <<< 8 % 2 ^ 32 = range * 256 := by
      omega
    refine ⟨range * 256,p,by omega,by omega,fun code rest inside => ?_⟩
    refine ⟨code / 256,[UInt8.ofNat (code % 256)],by omega,fun bound => ⟨bound,?_⟩⟩
    have byte : (UInt8.ofNat (code % 256)).toNat = code % 256 := by
      rw [UInt8.toNat_ofNat']
      omega
    have joined := shift_in (code / 256) (code % 256) (by omega) (by omega)
    simp only [rcNormalize,if_pos short,rcDoNormalize,singleton_append,shifted,byte,joined]
    rw [Nat.div_add_mod' code 256]
  · have large : 2 ^ 24 ≤ range := Nat.le_of_not_lt short
    refine ⟨range,p,large,high,fun code rest inside => ⟨code,[],inside,fun bound => ⟨bound,?_⟩⟩⟩
    simp only [rcNormalize,if_neg short,nil_append]

theorem bound_inside (p : Prob) {range : Nat} (low : 2 ^ 24 ≤ range) (high : range < 2 ^ 32) :
    p.val * (range >>> 11) % 2 ^ 32 = p.val * (range >>> 11) ∧ 2 ^ 16 ≤ p.val * (range >>> 11) ∧
      2 ^ 16 + p.val * (range >>> 11) ≤ range := by
  have least := p.low
  have most := p.high
  have part : range >>> 11 = range / 2048 := shiftRight_eq_div_pow range 11
  have lower : 31 * (range / 2048) ≤ p.val * (range / 2048) := mul_le_mul_right _ least
  have upper : p.val * (range / 2048) ≤ 2017 * (range / 2048) := mul_le_mul_right _ most
  rw [part]
  refine ⟨mod_eq_of_lt (by omega),by omega,by omega⟩

def bitAfter (prob : Nat) : Decode Bool := fun rc =>
  let bound := (rc.p prob).val * (rc.range >>> 11) % 2 ^ 32
  if rc.code < bound then
    .ok (false,⟨rc.code,bound,bound,update rc.p prob (rc.p prob).raise,rc.input⟩)
  else
    .ok (true,⟨rc.code - bound,rc.range - bound,bound,update rc.p prob (rc.p prob).lower,rc.input⟩)

variable (prob : Nat)

theorem rcBit_eq : rcBit prob = rcNormalize >>= fun _ => bitAfter prob := by
  funext rc
  show _ = (rcNormalize rc >>= fun r => bitAfter prob r.2)
  rw [show rcBit prob rc = (rcIsBit0 prob rc >>= fun r => _) from rfl,
    show rcIsBit0 prob rc = (rcNormalize rc >>= fun r => _) from rfl]
  cases rcNormalize rc with
  | error e => rfl
  | ok result =>
    obtain ⟨_,rc⟩ := result
    show (if decide (rc.code < (rc.p prob).val * (rc.range >>> 11) % 2 ^ 32) then _ else _ : Decode Bool)
      { rc with bound := (rc.p prob).val * (rc.range >>> 11) % 2 ^ 32 } = bitAfter prob rc
    by_cases zero : rc.code < (rc.p prob).val * (rc.range >>> 11) % 2 ^ 32
    · simp only [bitAfter,zero,decide_true,if_true]
      rfl
    · simp only [bitAfter,zero,decide_false,if_false,Bool.false_eq_true]
      rfl

theorem leads_bit (bit : Bool) : Leads (rcBit prob) bit := by
  rw [rcBit_eq]
  refine leads_normalize.bind ?_
  intro range p low high
  obtain ⟨exactly,above,below⟩ := bound_inside (p prob) low high
  cases bit with
  | false =>
    refine ⟨_,update p prob (p prob).raise,above,by omega,fun code rest inside => ?_⟩
    refine ⟨code,[],by omega,fun bound => ⟨(p prob).val * (range >>> 11),?_⟩⟩
    simp only [bitAfter,exactly,if_pos inside,nil_append]
  | true =>
    refine ⟨range - (p prob).val * (range >>> 11),update p prob (p prob).lower,by omega,by omega,
      fun code rest inside => ?_⟩
    refine ⟨code + (p prob).val * (range >>> 11),[],by omega,fun bound => ⟨(p prob).val * (range >>> 11),?_⟩⟩
    have upper : ¬ code + (p prob).val * (range >>> 11) < (p prob).val * (range >>> 11) := by omega
    simp only [bitAfter,exactly,if_neg upper,nil_append,Nat.add_sub_cancel]

def directAfter : Decode Nat := fun rc =>
  if rc.code ≥ rc.range >>> 1 then .ok (1,{ rc with range := rc.range >>> 1, code := rc.code - rc.range >>> 1 })
  else .ok (0,{ rc with range := rc.range >>> 1 })

theorem rcDirectBit_eq : rcDirectBit = rcNormalize >>= fun _ => directAfter := by
  funext rc
  show _ = (rcNormalize rc >>= fun r => directAfter r.2)
  rw [show rcDirectBit rc = (rcNormalize rc >>= fun r => _) from rfl]
  cases rcNormalize rc with
  | error e => rfl
  | ok result =>
    obtain ⟨_,rc⟩ := result
    show (if rc.code ≥ rc.range >>> 1 then _ else _ : Decode Nat) { rc with range := rc.range >>> 1 } = directAfter rc
    by_cases one : rc.code ≥ rc.range >>> 1
    · simp only [directAfter,if_pos one]
      rfl
    · simp only [directAfter,if_neg one]
      rfl

theorem leads_directBit (bit : Bool) : Leads rcDirectBit bit.toNat := by
  rw [rcDirectBit_eq]
  refine leads_normalize.bind ?_
  intro range p low high
  cases bit with
  | false =>
    refine ⟨range >>> 1,p,by omega,by omega,fun code rest inside => ?_⟩
    refine ⟨code,[],by omega,fun bound => ⟨bound,?_⟩⟩
    simp only [directAfter,if_neg (Nat.not_le_of_lt inside),nil_append,Bool.toNat_false]
  | true =>
    refine ⟨range >>> 1,p,by omega,by omega,fun code rest inside => ?_⟩
    refine ⟨code + range >>> 1,[],by omega,fun bound => ⟨bound,?_⟩⟩
    simp [directAfter,nil_append,Bool.toNat_true]

theorem leads_getBit (symbol : Nat) (bit : Bool) : Leads (rcGetBit prob symbol) (bit,symbol * 2 + bit.toNat) :=
  (leads_bit prob bit).bind (leads_pure _)

theorem value_split (n v : Nat) (small : v < 2 ^ (n + 1)) :
    ∃ (bit : Bool) (rest : Nat), rest < 2 ^ n ∧ v = bit.toNat * 2 ^ n + rest := by
  by_cases high : v < 2 ^ n
  · exact ⟨false,v,high,by simp⟩
  refine ⟨true,v - 2 ^ n,by omega,?_⟩
  simp only [Bool.toNat_true]
  omega

theorem leads_bitTree (n symbol v : Nat) (small : v < 2 ^ n) :
    Leads (rcBitTree prob n symbol) (symbol * 2 ^ n + v) := by
  induction n generalizing symbol v with
  | zero =>
    have zero : v = 0 := by omega
    subst zero
    rw [pow_zero,mul_one]
    exact leads_pure symbol
  | succ n ih =>
    obtain ⟨bit,rest,inside,rfl⟩ := value_split n v small
    have later := ih (symbol * 2 + bit.toNat) rest inside
    rw [show symbol * 2 ^ (n + 1) + (bit.toNat * 2 ^ n + rest) = (symbol * 2 + bit.toNat) * 2 ^ n + rest by ring]
    exact (leads_getBit (prob + symbol) symbol bit).bind later

theorem leads_bitTreeDecode (n v : Nat) (small : v < 2 ^ n) : Leads (rcBitTreeDecode prob n) v := by
  have tree := leads_bitTree prob n 1 v small
  refine tree.bind ?_
  have value : 1 * 2 ^ n + v - 1 <<< n = v := by
    omega
  rw [value]
  exact leads_pure v

theorem leads_plainBits (n mi v : Nat) (most : n ≤ 8) (early : mi < 2 ^ (9 - n)) (small : v < 2 ^ n) :
    Leads (plainBits prob n mi) (mi * 2 ^ n + v) := by
  induction n generalizing mi v with
  | zero =>
    have zero : v = 0 := by omega
    subst zero
    rw [pow_zero,mul_one]
    exact leads_pure mi
  | succ n ih =>
    have power : 2 ^ (9 - n) = 2 ^ (9 - (n + 1)) * 2 := by
      rw [← pow_succ]
      congr 1
      omega
    have top : 2 ^ (9 - (n + 1)) ≤ 2 ^ 8 := Nat.pow_le_pow_right (by decide) (by omega)
    obtain ⟨bit,rest,inside,rfl⟩ := value_split n v small
    have one := bit.toNat_le
    have later := ih (mi * 2 + bit.toNat) rest (by omega) (by omega) inside
    rw [plainBits,if_pos (by omega),
      show mi * 2 ^ (n + 1) + (bit.toNat * 2 ^ n + rest) = (mi * 2 + bit.toNat) * 2 ^ n + rest by ring]
    exact (leads_getBit (prob + mi) mi bit).bind later

theorem leads_directBits (n rep0 v : Nat) (small : v < 2 ^ n) (fits : rep0 * 2 ^ n + v < 2 ^ 32) :
    Leads (directBits n rep0) (rep0 * 2 ^ n + v) := by
  induction n generalizing rep0 v with
  | zero =>
    have zero : v = 0 := by omega
    subst zero
    rw [pow_zero,mul_one]
    exact leads_pure rep0
  | succ n ih =>
    obtain ⟨bit,rest,inside,rfl⟩ := value_split n v small
    have shape : rep0 * 2 ^ (n + 1) + (bit.toNat * 2 ^ n + rest) = (rep0 * 2 + bit.toNat) * 2 ^ n + rest := by ring
    have one := bit.toNat_le
    have positive := Nat.two_pow_pos n
    have below : rep0 * 2 + bit.toNat < 2 ^ 32 := by
      have := Nat.le_mul_of_pos_right (rep0 * 2 + bit.toNat) positive
      omega
    have joined : (rep0 <<< 1 % 2 ^ 32) ||| bit.toNat = rep0 * 2 + bit.toNat := by
      have shifted : rep0 <<< 1 = rep0 * 2 := shiftLeft_eq rep0 1
      have low : bit.toNat < 2 ^ 1 := by omega
      rw [mod_eq_of_lt (by omega),← shiftLeft_add_eq_or_of_lt low,shifted]
    rw [shape] at fits ⊢
    have later := ih (rep0 * 2 + bit.toNat) rest inside fits
    rw [← joined] at later ⊢
    exact (leads_directBit bit).bind later

theorem leads_reverseBits (n j mi rep0 v : Nat) (small : v < 2 ^ n) :
    Leads (reverseBits prob n (1 <<< j) mi rep0) (rep0 ||| v <<< j) := by
  induction n generalizing j mi rep0 v with
  | zero =>
    have zero : v = 0 := by omega
    subst zero
    rw [zero_shiftLeft,or_zero]
    exact leads_pure rep0
  | succ n ih =>
    obtain ⟨bit,low⟩ : ∃ bit : Bool, v % 2 = bit.toNat := by
      rcases mod_two_eq_zero_or_one v with zero | one
      · exact ⟨false,zero⟩
      · exact ⟨true,one⟩
    have later := ih (j + 1) (mi * 2 + bit.toNat) (if bit then rep0 ||| 1 <<< j else rep0) (v / 2)
      (by rw [pow_succ] at small; omega)
    have digits : v <<< j = bit.toNat <<< j ||| (v / 2) <<< (j + 1) := by
      have first : bit.toNat < 2 ^ 1 := by have := bit.toNat_le; omega
      have whole : v = (v / 2) <<< 1 ||| bit.toNat := by
        rw [← shiftLeft_add_eq_or_of_lt first,shiftLeft_eq]
        omega
      rw [add_comm j 1,Nat.shiftLeft_add,← Nat.shiftLeft_or_distrib,Nat.or_comm,← whole]
    have value : (if bit then rep0 ||| 1 <<< j else rep0) ||| (v / 2) <<< (j + 1) = rep0 ||| v <<< j := by
      rw [digits,← Nat.or_assoc]
      cases bit with
      | false => simp
      | true => simp
    rw [value] at later
    refine (leads_getBit (prob + mi) mi bit).bind ?_
    rwa [Nat.shiftLeft_add] at later

theorem leads_matchLen (posState : Nat) (short : len < 8) : Leads (matchLen prob posState) len :=
  (leads_bit _ false).bind (leads_bitTreeDecode _ 3 len short)

theorem leads_matchDistance (len distance : Nat) (large : 2 ^ 31 ≤ distance) (small : distance < 2 ^ 32) :
    Leads (matchDistance len) distance := by
  obtain ⟨slot,top,isSlot⟩ : ∃ slot top, distance / 2 ^ 30 = top ∧
      (slot = 62 ∧ top = 2 ∨ slot = 63 ∧ top = 3) := by
    rcases lt_or_ge distance (3 * 2 ^ 30) with below | above
    · exact ⟨62,2,by omega,.inl ⟨rfl,rfl⟩⟩
    · exact ⟨63,3,by omega,.inr ⟨rfl,rfl⟩⟩
  have bits : slot ≥ startPosModelIndex ∧ ¬ slot < endPosModelIndex ∧ slot < 64 ∧ 2 ||| (slot &&& 1) = top ∧
      slot >>> 1 - 1 - numAlignBits = 26 := by
    rcases isSlot.2 with ⟨rfl,rfl⟩ | ⟨rfl,rfl⟩ <;> decide
  obtain ⟨coded,direct,inside,first,count⟩ := bits
  refine (leads_bitTreeDecode _ numPosSlotBits slot inside).bind ?_
  rw [if_pos coded,if_neg direct]
  simp only [first,count]
  refine (leads_directBits 26 top (distance / 16 % 2 ^ 26) (by omega) (by omega)).bind ?_
  have tail := leads_reverseBits align numAlignBits 0 1
    ((top * 2 ^ 26 + distance / 16 % 2 ^ 26) <<< numAlignBits % 2 ^ 32) (distance % 16) (mod_lt _ (by decide))
  have value : (top * 2 ^ 26 + distance / 16 % 2 ^ 26) <<< numAlignBits % 2 ^ 32 ||| (distance % 16) <<< 0 =
      distance := by
    have low : distance % 16 < 2 ^ 4 := by omega
    have shifted : (top * 2 ^ 26 + distance / 16 % 2 ^ 26) <<< numAlignBits =
        (top * 2 ^ 26 + distance / 16 % 2 ^ 26) * 16 := shiftLeft_eq ..
    rw [shiftLeft_zero,mod_eq_of_lt (by omega),← shiftLeft_add_eq_or_of_lt low,shifted]
    omega
  rwa [value] at tail

end Stablebox.Unlzma
