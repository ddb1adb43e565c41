import Mathlib.Tactic.IntervalCases
import Stablebox.Archival.UnlzmaDictionary

/-! Where `unlzma` goes in its two arrays, and how much it writes. -/
namespace Stablebox.Unlzma

open List Nat

/-! ### Computations that stay in the probabilities -/

/-- The computation uses only probabilities below `n`, fails for other reasons than the end of the input only as
allowed, and returns what `holds` says. -/
inductive Uses (n : Nat) (allowed : Failure → Prop) : {α : Type} → Decode α → (α → Prop) → Prop where
  | pure {α : Type} {holds : α → Prop} {a : α} (here : holds a) : Uses n allowed (Pure.pure a) holds
  | bit {prob : Nat} (inside : prob < n) : Uses n allowed (rcBit prob) fun _ => True
  | direct : Uses n allowed rcDirectBit fun _ => True
  | lift {α : Type} {holds : α → Prop} {x : Except Failure α} (fails : ∀ e, x = .error e → allowed e)
      (here : ∀ a, x = .ok a → holds a) : Uses n allowed (liftM x) holds
  | bind {α β : Type} {middle : α → Prop} {holds : β → Prop} {m : Decode α} {f : α → Decode β}
      (first : Uses n allowed m middle) (second : ∀ a, middle a → Uses n allowed (f a) holds) :
      Uses n allowed (m >>= f) holds

section

variable {α : Type} {allowed : Failure → Prop}

theorem normalize_within (rc : Rc) :
    Within (fun e => e = unexpectedEof ∨ allowed e) (fun _ => True) (rcNormalize rc) := by
  refine ⟨fun e fails => ?_,fun _ _ => trivial⟩
  unfold rcNormalize rcDoNormalize at fails
  split at fails
  · split at fails
    · cases fails
      exact .inl rfl
    · cases fails
  · cases fails

variable {holds : α → Prop}

theorem Uses.run (uses : Uses n allowed m holds) (rc : Rc) :
    Within (fun e => e = unexpectedEof ∨ allowed e) (fun result => holds result.1) (m rc) := by
  induction uses generalizing rc with
  | pure here => exact .ok here
  | @bit prob _ =>
    rw [rcBit_eq]
    refine (normalize_within rc).bind fun result _ => ?_
    unfold bitAfter
    dsimp only
    split <;> exact .ok trivial
  | direct =>
    rw [rcDirectBit_eq]
    refine (normalize_within rc).bind fun result _ => ?_
    show Within _ _ (directAfter result.2)
    unfold directAfter
    split <;> exact .ok trivial
  | @lift _ _ x fails here =>
    cases x with
    | error e =>
      refine ⟨fun other same => ?_,fun a done => (by cases done)⟩
      cases same
      exact .inr (fails e rfl)
    | ok a => exact .ok (here a rfl)
  | bind _ _ ihFirst ihSecond => exact (ihFirst rc).bind fun result here => ihSecond result.1 here result.2

theorem Uses.weaken {weaker : α → Prop} (uses : Uses n allowed m holds)
    (implies : ∀ a, holds a → weaker a) : Uses n allowed m weaker := by
  have bound : Uses n allowed (m >>= Pure.pure) weaker := uses.bind fun a here => .pure (implies a here)
  rwa [bind_pure] at bound

/-! ### The parts of a symbol -/

theorem uses_getBit {symbol : Nat} (inside : prob < n) :
    Uses n allowed (rcGetBit prob symbol) fun result => result.2 = symbol * 2 + result.1.toNat :=
  .bind (.bit inside) fun _ _ => .pure rfl

theorem uses_bitTree (i j symbol : Nat) (low : 2 ^ j ≤ symbol) (high : symbol < 2 ^ (j + 1))
    (room : prob + 2 ^ (j + i) ≤ n) :
    Uses n allowed (rcBitTree prob i symbol) fun result => 2 ^ (j + i) ≤ result ∧ result < 2 ^ (j + i + 1) := by
  induction i generalizing j symbol with
  | zero => exact .pure ⟨low,high⟩
  | succ i ih =>
    have more : 2 ^ (j + 1) ≤ 2 ^ (j + (i + 1)) := Nat.pow_le_pow_right (by decide) (by omega)
    refine .bind (uses_getBit (by omega)) fun result value => ?_
    have bit := Bool.toNat_le result.1
    rw [← add_assoc,add_right_comm] at room ⊢
    exact ih (j + 1) result.2 (by rw [pow_succ]; omega) (by rw [pow_succ,pow_succ]; omega) room

theorem uses_bitTreeDecode (room : prob + 2 ^ levels ≤ n) :
    Uses n allowed (rcBitTreeDecode prob levels) (· < 2 ^ levels) := by
  refine .bind (uses_bitTree levels 0 1 (by decide) (by decide) (by rwa [zero_add])) fun symbol bounds => .pure ?_
  rw [zero_add,pow_succ] at bounds
  omega

theorem uses_plainBits (left mi : Nat) (room : prob + 0x100 ≤ n) :
    Uses n allowed (plainBits prob left mi) fun _ => True := by
  induction left generalizing mi with
  | zero => exact .pure trivial
  | succ left ih =>
    rw [plainBits]
    split
    · exact .bind (uses_getBit (by omega)) fun result _ => ih result.2
    · exact .pure trivial

theorem uses_matchedBits (left matchByte mi : Nat) (small : mi < 0x100) (room : prob + 0x300 ≤ n) :
    Uses n allowed (matchedBits prob left matchByte mi) fun _ => True := by
  induction left generalizing matchByte mi with
  | zero => exact .pure trivial
  | succ left ih =>
    have bit : matchByte <<< 1 &&& 0x100 ≤ 0x100 := Nat.and_le_right
    refine .bind (uses_getBit (by omega)) fun result _ => ?_
    dsimp only
    split
    · exact .pure trivial
    split
    · exact ih _ _ ‹_›
    · exact .pure trivial

theorem uses_matchLen (small : posState < 16) (room : prob + numLenProbs ≤ n) :
    Uses n allowed (matchLen prob posState) fun _ => True := by
  have total : numLenProbs = 514 := rfl
  refine .bind (.bit (by change prob + 0 < n; omega)) fun choice _ => ?_
  split
  · refine .bind (.bit (by change prob + 1 < n; omega)) fun choice _ => ?_
    split
    · exact .bind (uses_bitTreeDecode (by change prob + 258 + 2 ^ 8 ≤ n; omega)) fun _ _ => .pure trivial
    · exact .bind (uses_bitTreeDecode (by change prob + 130 + posState <<< 3 + 2 ^ 3 ≤ n; omega)) fun _ _ =>
        .pure trivial
  · exact (uses_bitTreeDecode (by change prob + 2 + posState <<< 3 + 2 ^ 3 ≤ n; omega)).weaken fun _ _ => trivial

theorem uses_directBits (numBits rep0 : Nat) : Uses n allowed (directBits numBits rep0) fun _ => True := by
  induction numBits generalizing rep0 with
  | zero => exact .pure trivial
  | succ numBits ih => exact .bind .direct fun bit _ => ih _

theorem uses_reverseBits (numBits j i mi rep0 : Nat) (high : mi < 2 ^ (j + 1)) (room : prob + 2 ^ (j + numBits) ≤ n) :
    Uses n allowed (reverseBits prob numBits i mi rep0) fun _ => True := by
  induction numBits generalizing j i mi rep0 with
  | zero => exact .pure trivial
  | succ numBits ih =>
    have more : 2 ^ (j + 1) ≤ 2 ^ (j + (numBits + 1)) := Nat.pow_le_pow_right (by decide) (by omega)
    refine .bind (uses_getBit (by omega)) fun result value => ?_
    have bit := Bool.toNat_le result.1
    rw [← add_assoc,add_right_comm] at room
    exact ih (j + 1) _ result.2 _ (by rw [pow_succ]; omega) room

theorem uses_matchDistance (len : Nat) (room : literalProbs ≤ n) :
    Uses n allowed (matchDistance len) fun _ => True := by
  have places : literalProbs = 1846 := rfl
  have states : numLenToPosStates = 4 := rfl
  have state : (if len < numLenToPosStates then len else numLenToPosStates - 1) ≤ 3 := by
    split <;> omega
  refine .bind (uses_bitTreeDecode ?_) fun slot small => ?_
  · rw [shiftLeft_eq]
    change 432 + _ * 2 ^ 6 + 2 ^ 6 ≤ n
    omega
  · split
    · split
      · refine uses_reverseBits _ 0 1 1 _ (by decide) (le_trans ?_ room)
        interval_cases slot <;> decide
      · refine .bind (uses_directBits _ _) fun rep0 _ => ?_
        exact uses_reverseBits _ 0 1 1 _ (by decide) (le_trans (by decide) room)
    · exact .pure trivial

end

/-! ### A symbol -/

def Header.numProbs (h : Header) : Nat := literalProbs + litSize <<< (h.lc + h.lp)

structure Header.Small (h : Header) : Prop where
  lc : h.lc < 9
  lp : h.lp < 5
  pb : h.pb < 5

/-- A window in which one more byte can be put when it is ready; then it is filled, and ready again if there is room. -/
structure Guarded {σ : Type} (h : Header) (w : Window σ) (allowed : Failure → Prop) (ready filled : σ → Prop) :
    Prop where
  peekFails : ∀ a rep0 e, ready a → w.peek a rep0 = .error e → allowed e
  putFails : ∀ a byte e, ready a → w.put a byte = .error e → allowed e
  put : ∀ a byte b, ready a → w.put a byte = .ok b → filled b
  roomFails : ∀ b e, filled b → w.room b = .error e → allowed e
  room : ∀ b, filled b → w.room b = .ok true → ready b
  more : ∀ b, filled b → w.position b < h.dstSize → ready b

section

variable {σ : Type} {h : Header} {w : Window σ} {allowed : Failure → Prop} {ready filled : σ → Prop}

theorem mask_lt (position : Nat) {bits : Nat} (few : bits < 5) : position &&& (1 <<< bits - 1) < 16 := by
  have most : position &&& (1 <<< bits - 1) ≤ 1 <<< bits - 1 := Nat.and_le_right
  have power : 1 <<< bits ≤ 2 ^ 4 := by
    rw [Nat.one_shiftLeft]
    exact Nat.pow_le_pow_right (by decide) (by omega)
  omega

theorem literalProb_room (small : h.Small) (position : Nat) (previousByte : UInt8) :
    literalProbs + litSize *
      (((position &&& (1 <<< h.lp - 1)) <<< h.lc) + previousByte.toNat >>> (8 - h.lc)) + litSize ≤
      h.numProbs := by
  have masked : position &&& (1 <<< h.lp - 1) ≤ 2 ^ h.lp - 1 := by
    rw [Nat.one_shiftLeft]
    exact Nat.and_le_right
  have positive := Nat.two_pow_pos h.lp
  have high : previousByte.toNat >>> (8 - h.lc) < 2 ^ h.lc := by
    rw [shiftRight_eq_div_pow,div_lt_iff_lt_mul (Nat.two_pow_pos _),← pow_add,
      show h.lc + (8 - h.lc) = 8 from by have := small.lc; omega]
    exact previousByte.toNat_lt
  have place : ((position &&& (1 <<< h.lp - 1)) <<< h.lc) + previousByte.toNat >>> (8 - h.lc) + 1 ≤
      2 ^ (h.lc + h.lp) := by
    rw [shiftLeft_eq,pow_add,mul_comm (2 ^ h.lc)]
    calc (position &&& (1 <<< h.lp - 1)) * 2 ^ h.lc + previousByte.toNat >>> (8 - h.lc) + 1
        ≤ (2 ^ h.lp - 1) * 2 ^ h.lc + 2 ^ h.lc := by
          have := mul_le_mul_right (2 ^ h.lc) masked
          omega
      _ = 2 ^ h.lp * 2 ^ h.lc := by
          rw [← succ_mul]
          congr 1
          omega
  have scaled := mul_le_mul_left litSize place
  rw [Header.numProbs,shiftLeft_eq litSize]
  rw [mul_succ] at scaled
  omega

def Fine (filled : σ → Prop) (l : Locals σ) : Prop := l.state < numStates ∧ filled l.window

variable {l : Locals σ}

section

variable (guarded : Guarded h w allowed ready filled)

include guarded

theorem uses_put (opened : ready l.window) (byte : UInt8) (small : state < numStates) :
    Uses n allowed (do
      let window ← liftM (w.put l.window byte)
      return { l with window := window, previousByte := byte, state := state } : Decode (Locals σ)) (Fine filled) :=
  .bind (.lift (fun e => guarded.putFails _ _ e opened) fun b => guarded.put _ _ b opened) fun _ full =>
    .pure ⟨small,full⟩

theorem uses_literal (small : h.Small)
    (state : l.state < numStates) (opened : ready l.window) :
    Uses h.numProbs allowed (literal h w l) (Fine filled) := by
  have room := literalProb_room small (w.position l.window) l.previousByte
  have size : litSize = 768 := rfl
  have next : (if l.state < 4 then 0 else if l.state < 10 then l.state - 3 else l.state - 6) < numStates := by
    split
    · omega
    · split <;> omega
  have rest (mi : Nat) : Uses h.numProbs allowed (do
      let mi ← plainBits (literalProbs + litSize * (((w.position l.window &&& (1 <<< h.lp - 1)) <<< h.lc) +
        l.previousByte.toNat >>> (8 - h.lc))) 8 mi
      let previousByte := UInt8.ofNat mi
      let window ← liftM (w.put l.window previousByte)
      let state := if l.state < 4 then 0 else if l.state < 10 then l.state - 3 else l.state - 6
      return { l with window := window, previousByte := previousByte, state := state }) (Fine filled) :=
    .bind (uses_plainBits 8 mi (by omega)) fun mi _ => uses_put guarded opened _ next
  rw [literal]
  split
  · refine .bind (.lift (fun e => guarded.peekFails _ _ e opened) fun _ _ => trivial) fun byte (_ : True) => ?_
    exact .bind (uses_matchedBits 8 _ 1 (by decide) (by omega)) fun mi _ => rest mi
  · exact rest 1

theorem uses_shortRep (opened : ready l.window) : Uses n allowed (shortRep w l) (Fine filled) := by
  have next : (if l.state < numLitStates then 9 else 11) < numStates := by
    split <;> decide
  exact .bind (.lift (fun e => guarded.peekFails _ _ e opened) fun _ _ => trivial) fun byte _ =>
    uses_put guarded opened byte next

theorem copyMatch_guarded (rep0 len : Nat) (previousByte : UInt8) (opened : ready window) (positive : len ≠ 0) :
    Within allowed (fun result => filled result.1) (copyMatch w rep0 len window previousByte) := by
  induction len generalizing window previousByte with
  | zero => exact absurd rfl positive
  | succ len ih =>
    have peeked : Within allowed (fun _ => True) (w.peek window rep0) :=
      ⟨fun e => guarded.peekFails _ _ e opened,fun _ _ => trivial⟩
    have stored (byte : UInt8) : Within allowed filled (w.put window byte) :=
      ⟨fun e => guarded.putFails _ _ e opened,fun b => guarded.put _ _ b opened⟩
    refine peeked.bind fun byte _ => (stored byte).bind fun next full => ?_
    split
    · rename_i more
      have tested : Within allowed (fun room => w.room next = .ok room) (w.room next) :=
        ⟨fun e => guarded.roomFails _ e full,fun _ room => room⟩
      refine tested.bind fun room here => ?_
      cases room with
      | false => exact .ok full
      | true => exact ih byte (guarded.room _ full here) more
    · exact .ok full

end

def FineIfMore (filled : σ → Prop) (next : Option (Locals σ)) : Prop := ∀ l, next = some l → Fine filled l

theorem uses_copy (guarded : Guarded h w allowed ready filled) (len : Nat) (state : l.state < numStates)
    (opened : ready l.window) : Uses n allowed (copy w len l) (FineIfMore filled) := by
  obtain ⟨fails,copies⟩ := copyMatch_guarded guarded l.rep0 (len + matchMinLen) l.previousByte opened (by simp)
  refine .bind (.lift fails copies) fun copied full => .pure ?_
  rintro _ ⟨⟩
  exact ⟨state,full⟩

theorem uses_lengthAndCopy (guarded : Guarded h w allowed ready filled) (few : posState < 16)
    (room : prob + numLenProbs ≤ n) (places : literalProbs ≤ n) (state : l.state < numStates)
    (opened : ready l.window) :
    Uses n allowed (lengthAndCopy w prob posState l) (FineIfMore filled) := by
  refine .bind (uses_matchLen few room) fun len _ => ?_
  split
  · refine .bind (uses_matchDistance len places) fun rep0 _ => ?_
    split
    · exact .pure fun _ absent => (by cases absent)
    · exact uses_copy guarded len (show l.state + 7 < 12 by omega) opened
  · exact uses_copy guarded len state opened

theorem uses_olderRep (inside : repLenCoder ≤ n) (state : l.state < numStates) :
    Uses n allowed (olderRep l) fun next => next.window = l.window := by
  have places : repLenCoder = 1332 := rfl
  have states : numStates = 12 := rfl
  refine .bind (.bit (by change 216 + l.state < n; omega)) fun older _ => ?_
  split
  · refine .bind (.bit (by change 228 + l.state < n; omega)) fun oldest _ => ?_
    split <;> exact .pure rfl
  · exact .pure rfl

theorem uses_symbol (guarded : Guarded h w allowed ready filled) (small : h.Small) (state : l.state < numStates)
    (opened : ready l.window) : Uses h.numProbs allowed (symbol h w l) (FineIfMore filled) := by
  have few := mask_lt (w.position l.window) small.pb
  have places : literalProbs ≤ h.numProbs := Nat.le_add_right ..
  have total : literalProbs = 1846 := rfl
  have states : numStates = 12 := rfl
  have single {m : Decode (Locals σ)} (uses : Uses h.numProbs allowed m (Fine filled)) :
      Uses h.numProbs allowed (do return some (← m)) (FineIfMore filled) :=
    .bind uses fun next fine => .pure fun _ same => Option.some.inj same ▸ fine
  have repState : (if l.state < numLitStates then 8 else 11) < numStates := by
    split <;> decide
  refine .bind (.bit (by change 0 + l.state <<< 4 + _ < _; omega)) fun matched _ => ?_
  split
  · refine .bind (.bit (by change 192 + l.state < _; omega)) fun repeated _ => ?_
    split
    · refine .bind (.bit (by change 204 + l.state < _; omega)) fun older _ => ?_
      split
      · refine .bind (uses_olderRep (le_trans (by decide) places) state) fun next same => ?_
        exact uses_lengthAndCopy guarded few (by change 1332 + 514 ≤ _; omega) places repState (same ▸ opened)
      · refine .bind (.bit (by change 240 + l.state <<< 4 + _ < _; omega)) fun long _ => ?_
        split
        · exact uses_lengthAndCopy guarded few (by change 1332 + 514 ≤ _; omega) places repState opened
        · exact single (uses_shortRep guarded opened)
    · refine uses_lengthAndCopy guarded few (by change 818 + 514 ≤ _; omega) places ?_ opened
      show (if l.state < numLitStates then 0 else 3) < numStates
      split <;> decide
  · exact single (uses_literal guarded small state opened)

theorem Fine.reaches (guarded : Guarded h w allowed ready filled) (small : h.Small) {s t : Rc × Locals σ}
    (fine : Fine filled s.2) (path : Reaches (step h w) s t) : Fine filled t.2 := by
  induction path with
  | refl => exact fine
  | tail _ goes ih =>
    rename_i before after _
    rw [step] at goes
    split at goes
    · rename_i more
      have uses := (uses_symbol guarded small ih.1 (guarded.more _ ih.2 more)).run before.1
      split at goes
      · cases goes
      · cases goes
      rename_i l rc decoded
      cases goes
      exact uses.2 _ decoded l rfl
    · cases goes

end

/-! ### The circular buffer -/

variable {input : List UInt8}

theorem readHeader_small {h : Header} {rest : List UInt8} (header : readHeader input = .ok (h,rest)) : h.Small := by
  unfold readHeader at header
  split at header
  · split at header
    · cases header
    split at header
    · cases header
    cases header
    exact ⟨mod_lt _ (by decide),mod_lt _ (by decide),by dsimp only; omega⟩
  · cases header

theorem wrap_lt (small : dictSize < 2 ^ 32) (turns pos : Nat) (inside : pos < 2 ^ 32)
    (enough : 2 ^ 32 ≤ pos + turns * dictSize) : wrap dictSize turns pos < dictSize := by
  induction turns generalizing pos with
  | zero => omega
  | succ turns ih =>
    rw [wrap]
    split
    · by_cases wraps : pos + dictSize < 2 ^ 32
      · rw [mod_eq_of_lt wraps]
        exact ih _ wraps (by rw [succ_mul] at enough; omega)
      · rw [show (pos + dictSize) % 2 ^ 32 = pos + dictSize - 2 ^ 32 by omega,wrap_inside _ _ _ (by omega)]
        omega
    · omega

theorem dictionaryPos_lt (positive : 0 < dictSize) (small : dictSize < 2 ^ 32) (bufferPos rep0 : Nat) :
    dictionaryPos dictSize bufferPos rep0 < dictSize := by
  refine wrap_lt small _ _ (mod_lt _ (by decide)) ?_
  omega

theorem circular_guarded {h : Header} (proper : h.Proper) (covered : h.dictSize ≤ h.dstSize) :
    Guarded h (circular h) (· ≠ .undefined) (fun d => d.bufferPos < h.dictSize) fun d => d.bufferPos < h.dictSize := by
  have whole : h.capacity = h.dictSize := min_eq_right covered
  refine ⟨fun d rep0 e _ fails => ?_,fun d byte e inside fails => ?_,fun d byte next inside puts => ?_,
    fun _ _ _ fails => (by cases fails),fun _ inside _ => inside,fun _ inside _ => inside⟩
  · have place := dictionaryPos_lt proper.positive proper.dictSize d.bufferPos rep0
    simp only [circular,whole,if_pos place] at fails
    cases fails
  · simp only [circular,whole,if_pos inside] at fails
    split at fails <;> cases fails
  · simp only [circular,whole,if_pos inside] at puts
    split at puts
    · cases puts
      exact proper.positive
    · cases puts
      show d.bufferPos + 1 < h.dictSize
      omega

theorem any_guarded {σ : Type} (h : Header) (w : Window σ) :
    Guarded h w (fun _ => True) (fun _ => True) fun _ => True :=
  ⟨fun _ _ _ _ _ => trivial,fun _ _ _ _ _ => trivial,fun _ _ _ _ _ => trivial,fun _ _ _ _ => trivial,
    fun _ _ _ => trivial,
    fun _ _ _ => trivial⟩

/-- In every run with these sizes the next symbol stays inside of the buffer and of the probabilities. -/
def IndicesInside (dictSize dstSize : Nat) : Prop :=
  ∀ heap input h rest s t, readHeader input = .ok (h,rest) → h.dictSize = dictSize → h.dstSize = dstSize →
    start ⟨heap,0,0,[]⟩ rest = .ok s → Reaches (step h (circular h)) s t →
      (circular h).position t.2.window < h.dstSize →
    symbol h (circular h) t.2 t.1 ≠ .error .undefined ∧
      Uses h.numProbs (fun _ => True) (symbol h (circular h) t.2) fun _ => True

theorem start_locals {σ : Type} {window : σ} {s : Rc × Locals σ} (begins : start window input = .ok s) :
    s.2 = ⟨window,0,0,1,1,1,1⟩ := by
  obtain ⟨rc,_,last⟩ := bind_eq_ok begins
  cases last
  rfl

theorem leads_near (h : Header) (position : Nat) : Leads (matchCode h position) (true,false,0,0) :=
  (leads_bit _ true).bind ((leads_bit _ false).bind ((leads_matchLen _ _ (by decide)).bind
    (Leads.bind ((leads_bitTreeDecode _ 6 0 (by decide)).bind (leads_pure 0)) (leads_pure _))))

theorem symbol_unread {σ : Type} {w : Window σ} {window : σ} {rc after : Rc} (position : w.position window = place)
    (decodes : matchCode h place rc = .ok ((true,false,0,0),after)) (peeks : w.peek window 1 = .error .undefined) :
    symbol h w ⟨window,0,0,1,1,1,1⟩ rc = .error .undefined := by
  subst position
  rw [symbol_match h w 0 1 1 1 1 decodes (by decide)]
  simp only [copy,copyMatch,zero_add,peeks]
  rfl

/-- A match at distance one as the first symbol reads what has not been allocated. -/
theorem outside_stream {dictSize dstSize : Nat} (positive : 0 < dstSize) (larger : dstSize < dictSize)
    (small : dictSize < 2 ^ 32) :
    ¬IndicesInside dictSize dstSize := by
  intro inside
  obtain ⟨_,_,least,_,leads⟩ := leads_near ⟨0,0,0,dictSize,dstSize⟩ 0 0xFFFFFFFF (fun _ => .initial) (by decide)
    (by decide)
  obtain ⟨code,bytes,below,decodes⟩ := leads 0 [] (by omega)
  obtain ⟨_,decodes⟩ := decodes 0
  rw [append_nil] at decodes
  have header := readHeader_headerBytes dictSize dstSize (codeBytes code ++ bytes) (by omega) small (by omega)
  have begins := start_codeBytes (⟨fun _ => 0,0,0,[]⟩ : Dictionary) code bytes (by omega)
  have position : (circular ⟨0,0,0,dictSize,dstSize⟩).position ⟨fun _ => 0,0,0,[]⟩ = 0 := by simp [circular]
  have place : dictionaryPos dictSize 0 1 = dictSize - 1 := by
    rw [dictionaryPos_eq _ _ _ (by omega) small (by decide) (by omega),if_neg (by decide),if_neg (by omega)]
    omega
  have far : ¬dictSize - 1 < (Header.capacity ⟨0,0,0,dictSize,dstSize⟩) := by
    change ¬dictSize - 1 < min dstSize dictSize
    omega
  have peeks : (circular ⟨0,0,0,dictSize,dstSize⟩).peek ⟨fun _ => 0,0,0,[]⟩ 1 = .error .undefined := by
    simp only [circular,place,if_neg far]
  have more : (circular ⟨0,0,0,dictSize,dstSize⟩).position ⟨fun _ => 0,0,0,[]⟩ < dstSize := position.symm ▸ positive
  exact (inside _ _ _ _ _ _ header rfl rfl begins .refl more).1 (symbol_unread position decodes peeks)

/-- The indices stay inside exactly if the whole dictionary is allocated, or nothing is decoded. -/
theorem indices_inside_iff (dictSize dstSize : Nat) (positive : 0 < dictSize) (dict : dictSize < 2 ^ 32) :
    IndicesInside dictSize dstSize ↔ dstSize = 0 ∨ dictSize ≤ dstSize := by
  constructor
  · intro inside
    by_contra neither
    exact outside_stream (by omega) (by omega) dict inside
  · rintro cases heap input h rest s t header rfl rfl begins path more
    have small := readHeader_small header
    have proper := readHeader_proper header
    have covered : h.dictSize ≤ h.dstSize := cases.resolve_left fun zero => by omega
    have guarded := circular_guarded proper covered
    have first : Fine (fun d : Dictionary => d.bufferPos < h.dictSize) s.2 := by
      rw [start_locals begins]
      exact ⟨show 0 < 12 by decide,proper.positive⟩
    have fine := first.reaches guarded small path
    refine ⟨fun undefined => ?_,(uses_symbol (any_guarded h _) small fine.1 trivial).weaken fun _ _ => trivial⟩
    rcases ((uses_symbol guarded small fine.1 (guarded.more _ fine.2 more)).run t.1).1 _ undefined with eof | wrong
    · cases eof
    · exact wrong rfl

theorem indices_inside_sample : IndicesInside 16 40 :=
  (indices_inside_iff 16 40 (by decide) (by decide)).mpr (.inr (by decide))

/-- A dictionary of 16 bytes for one byte of output. -/
theorem indices_outside : ¬IndicesInside 16 1 := outside_stream (by decide) (by decide) (by decide)

/-! ### The size of the output -/

def DecodesAll (heap : Nat → UInt8) (fuel : Nat) (input : List UInt8) (h : Header) (written : List UInt8) : Prop :=
  ∃ rest s last, readHeader input = .ok (h,rest) ∧ start ⟨heap,0,0,[]⟩ rest = .ok s ∧
    exec (step h (circular h)) fuel s = some ⟨none,last⟩ ∧ ¬(circular h).position last < h.dstSize ∧
    written = (finish ⟨none,last⟩).written

/-- Every stream with these sizes that is decoded to the end gives that many bytes. -/
def SizeKept (dictSize dstSize : Nat) : Prop :=
  ∀ heap fuel input h written, h.dictSize = dictSize → h.dstSize = dstSize → DecodesAll heap fuel input h written →
    written.length = dstSize

/-- A larger dictionary is never full, and the test inside of a match stops it. -/
theorem short_guarded {h : Header} (larger : h.dstSize < h.dictSize) (small : h.dictSize < 2 ^ 32) :
    Guarded h (circular h) (fun _ => True) (fun d => d.bufferPos < h.dstSize ∧ d.globalPos = 0 ∧ d.written = [])
      fun d => d.bufferPos ≤ h.dstSize ∧ d.globalPos = 0 ∧ d.written = [] := by
  refine ⟨fun _ _ _ _ _ => trivial,fun _ _ _ _ _ => trivial,fun d byte next ready puts => ?_,fun _ _ _ _ => trivial,
    fun d filled room => ?_,fun d filled more => ?_⟩
  · obtain ⟨inside,global,written⟩ := ready
    simp only [circular] at puts
    split at puts
    · cases (if_neg (by omega)).symm.trans puts
      exact ⟨inside,global,written⟩
    · cases puts
  · have inside : d.bufferPos < h.dstSize := of_decide_eq_true (Except.ok.inj room)
    exact ⟨inside,filled.2⟩
  · obtain ⟨most,global,written⟩ := filled
    change (d.bufferPos + d.globalPos) % 2 ^ 64 < h.dstSize at more
    exact ⟨by omega,global,written⟩

theorem sizeKept_of_larger {dictSize dstSize : Nat} (larger : dstSize < dictSize) (small : dictSize < 2 ^ 32) :
    SizeKept dictSize dstSize := by
  rintro heap fuel input h written rfl rfl ⟨rest,s,last,header,begins,runs,full,rfl⟩
  have guarded := short_guarded larger small
  obtain ⟨final,path,ends⟩ := exec_reaches runs
  have first : Fine (fun d : Dictionary => d.bufferPos ≤ h.dstSize ∧ d.globalPos = 0 ∧ d.written = []) s.2 := by
    rw [start_locals begins]
    exact ⟨show 0 < 12 by decide,zero_le _,rfl,rfl⟩
  obtain ⟨_,most,global,nothing⟩ := first.reaches guarded (readHeader_small header) path
  have same : last = final.2.window := by
    rw [step] at ends
    split at ends
    · split at ends
      · cases ends
      · cases ends
        rfl
      · cases ends
    · cases ends
      rfl
  subst same
  change ¬(final.2.window.bufferPos + final.2.window.globalPos) % 2 ^ 64 < h.dstSize at full
  simp only [finish,nothing,nil_append,length_map,length_range]
  omega

def Counted (dictSize n : Nat) (d : Dictionary) : Prop :=
  d.bufferPos < dictSize ∧ d.globalPos + d.bufferPos = n ∧ d.written.length = d.globalPos

section

variable {h : Header} (proper : h.Proper) (covered : h.dictSize ≤ h.dstSize) (known : h.dstSize < 2 ^ 64 - 1)

include proper covered known in
theorem Counted.put (counted : Counted h.dictSize n d) (bound : n ≤ h.dstSize) (byte : UInt8) :
    ∃ next, (circular h).put d byte = .ok next ∧ Counted h.dictSize (n + 1) next := by
  obtain ⟨inside,total,written⟩ := counted
  have whole : h.capacity = h.dictSize := min_eq_right covered
  simp only [circular,whole,if_pos inside]
  by_cases last : d.bufferPos + 1 = h.dictSize
  · rw [if_pos last]
    refine ⟨_,rfl,proper.positive,?_,?_⟩
    · show (d.globalPos + h.dictSize) % 2 ^ 64 + 0 = n + 1
      omega
    · show (d.written ++ _).length = (d.globalPos + h.dictSize) % 2 ^ 64
      rw [length_append,length_map,length_range]
      omega
  · rw [if_neg last]
    refine ⟨_,rfl,?_,?_,written⟩
    · show d.bufferPos + 1 < h.dictSize
      omega
    · show d.globalPos + (d.bufferPos + 1) = n + 1
      omega

include known in
theorem Counted.position (counted : Counted h.dictSize n d) (bound : n ≤ h.dstSize + 1) :
    (circular h).position d = n := by
  obtain ⟨_,total,_⟩ := counted
  show (d.bufferPos + d.globalPos) % 2 ^ 64 = n
  omega

include proper covered in
theorem peek_near (d : Dictionary) : ∃ byte, (circular h).peek d 1 = .ok byte := by
  have whole : h.capacity = h.dictSize := min_eq_right covered
  have place := dictionaryPos_lt proper.positive proper.dictSize d.bufferPos 1
  simp only [circular,whole,if_pos place]
  exact ⟨_,rfl⟩

include proper covered known in
/-- Literals up to the last byte, and there a match of two bytes. -/
theorem past_run (todo n : Nat) (whole : n + todo + 1 = h.dstSize) (range : Nat) (p : Nat → Prob) (low : 2 ^ 16 ≤ range)
    (high : range < 2 ^ 32) (previousByte : UInt8) :
    ∃ code bytes, code < range ∧ ∀ bound d, Counted h.dictSize n d → ∃ last,
      exec (step h (circular h)) (todo + 2) (⟨code,range,bound,p,bytes⟩,⟨d,previousByte,0,1,1,1,1⟩) = some ⟨none,last⟩ ∧
        Counted h.dictSize (h.dstSize + 1) last := by
  induction todo generalizing n range p previousByte with
  | zero =>
    obtain ⟨_,_,least,_,leads⟩ := leads_near h n range p low high
    obtain ⟨code,bytes,inside,decodes⟩ := leads 0 [] (by omega)
    rw [append_nil] at decodes
    refine ⟨code,bytes,inside,fun bound d counted => ?_⟩
    obtain ⟨_,decodes⟩ := decodes bound
    obtain ⟨x,readX⟩ := peek_near proper covered d
    obtain ⟨middle,putX,countedX⟩ := counted.put proper covered known (by omega) x
    obtain ⟨y,readY⟩ := peek_near proper covered middle
    obtain ⟨last,putY,countedY⟩ := countedX.put proper covered known (by omega) y
    have room : (circular h).room middle = .ok true := by
      have := countedX.1
      show Except.ok (decide (middle.bufferPos < h.dstSize)) = _
      rw [decide_eq_true (by omega)]
    have final := countedY.position known (by omega)
    rw [show n + 1 + 1 = h.dstSize + 1 by omega] at countedY
    exact ⟨last,exec_last_match _ _ previousByte 1 1 1 1 (counted.position known (by omega))
      (by omega) decodes (by decide)
      (by decide) readX putX room readY putY (by omega),countedY⟩
  | succ todo ih =>
    obtain ⟨rangeAfter,pAfter,lowAfter,highAfter,leads⟩ := leads_literalCode h n previousByte 0 range p low high
    obtain ⟨codeAfter,rest,insideAfter,runs⟩ := ih (n + 1) (by omega) rangeAfter pAfter lowAfter highAfter 0
    obtain ⟨code,bytes,inside,decodes⟩ := leads codeAfter rest insideAfter
    refine ⟨code,bytes ++ rest,inside,fun bound d counted => ?_⟩
    obtain ⟨boundAfter,decodes⟩ := decodes bound
    obtain ⟨next,puts,countedNext⟩ := counted.put proper covered known (by omega) 0
    obtain ⟨last,ends,countedLast⟩ := runs boundAfter next countedNext
    exact ⟨last,(exec_literal _ _ d _ previousByte 0 1 1 1 1 (todo + 2) n _ _ (counted.position known (by omega))
      (by omega) decodes puts).trans ends,countedLast⟩

theorem past_stream (positive : 0 < dictSize) (small : dictSize < 2 ^ 32) (covered : dictSize ≤ dstSize)
    (known : dstSize < 2 ^ 64 - 1) : ¬SizeKept dictSize dstSize := by
  intro kept
  have size : Header.dstSize ⟨0,0,0,dictSize,dstSize⟩ = dstSize := rfl
  obtain ⟨code,bytes,inside,runs⟩ := past_run (h := ⟨0,0,0,dictSize,dstSize⟩) ⟨positive,small,by omega⟩ covered known
    (dstSize - 1) 0 (by omega) 0xFFFFFFFF (fun _ => .initial) (by decide) (by decide) 0
  obtain ⟨last,ends,counted⟩ := runs 0 ⟨fun _ => 0,0,0,[]⟩ ⟨positive,rfl,rfl⟩
  have header := readHeader_headerBytes dictSize dstSize (codeBytes code ++ bytes) positive small (by omega)
  have begins := start_codeBytes (⟨fun _ => 0,0,0,[]⟩ : Dictionary) code bytes (by omega)
  have past : ¬(circular ⟨0,0,0,dictSize,dstSize⟩).position last < dstSize := by
    rw [counted.position known (le_refl _)]
    omega
  have length := kept _ _ _ _ _ rfl rfl ⟨_,_,_,header,begins,ends,past,rfl⟩
  obtain ⟨_,total,written⟩ := counted
  simp only [finish,length_append,length_map,length_range] at length
  omega

end

/-- The output has the size of the header exactly if the dictionary is larger, or nothing is decoded. -/
theorem size_kept_iff (dictSize dstSize : Nat) (positive : 0 < dictSize) (dict : dictSize < 2 ^ 32)
    (known : dstSize < 2 ^ 64 - 1) : SizeKept dictSize dstSize ↔ dstSize = 0 ∨ dstSize < dictSize := by
  constructor
  · intro kept
    by_contra neither
    exact past_stream positive dict (by omega) known kept
  · rintro (rfl | larger)
    · exact sizeKept_of_larger positive dict
    · exact sizeKept_of_larger larger dict

theorem size_kept_sample : SizeKept 16 5 :=
  (size_kept_iff 16 5 (by decide) (by decide) (by decide)).mpr (.inr (by decide))

/-- With a dictionary of one byte, a match that starts at the last byte of two goes past it. -/
theorem size_exceeded : ¬SizeKept 1 2 := past_stream (by decide) (by decide) (by decide) (by decide)

/-! ### The decoder returns on every input: each symbol but the end marker puts out a byte -/

section

variable (h : Header)

theorem history_guarded (n : Nat) : Guarded h (history h) (fun _ => True) (n ≤ ·.length) (n < ·.length) := by
  refine ⟨fun _ _ _ _ _ => trivial,fun _ _ _ _ _ => trivial,fun out byte next long puts => ?_,fun _ _ _ _ => trivial,
    fun _ longer _ => le_of_lt longer,fun _ longer _ => le_of_lt longer⟩
  simp only [history] at puts
  split at puts
  · cases puts
    rw [length_append,length_singleton]
    omega
  · cases puts

theorem step_shrinks (small : h.Small) (state : s.2.state < numStates) :
    (∃ lighter next, step h (history h) s = .inl next ∧
      (lighter = h.dstSize - next.2.window.length ∧ next.2.state < numStates) ∧
      lighter < h.dstSize - s.2.window.length) ∨
    ∃ outcome, step h (history h) s = .inr outcome ∧ True := by
  obtain ⟨rc,l⟩ := s
  have uses := (uses_symbol (history_guarded h l.window.length) small state le_rfl).run rc
  simp only [step]
  split_ifs with more
  · cases next : symbol h (history h) l rc with
    | error failure => exact .inr ⟨_,rfl,trivial⟩
    | ok result =>
      obtain ⟨_ | after,rc⟩ := result
      · exact .inr ⟨_,rfl,trivial⟩
      obtain ⟨state,longer⟩ := uses.2 _ next after rfl
      have room : l.window.length < h.dstSize := more
      exact .inl ⟨h.dstSize - after.window.length,_,rfl,⟨rfl,state⟩,by omega⟩
  · exact .inr ⟨_,rfl,trivial⟩

theorem step_yields (small : h.Small) (state : s.2.state < numStates) :
    ∃ outcome, Yields (step h (history h)) s outcome := by
  obtain ⟨outcome,yields,_⟩ := yields_of_weight lt_wfRel.wf
    (fun weight (s : Rc × Locals (List UInt8)) => weight = h.dstSize - s.2.window.length ∧ s.2.state < numStates)
    (fun _ => True) (fun weight s here => by rw [here.1]; exact step_shrinks h small here.2) _ s ⟨rfl,state⟩
  exact ⟨outcome,yields⟩

end

/-- The decoder with an unbounded history returns on every input. -/
theorem unlzmaHistory_returns (input : List UInt8) : ∃ fuel r, unlzmaHistory fuel input = some r := by
  cases header : readHeader input with
  | error failure => exact ⟨0,_,by rw [unlzmaHistory,header]⟩
  | ok parsed =>
    obtain ⟨h,rest⟩ := parsed
    cases first : start ([] : List UInt8) rest with
    | error failure => exact ⟨0,_,by simp only [unlzmaHistory,header,first]; rfl⟩
    | ok s =>
      have state : s.2.state < numStates := by
        rw [start_locals first]
        decide
      obtain ⟨outcome,fuel,done⟩ := step_yields h (readHeader_small header) state
      exact ⟨fuel,_,by simp only [unlzmaHistory,header,first,done]; rfl⟩

end Stablebox.Unlzma
