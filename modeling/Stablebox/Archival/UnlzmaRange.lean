import Stablebox.Archival.UnlzmaIndices

/-! What the range decoder of `unlzma` keeps, and where the loop that computes `pos` ends. -/
namespace Stablebox.Unlzma

open Nat

def boundOf (rc : Rc) (prob : Nat) : Nat := (rc.p prob).val * (rc.range >>> 11) % 2 ^ 32

/-- Wherever the computation decodes a bit, normalisation leaves a range of at least 2^24, and the bound splits it. -/
inductive Sound : {α : Type} → Decode α → Rc → Prop where
  | pure {α : Type} {a : α} {rc : Rc} : Sound (Pure.pure a) rc
  | lift {α : Type} {x : Except Failure α} {rc : Rc} : Sound (liftM x) rc
  | bit {prob : Nat} {rc : Rc} (splits : ∀ next, rcNormalize rc = .ok ((),next) →
      2 ^ 24 ≤ next.range ∧ 0 < boundOf next prob ∧ boundOf next prob < next.range) : Sound (rcBit prob) rc
  | direct {rc : Rc} (large : ∀ next, rcNormalize rc = .ok ((),next) → 2 ^ 24 ≤ next.range) : Sound rcDirectBit rc
  | bind {α β : Type} {m : Decode α} {f : α → Decode β} {rc : Rc} (first : Sound m rc)
      (second : ∀ a next, m rc = .ok (a,next) → Sound (f a) next) : Sound (m >>= f) rc

def Rc.Wide (rc : Rc) : Prop := 2 ^ 16 ≤ rc.range ∧ rc.range < 2 ^ 32

theorem normalize_large (wide : rc.Wide) (done : rcNormalize rc = .ok ((),next)) :
    2 ^ 24 ≤ next.range ∧ next.range < 2 ^ 32 := by
  obtain ⟨low,high⟩ := wide
  unfold rcNormalize rcDoNormalize at done
  split at done
  · split at done
    · cases done
    · cases done
      dsimp only
      omega
  · cases done
    omega

theorem Uses.sound {α : Type} {n : Nat} {allowed : Failure → Prop} {m : Decode α} {holds : α → Prop}
    (uses : Uses n allowed m holds) (wide : rc.Wide) :
    Sound m rc ∧ ∀ a next, m rc = .ok (a,next) → next.Wide := by
  induction uses generalizing rc with
  | pure =>
    refine ⟨.pure,fun a next done => ?_⟩
    cases done
    exact wide
  | @bit prob _ =>
    have splits (next : Rc) (done : rcNormalize rc = .ok ((),next)) :
        2 ^ 24 ≤ next.range ∧ 2 ^ 16 ≤ boundOf next prob ∧ 2 ^ 16 + boundOf next prob ≤ next.range := by
      obtain ⟨low,high⟩ := normalize_large wide done
      obtain ⟨exactly,above,below⟩ := bound_inside (next.p prob) low high
      rw [boundOf,exactly]
      exact ⟨low,above,below⟩
    refine ⟨.bit fun next done => ?_,fun bit last decoded => ?_⟩
    · have := splits next done
      omega
    · rw [rcBit_eq] at decoded
      obtain ⟨⟨_,next⟩,done,decoded⟩ := bind_eq_ok decoded
      have := splits next done
      have high := (normalize_large wide done).2
      unfold boundOf at this
      simp only [bitAfter] at decoded
      split at decoded <;> cases decoded <;> simp only [Rc.Wide] <;> omega
  | direct =>
    refine ⟨.direct fun next done => (normalize_large wide done).1,fun bit last decoded => ?_⟩
    rw [rcDirectBit_eq] at decoded
    obtain ⟨⟨_,next⟩,done,decoded⟩ := bind_eq_ok decoded
    have := normalize_large wide done
    simp only [directAfter] at decoded
    split at decoded <;> cases decoded <;> simp only [Rc.Wide] <;> omega
  | @lift _ _ x =>
    refine ⟨.lift,fun a next done => ?_⟩
    cases x with
    | error e => cases done
    | ok b =>
      cases done
      exact wide
  | @bind _ _ _ _ m f first _ ihFirst ihSecond =>
    obtain ⟨sound,keeps⟩ := ihFirst wide
    have after (a : _) (next : Rc) (done : m rc = .ok (a,next)) :=
      ihSecond a ((first.run rc).2 _ done) (keeps a next done)
    refine ⟨.bind sound fun a next done => (after a next done).1,fun b last done => ?_⟩
    obtain ⟨⟨a,next⟩,here,done⟩ := bind_eq_ok done
    exact (after a next here).2 b last done

section

variable {σ : Type}

theorem reaches_wide (small : h.Small) (state : s.2.state < numStates) (wide : s.1.Wide)
    (path : Reaches (step h w) s t) : t.2.state < numStates ∧ t.1.Wide := by
  induction path with
  | refl => exact ⟨state,wide⟩
  | @tail before after _ goes ih =>
    have uses := uses_symbol (any_guarded h w) small ih.1 trivial
    rw [step] at goes
    split at goes
    · split at goes
      · cases goes
      · cases goes
      rename_i l rc decoded
      cases goes
      exact ⟨((uses.run before.1).2 _ decoded l rfl).1,(uses.sound ih.2).2 _ _ decoded⟩
    · cases goes

end

/-- The invariants of the range decoder, whatever the stream is. -/
def RangeKept : Prop :=
  ∀ heap input h rest s t, readHeader input = .ok (h,rest) → start ⟨heap,0,0,[]⟩ rest = .ok s →
    Reaches (step h (circular h)) s t →
    (∀ i, 31 ≤ (t.1.p i).val ∧ (t.1.p i).val ≤ 2017) ∧ t.2.state < 12 ∧ 0 < t.1.range ∧
      Sound (symbol h (circular h) t.2) t.1

theorem start_wide {σ : Type} {window : σ} {input : List UInt8} {s : Rc × Locals σ}
    (begins : start window input = .ok s) :
    s.1.Wide := by
  have same (n : Nat) (rc next : Rc) (done : rcInit n rc = .ok next) : next.range = rc.range := by
    induction n generalizing rc with
    | zero =>
      cases done
      rfl
    | succ n ih =>
      rw [rcInit] at done
      split at done
      · cases done
      · rw [ih _ done]
  obtain ⟨rc,first,last⟩ := bind_eq_ok begins
  cases last
  rw [Rc.Wide,same 5 _ rc first]
  exact show 2 ^ 16 ≤ 0xFFFFFFFF ∧ 0xFFFFFFFF < 2 ^ 32 by decide

theorem range_kept : RangeKept := by
  intro heap input h rest s t header begins path
  have small := readHeader_small header
  have state : s.2.state < numStates := by
    rw [start_locals begins]
    exact show 0 < 12 by decide
  obtain ⟨state,wide⟩ := reaches_wide small state (start_wide begins) path
  have low := wide.1
  exact ⟨fun i => ⟨(t.1.p i).low,(t.1.p i).high⟩,state,by omega,
    ((uses_symbol (any_guarded h _) small state trivial).sound wide).1⟩

/-! ### Every symbol uses up input or range

The count of bytes put out wraps around at 2^64, so it does not bound the loop; the range decoder does. -/

def Rc.weight (rc : Rc) : Nat := rc.input.length * 2 ^ 32 + rc.range

theorem normalize_weight (wide : rc.Wide) (done : rcNormalize rc = .ok ((),next)) : next.weight ≤ rc.weight := by
  have high := (normalize_large wide done).2
  unfold rcNormalize rcDoNormalize at done
  split at done
  · split at done
    · cases done
    · rename_i byte input here
      cases done
      simp only [Rc.weight,here,List.length_cons] at high ⊢
      omega
  · cases done
    exact le_refl _

/-- A computation lowers the weight unless it decodes no bit, and then it does the same in every state. -/
theorem Uses.lowers {α : Type} {n : Nat} {allowed : Failure → Prop} {m : Decode α} {holds : α → Prop} {a : α}
    (uses : Uses n allowed m holds) (wide : rc.Wide) (done : m rc = .ok (a,next)) :
    next.weight < rc.weight ∨ next = rc ∧ ∀ other, m other = .ok (a,other) := by
  induction uses generalizing rc next with
  | pure =>
    cases done
    exact .inr ⟨rfl,fun _ => rfl⟩
  | @bit prob _ =>
    rw [rcBit_eq] at done
    obtain ⟨⟨_,middle⟩,normal,done⟩ := bind_eq_ok done
    have weight := normalize_weight wide normal
    obtain ⟨low,high⟩ := normalize_large wide normal
    obtain ⟨exactly,above,below⟩ := bound_inside (middle.p prob) low high
    simp only [bitAfter,exactly] at done
    left
    split at done <;> cases done <;> simp only [Rc.weight] at weight ⊢ <;> omega
  | direct =>
    rw [rcDirectBit_eq] at done
    obtain ⟨⟨_,middle⟩,normal,done⟩ := bind_eq_ok done
    have weight := normalize_weight wide normal
    have low := (normalize_large wide normal).1
    simp only [directAfter] at done
    left
    split at done <;> cases done <;> simp only [Rc.weight] at weight ⊢ <;> omega
  | @lift _ _ x =>
    cases x with
    | error e => cases done
    | ok b =>
      cases done
      exact .inr ⟨rfl,fun _ => rfl⟩
  | @bind _ _ _ _ m f first _ ihFirst ihSecond =>
    obtain ⟨⟨b,middle⟩,here,done⟩ := bind_eq_ok done
    have later := ihSecond b ((first.run rc).2 _ here) ((first.sound wide).2 b middle here) done
    rcases ihFirst wide here with less | ⟨rfl,idle⟩
    · rcases later with more | ⟨rfl,_⟩
      · exact .inl (lt_trans more less)
      · exact .inl less
    · refine later.imp_right fun same => ⟨same.1,fun other => ?_⟩
      show (m other >>= fun r => f r.1 r.2) = _
      rw [idle other]
      exact same.2 other

theorem symbol_lowers {σ : Type} {w : Window σ} {l : Locals σ} {more : Option (Locals σ)} (small : h.Small)
    (state : l.state < numStates) (wide : rc.Wide) (done : symbol h w l rc = .ok (more,next)) :
    next.weight < rc.weight := by
  rcases (uses_symbol (any_guarded h w) small state trivial).lowers wide done with less | ⟨_,idle⟩
  · exact less
  · -- without input and range the first bit fails
    have fails : symbol h w l { rc with range := 0, input := [] } = .error unexpectedEof := rfl
    cases fails.symm.trans (idle _)

theorem step_returns {σ : Type} {w : Window σ} {s : Rc × Locals σ} (small : h.Small) (state : s.2.state < numStates)
    (wide : s.1.Wide) : ∃ outcome, Yields (step h w) s outcome := by
  suffices result : ∃ outcome, Yields (step h w) s outcome ∧ True from result.imp fun _ both => both.1
  refine yields_of_weight lt_wfRel.wf (fun weight s => weight = s.1.weight ∧ s.2.state < numStates ∧ s.1.Wide) _ ?_ _ s
    ⟨rfl,state,wide⟩
  rintro _ s ⟨rfl,state,wide⟩
  cases goes : step h w s with
  | inr outcome => exact .inr ⟨outcome,rfl,trivial⟩
  | inl next =>
    obtain ⟨state',wide'⟩ := reaches_wide small state wide (.step_then goes .refl)
    refine .inl ⟨next.1.weight,next,rfl,⟨rfl,state',wide'⟩,?_⟩
    rw [step] at goes
    split at goes
    · split at goes
      · cases goes
      · cases goes
      · rename_i decoded
        cases goes
        exact symbol_lowers small state wide decoded
    · cases goes

/-- The decoder returns on every input, whatever the size in the header and the memory it is given. -/
theorem unlzma_returns (heap : Nat → UInt8) (input : List UInt8) : ∃ fuel r, unlzma heap fuel input = some r := by
  cases header : readHeader input with
  | error failure => exact ⟨0,_,by rw [unlzma,header]⟩
  | ok parsed =>
    obtain ⟨h,rest⟩ := parsed
    cases first : start (⟨heap,0,0,[]⟩ : Dictionary) rest with
    | error failure => exact ⟨0,_,by simp only [unlzma,header,first]; rfl⟩
    | ok s =>
      have state : s.2.state < numStates := by
        rw [start_locals first]
        exact show 0 < 12 by decide
      obtain ⟨outcome,fuel,done⟩ := step_returns (w := circular h) (readHeader_small header) state (start_wide first)
      exact ⟨fuel,_,by simp only [unlzma,header,first,done]; rfl⟩

/-! ### The place in the buffer -/

theorem wrap_turns (turns pos : Nat) (inside : pos < 2 ^ 32) (high : dictSize ≤ pos) (small : dictSize < 2 ^ 32)
    (enough : 2 ^ 32 ≤ pos + turns * dictSize) :
    ∃ k, wrap dictSize turns pos + 2 ^ 32 = pos + k * dictSize := by
  induction turns generalizing pos with
  | zero => omega
  | succ turns ih =>
    rw [wrap,if_pos high]
    rw [succ_mul] at enough
    by_cases wraps : pos + dictSize < 2 ^ 32
    · obtain ⟨k,total⟩ := ih (pos + dictSize) wraps (by omega) (by omega)
      refine ⟨k + 1,?_⟩
      rw [mod_eq_of_lt wraps,total,succ_mul]
      omega
    · refine ⟨1,?_⟩
      rw [wrap_inside _ _ _ (by omega)]
      omega

/-- The range decoder keeps its invariants, and the loop ends at the residue of the distance exactly if the difference
does not wrap, or is no place in the buffer when it does, or the dictionary has a size by which wrapping makes no
difference. -/
theorem range_and_place_iff (dictSize bufferPos rep0 : Nat) (place : bufferPos < dictSize) (dict : dictSize < 2 ^ 32)
    (word : rep0 < 2 ^ 32) :
    (RangeKept ∧ dictionaryPos dictSize bufferPos rep0 < dictSize ∧
      (dictionaryPos dictSize bufferPos rep0 : Int) = ((bufferPos : Int) - rep0) % dictSize) ↔
      rep0 ≤ bufferPos ∨ dictSize + rep0 ≤ 2 ^ 32 + bufferPos ∨ dictSize ∣ 2 ^ 32 := by
  have ends := dictionaryPos_lt (by omega) dict bufferPos rep0
  have residue (x k : Int) (inside : 0 ≤ x ∧ x < dictSize) (same : x = bufferPos - rep0 + dictSize * k) :
      x = ((bufferPos : Int) - rep0) % dictSize := by
    rw [← Int.add_mul_emod_self_left _ _ k,← same,Int.emod_eq_of_lt inside.1 inside.2]
  rw [and_iff_right range_kept,and_iff_right ends]
  by_cases near : rep0 ≤ bufferPos
  · have value : (bufferPos + (2 ^ 32 - rep0)) % 2 ^ 32 = bufferPos - rep0 := by omega
    rw [dictionaryPos,value,wrap_inside _ _ _ (by omega),iff_true_right (.inl near)]
    exact residue _ 0 (by omega) (by omega)
  have value : (bufferPos + (2 ^ 32 - rep0)) % 2 ^ 32 = 2 ^ 32 + bufferPos - rep0 := by omega
  rw [dictionaryPos,value] at ends ⊢
  by_cases far : dictSize + rep0 ≤ 2 ^ 32 + bufferPos
  · rw [iff_true_right (.inr (.inl far))]
    have turns := mul_le_mul_left (2 ^ 32) (show 1 ≤ dictSize by omega)
    obtain ⟨k,total⟩ := wrap_turns (2 ^ 32) (2 ^ 32 + bufferPos - rep0) (by omega) (by omega) dict (by omega)
    refine residue _ k (by omega) ?_
    rw [mul_comm]
    have := congrArg (Nat.cast (R := Int)) total
    push_cast at this
    omega
  · rw [wrap_inside _ _ _ (by omega),or_iff_right near,or_iff_right far]
    have inside : ((2 ^ 32 + bufferPos - rep0 : Nat) : Int) = bufferPos - rep0 + 2 ^ 32 := by omega
    constructor
    · intro same
      have whole := Int.dvd_sub_self_of_emod_eq same.symm
      rw [inside,add_sub_cancel_left] at whole
      exact_mod_cast whole
    · rintro ⟨k,whole⟩
      refine residue _ k (by omega) ?_
      rw [inside,show (2 ^ 32 : Int) = dictSize * k by exact_mod_cast whole]

/-- In a dictionary of 16 bytes the byte of three places back is in front of the end. -/
theorem range_and_place_small :
    RangeKept ∧ dictionaryPos 16 1 3 < 16 ∧ (dictionaryPos 16 1 3 : Int) = ((1 : Int) - 3) % 16 :=
  (range_and_place_iff 16 1 3 (by decide) (by decide) (by decide)).mpr (.inr (.inl (by decide)))

/-- In a dictionary of three gigabytes the wrapped difference is taken for a place. -/
theorem wrapped_place : dictionaryPos 0xC0000000 0 0xC0000000 = 0x40000000 ∧
    ((0 : Int) - 0xC0000000) % 0xC0000000 = 0 := by
  rw [dictionaryPos,wrap_inside _ _ _ (by decide)]
  decide

end Stablebox.Unlzma
