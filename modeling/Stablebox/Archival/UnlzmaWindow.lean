import Stablebox.Archival.Unlzma
import Stablebox.Lib.Ring
import Stablebox.Lib.Simulates

/-! The circular buffer of `unlzma` against an unbounded history: while distances reach
back no further than the dictionary and the output, both decoders do the same. -/
namespace Stablebox.Unlzma

open List Function UInt8 Nat

/-- The output itself as the dictionary. A distance that is zero, larger than the dictionary
or larger than the output is an error here, and so is a match that runs past the end. -/
def history (h : Header) : Window (List UInt8) where
  position out := out.length
  peek out rep0 :=
    if rep0 = 0 ∨ h.dictSize < rep0 ∨ out.length < rep0 then .error .undefined
    else .ok (out.getD (out.length - rep0) 0)
  put out byte := if out.length < h.dstSize then .ok (out ++ [byte]) else .error .undefined
  room out := if out.length < h.dstSize then .ok true else .error .undefined

def unlzmaHistory (fuel : Nat) (input : List UInt8) : Option Result :=
  match readHeader input with
  | .error failure => some ⟨some failure,[]⟩
  | .ok (h,rest) =>
    match start [] rest with
    | .error failure => some ⟨some failure,[]⟩
    | .ok s => (exec (step h (history h)) fuel s).map fun outcome => ⟨outcome.failure,outcome.window⟩

/-! Any two dictionaries. -/

/-- Failures that say nothing about a run: the stream is not a proper one. -/
def Improper (failure : Failure) : Prop := failure = .undefined

/-- One kind of dictionary does what another does. -/
structure Refines {σ τ : Type} (w : Window σ) (v : Window τ) (related : σ → τ → Prop) : Prop where
  position : ∀ a b, related a b → w.position a = v.position b
  peek : ∀ a b rep0, related a b → Agrees Improper Eq (w.peek a rep0) (v.peek b rep0)
  put : ∀ a b x, related a b → Agrees Improper related (w.put a x) (v.put b x)
  room : ∀ a b, related a b → Agrees Improper Eq (w.room a) (v.room b)

section

variable {σ τ : Type} {w : Window σ} {v : Window τ} {related : σ → τ → Prop}

inductive Alike (related : σ → τ → Prop) : Locals σ → Locals τ → Prop where
  | intro (a : σ) (b : τ) (here : related a b) (previousByte : UInt8) (state rep0 rep1 rep2 rep3 : Nat) :
      Alike related ⟨a,previousByte,state,rep0,rep1,rep2,rep3⟩ ⟨b,previousByte,state,rep0,rep1,rep2,rep3⟩

theorem copyMatch_agrees (refines : Refines w v related) (rep0 len : Nat) (here : related a b) (previousByte : UInt8) :
    Agrees Improper (fun p q => related p.1 q.1 ∧ p.2 = q.2)
      (copyMatch w rep0 len a previousByte) (copyMatch v rep0 len b previousByte) := by
  induction len generalizing a b previousByte with
  | zero => exact .ok _ _ ⟨here,rfl⟩
  | succ len ih =>
    refine (refines.peek a b rep0 here).bind fun x _ same => ?_
    subst same
    refine (refines.put a b x here).bind fun next after here => ?_
    by_cases last : len = 0
    · rw [if_neg (not_not_intro last),if_neg (not_not_intro last)]
      exact .ok _ _ ⟨here,rfl⟩
    rw [if_pos last,if_pos last]
    refine (refines.room next after here).bind fun more _ same => ?_
    subst same
    cases more with
    | false => exact .ok _ _ ⟨here,rfl⟩
    | true => exact ih here x

variable {l : Locals σ} {k : Locals τ} (alike : Alike related l k)

include alike

theorem olderRep_simulates : Simulates Improper (Alike related) (olderRep l) (olderRep k) := by
  obtain ⟨a,b,here,previousByte,state,rep0,rep1,rep2,rep3⟩ := alike
  refine .after _ fun second => ?_
  cases second with
  | false => exact .pure (.intro a b here ..)
  | true =>
    refine .after _ fun third => ?_
    cases third <;> exact .pure (.intro a b here ..)

variable (refines : Refines w v related)

include refines

theorem literal_simulates : Simulates Improper (Alike related) (literal h w l) (literal h v k) := by
  obtain ⟨a,b,here,previousByte,state,rep0,rep1,rep2,rep3⟩ := alike
  have rest (mi : Nat) (prob : Nat) :
      Simulates Improper (Alike related)
        (do
          let mi ← plainBits prob 8 mi
          let window ← w.put a (ofNat mi)
          return ⟨window,ofNat mi,if state < 4 then 0 else if state < 10 then state - 3 else state - 6,
            rep0,rep1,rep2,rep3⟩)
        (do
          let mi ← plainBits prob 8 mi
          let window ← v.put b (ofNat mi)
          return ⟨window,ofNat mi,if state < 4 then 0 else if state < 10 then state - 3 else state - 6,
            rep0,rep1,rep2,rep3⟩) := by
    refine .after _ fun mi => ?_
    refine (Simulates.lift (refines.put a b _ here)).bind fun next after here => ?_
    exact .pure (.intro next after here ..)
  simp only [literal,refines.position a b here]
  by_cases matched : state ≥ numLitStates
  · rw [if_pos matched,if_pos matched]
    refine (Simulates.lift (refines.peek a b rep0 here)).bind fun x _ same => ?_
    subst same
    exact .after _ fun mi => rest mi _
  · rw [if_neg matched,if_neg matched]
    exact .after _ fun mi => rest mi _

theorem shortRep_simulates : Simulates Improper (Alike related) (shortRep w l) (shortRep v k) := by
  obtain ⟨a,b,here,previousByte,state,rep0,rep1,rep2,rep3⟩ := alike
  refine (Simulates.lift (refines.peek a b rep0 here)).bind fun x _ same => ?_
  subst same
  refine (Simulates.lift (refines.put a b x here)).bind fun next after here => ?_
  exact .pure (.intro next after here ..)

theorem copy_simulates (len : Nat) : Simulates Improper (Option.Rel (Alike related)) (copy w len l) (copy v len k) := by
  obtain ⟨a,b,here,previousByte,state,rep0,rep1,rep2,rep3⟩ := alike
  refine (Simulates.lift (copyMatch_agrees refines rep0 _ here previousByte)).bind fun p q both => ?_
  rw [both.2]
  exact .pure (.some (.intro p.1 q.1 both.1 ..))

theorem lengthAndCopy_simulates (prob posState : Nat) :
    Simulates Improper (Option.Rel (Alike related)) (lengthAndCopy w prob posState l)
      (lengthAndCopy v prob posState k) := by
  refine .after _ fun len => ?_
  have copies := copy_simulates alike refines len
  obtain ⟨a,b,here,previousByte,state,rep0,rep1,rep2,rep3⟩ := alike
  by_cases fresh : state < 4
  · simp only [if_pos fresh]
    refine .after _ fun distance => ?_
    split_ifs with marker
    · exact .pure .none
    · exact copy_simulates (.intro a b here ..) refines len
  · simp only [if_neg fresh]
    exact copies

theorem symbol_simulates : Simulates Improper (Option.Rel (Alike related)) (symbol h w l) (symbol h v k) := by
  have literals := literal_simulates (h := h) alike refines
  have shorts := shortRep_simulates alike refines
  have olders := olderRep_simulates alike
  obtain ⟨a,b,here,previousByte,state,rep0,rep1,rep2,rep3⟩ := alike
  simp only [symbol,refines.position a b here]
  refine .after _ fun matched => ?_
  cases matched with
  | false => exact literals.bind fun l k alike => .pure (.some alike)
  | true =>
    refine .after _ fun repeated => ?_
    cases repeated with
    | false => exact lengthAndCopy_simulates (.intro a b here ..) refines _ _
    | true =>
      refine .after _ fun older => ?_
      cases older with
      | true =>
        refine olders.bind fun l k alike => ?_
        obtain ⟨a,b,here,previousByte,_,rep0,rep1,rep2,rep3⟩ := alike
        exact lengthAndCopy_simulates (.intro a b here ..) refines _ _
      | false =>
        refine .after _ fun long => ?_
        cases long with
        | true => exact lengthAndCopy_simulates (.intro a b here ..) refines _ _
        | false => exact shorts.bind fun l k alike => .pure (.some alike)

theorem step_simulates (done : exec (step h v) fuel (rc,k) = some r) :
    (∃ failure, r.failure = some failure ∧ Improper failure) ∨
      ∃ q, exec (step h w) fuel (rc,l) = some q ∧ q.failure = r.failure ∧ related q.window r.window := by
  refine exec_simulates (fun s t => s.1 = t.1 ∧ Alike related s.2 t.2)
    (fun (q : Outcome σ) (r : Outcome τ) => q.failure = r.failure ∧ related q.window r.window)
    (fun r => ∃ failure, r.failure = some failure ∧ Improper failure) ?_ fuel (rc,l) (rc,k) ⟨rfl,alike⟩ r done
  rintro ⟨rc,l⟩ ⟨_,k⟩ ⟨rfl,alike⟩
  have goes := symbol_simulates (h := h) alike refines rc
  have windows : related l.window k.window := by
    obtain ⟨a,b,here⟩ := alike
    exact here
  simp only [step,refines.position _ _ windows]
  by_cases more : v.position k.window < h.dstSize
  · simp only [if_pos more]
    generalize symbol h w l rc = x at goes ⊢
    generalize symbol h v k rc = y at goes ⊢
    cases goes with
    | ok p q both =>
      obtain ⟨p,_⟩ := p
      obtain ⟨q,after⟩ := q
      obtain ⟨same,rfl⟩ := both
      cases same with
      | none => exact .inr ⟨_,rfl,rfl,windows⟩
      | some alike => exact ⟨_,rfl,rfl,alike⟩
    | error e => exact .inr ⟨_,rfl,rfl,windows⟩
    | excused _ e excuse => exact .inl ⟨e,rfl,excuse⟩
  · simp only [if_neg more]
    exact .inr ⟨_,rfl,rfl,windows⟩

end

/-! The circular buffer against the output. -/

structure Header.Proper (h : Header) : Prop where
  positive : 0 < h.dictSize
  dictSize : h.dictSize < 2 ^ 32
  dstSize : h.dstSize < 2 ^ 64

/-- The buffer holds the end of the output, and what was before it has been written. -/
structure Reflects (h : Header) (d : Dictionary) (out : List UInt8) : Prop where
  mirrors : Ring.Mirrors h.dictSize d.buffer out
  place : d.bufferPos = out.length % h.dictSize
  total : d.globalPos + d.bufferPos = out.length
  written : d.written = out.take d.globalPos
  bound : out.length ≤ h.dstSize

theorem wrap_inside (dictSize turns pos : Nat) (inside : pos < dictSize) : wrap dictSize turns pos = pos := by
  cases turns with
  | zero => rfl
  | succ turns => rw [wrap,if_neg (by omega)]

/-- What the two lines that compute `pos` give: the subtraction wraps, and one addition
brings it back unless the wrapped value is taken for a place already. -/
theorem dictionaryPos_eq (dictSize bufferPos rep0 : Nat) (place : bufferPos < dictSize) (small : dictSize < 2 ^ 32)
    (positive : 0 < rep0) (covered : rep0 ≤ dictSize) :
    dictionaryPos dictSize bufferPos rep0 =
      if rep0 ≤ bufferPos then bufferPos - rep0
      else if 2 ^ 32 - (rep0 - bufferPos) < dictSize then 2 ^ 32 - (rep0 - bufferPos)
      else bufferPos + dictSize - rep0 := by
  by_cases near : rep0 ≤ bufferPos
  · have value : (bufferPos + (2 ^ 32 - rep0)) % 2 ^ 32 = bufferPos - rep0 := by omega
    rw [dictionaryPos,value,wrap_inside _ _ _ (by omega),if_pos near]
  have value : (bufferPos + (2 ^ 32 - rep0)) % 2 ^ 32 = 2 ^ 32 - (rep0 - bufferPos) := by omega
  rw [dictionaryPos,value,if_neg near]
  by_cases mistaken : 2 ^ 32 - (rep0 - bufferPos) < dictSize
  · rw [if_pos mistaken,wrap_inside _ _ _ mistaken]
  have again : (2 ^ 32 - (rep0 - bufferPos) + dictSize) % 2 ^ 32 = bufferPos + dictSize - rep0 := by omega
  rw [if_neg mistaken,show (2 ^ 32 : Nat) = (2 ^ 32 - 1) + 1 from rfl,wrap]
  rw [if_pos (by omega)]
  show wrap dictSize (2 ^ 32 - 1) ((2 ^ 32 - (rep0 - bufferPos) + dictSize) % 2 ^ 32) = _
  rw [again,wrap_inside _ _ _ (by omega)]

theorem dictionaryPos_back {h : Header} {out : List UInt8} (proper : h.Proper) (half : h.dictSize ≤ 2 ^ 31)
    (positive : 0 < rep0) (covered : rep0 ≤ h.dictSize) (written : rep0 ≤ out.length) :
    dictionaryPos h.dictSize (out.length % h.dictSize) rep0 = (out.length - rep0) % h.dictSize := by
  have place := mod_lt out.length proper.positive
  rw [dictionaryPos_eq _ _ _ place proper.dictSize positive covered]
  by_cases near : rep0 ≤ out.length % h.dictSize
  · rw [if_pos near,← mod_sub_of_le near]
  · rw [if_neg near,if_neg (by omega),Ring.back_far (by omega) covered written]

theorem reflects_start (h : Header) (heap : Nat → UInt8) : Reflects h ⟨heap,0,0,[]⟩ [] :=
  ⟨Ring.mirrors_nil _ _,(zero_mod _).symm,rfl,rfl,zero_le _⟩

theorem Reflects.put (reflects : Reflects h d out) (proper : h.Proper) (x : UInt8) (room : out.length < h.dstSize) :
    ∃ next, (circular h).put d x = .ok next ∧ Reflects h next (out ++ [x]) := by
  have place := mod_lt out.length proper.positive
  have total := reflects.total
  have large := proper.dstSize
  have split := div_add_mod out.length h.dictSize
  have mirrors := reflects.mirrors.push x
  rw [← reflects.place] at place split mirrors
  have capacity : d.bufferPos < h.capacity := by
    rw [Header.capacity]
    omega
  have length : (out ++ [x]).length = out.length + 1 := by simp
  by_cases full : d.bufferPos + 1 = h.dictSize
  · have turn : out.length + 1 - h.dictSize = h.dictSize * (out.length / h.dictSize) := by omega
    have whole := mirrors.front h.dictSize (le_refl _) (by omega) (by rw [length,turn,mul_mod_right])
    refine ⟨⟨update d.buffer d.bufferPos x,0,(d.globalPos + h.dictSize) % 2 ^ 64,
      d.written ++ (List.range h.dictSize).map (update d.buffer d.bufferPos x)⟩,?_,mirrors,?_,?_,?_,?_⟩
    · simp only [circular,if_pos capacity,if_pos full]
    · rw [length,show out.length + 1 = h.dictSize * (out.length / h.dictSize) + h.dictSize by omega,add_mod_right,
        mul_mod_right]
    · show (d.globalPos + h.dictSize) % 2 ^ 64 + 0 = _
      omega
    · show d.written ++ _ = List.take ((d.globalPos + h.dictSize) % 2 ^ 64) _
      have same : (out ++ [x]).length - h.dictSize = d.globalPos := by omega
      have before : d.written = (out ++ [x]).take d.globalPos := by
        rw [reflects.written,take_append_of_le_length (by omega)]
      rw [same] at whole
      rw [whole,before,take_append_drop,mod_eq_of_lt (by omega),take_of_length_le (by omega)]
    · omega
  · refine ⟨{ d with buffer := update d.buffer d.bufferPos x, bufferPos := d.bufferPos + 1 },?_,mirrors,
      ?_,?_,?_,?_⟩
    · simp only [circular,if_pos capacity,if_neg full]
    · rw [length,show out.length + 1 = h.dictSize * (out.length / h.dictSize) + (d.bufferPos + 1) by omega,
        mul_add_mod,mod_eq_of_lt (by omega)]
    · show d.globalPos + (d.bufferPos + 1) = _
      omega
    · show d.written = List.take d.globalPos _
      rw [reflects.written,take_append_of_le_length (by omega)]
    · omega

theorem Reflects.position (reflects : Reflects h d out) (proper : h.Proper) : (circular h).position d = out.length := by
  have total := reflects.total
  have bound := reflects.bound
  have large := proper.dstSize
  show (d.bufferPos + d.globalPos) % 2 ^ 64 = out.length
  omega

theorem Reflects.room (reflects : Reflects h d out) (room : out.length < h.dstSize) :
    (circular h).room d = .ok true := by
  have total := reflects.total
  have inside : d.bufferPos < h.dstSize := by omega
  simp only [circular,inside,decide_true]

theorem history_put (x : UInt8) (room : out.length < h.dstSize) :
    (history h).put out x = .ok (out ++ [x]) := if_pos room

theorem history_room (room : out.length < h.dstSize) : (history h).room out = .ok true := if_pos room

theorem circular_refines (proper : h.Proper) (half : h.dictSize ≤ 2 ^ 31) :
    Refines (circular h) (history h) (Reflects h) where
  position d out reflects := reflects.position proper
  peek d out rep0 reflects := by
    simp only [history]
    split
    case isTrue => exact .excused _ _ rfl
    case isFalse right =>
      have ⟨positive,covered,written⟩ : 0 < rep0 ∧ rep0 ≤ h.dictSize ∧ rep0 ≤ out.length := by omega
      have pos := dictionaryPos_back proper half positive covered written
      rw [← reflects.place] at pos
      have small := mod_lt (out.length - rep0) proper.positive
      have early := mod_le (out.length - rep0) h.dictSize
      have bound := reflects.bound
      have inside : dictionaryPos h.dictSize d.bufferPos rep0 < h.capacity := by
        rw [pos,Header.capacity]
        omega
      simp only [circular,if_pos inside]
      rw [pos,getD_eq_getElem?_getD,reflects.mirrors.read rep0 positive covered written]
      exact .ok _ _ rfl
  put d out x reflects := by
    by_cases room : out.length < h.dstSize
    · obtain ⟨next,puts,reflects⟩ := reflects.put proper x room
      rw [puts,history_put x room]
      exact .ok _ _ reflects
    · rw [history]
      simp only [if_neg room]
      exact .excused _ _ rfl
  room d out reflects := by
    by_cases room : out.length < h.dstSize
    · rw [reflects.room room,history_room room]
      exact .ok _ _ rfl
    · rw [history]
      simp only [if_neg room]
      exact .excused _ _ rfl

/-! Whole runs. -/

theorem littleEndian_lt (bytes : List UInt8) : littleEndian bytes < 256 ^ bytes.length := by
  induction bytes with
  | nil => decide
  | cons byte rest ih =>
    have small := byte.toNat_lt
    rw [length_cons,pow_succ]
    simp only [littleEndian,foldr_cons] at ih ⊢
    omega

theorem readHeader_proper (header : readHeader input = .ok (h,rest)) : h.Proper := by
  cases input with
  | nil => cases header
  | cons pos bytes =>
    simp only [readHeader] at header
    split at header
    · cases header
    split at header
    · cases header
    cases header
    have dict := littleEndian_lt (bytes.take 4)
    have dst := littleEndian_lt ((bytes.drop 4).take 8)
    rw [length_take,min_eq_left (by omega)] at dict
    rw [length_take,length_drop,min_eq_left (by omega)] at dst
    constructor
    · dsimp only
      split <;> omega
    · dsimp only
      split <;> omega
    · exact dst

theorem start_eq {σ : Type} (window : σ) (input : List UInt8) :
    start window input =
      (rcInit 5 ⟨0,0xFFFFFFFF,0,fun _ => .initial,input⟩).map fun rc => (rc,⟨window,0,0,1,1,1,1⟩) := by
  rw [start]
  cases rcInit 5 ⟨0,0xFFFFFFFF,0,fun _ => .initial,input⟩ <;> rfl

theorem Reflects.finish (reflects : Reflects h d out) (proper : h.Proper) : finish ⟨none,d⟩ = ⟨none,out⟩ := by
  have total := reflects.total
  have small := mod_lt out.length proper.positive
  have split := div_add_mod out.length h.dictSize
  rw [← reflects.place] at small split
  have turn : (out.length - d.bufferPos) % h.dictSize = 0 := by
    rw [show out.length - d.bufferPos = h.dictSize * (out.length / h.dictSize) by omega,mul_mod_right]
  have last := reflects.mirrors.front d.bufferPos (by omega) (by omega) turn
  rw [show out.length - d.bufferPos = d.globalPos by omega] at last
  simp only [Unlzma.finish,reflects.written,last,take_append_drop]

/-- The program against the same decoder with an unbounded history. A proper stream is
written as a whole, and a stream that is cut off up to the last time the buffer was full. -/
theorem unlzma_history (heap : Nat → UInt8) (header : readHeader input = .ok (h,rest)) (half : h.dictSize ≤ 2 ^ 31)
    (done : unlzmaHistory fuel input = some r) :
    r.failure = some .undefined ∨
      ∃ q, unlzma heap fuel input = some q ∧ q.failure = r.failure ∧
        q.written = if r.failure = none then r.written
          else r.written.take (h.dictSize * (r.written.length / h.dictSize)) := by
  have proper := readHeader_proper header
  simp only [unlzmaHistory,unlzma,header,start_eq] at done ⊢
  cases first : rcInit 5 ⟨0,0xFFFFFFFF,0,fun _ => .initial,rest⟩ with
  | error failure =>
    rw [first] at done
    cases done
    exact .inr ⟨_,rfl,rfl,by simp⟩
  | ok rc =>
    rw [first] at done
    simp only [Except.map] at done ⊢
    obtain ⟨outcome,ran,rfl⟩ := Option.map_eq_some_iff.mp done
    have both := step_simulates (.intro _ _ (reflects_start h heap) 0 0 1 1 1 1) (circular_refines proper half) ran
    rcases both with ⟨failure,fails,improper⟩ | ⟨q,ran,same,reflects⟩
    · exact .inl (by rw [fails,improper])
    refine .inr ⟨finish q,by rw [ran]; rfl,?_⟩
    obtain ⟨failure,d⟩ := q
    obtain ⟨_,out⟩ := outcome
    cases same
    cases failure with
    | none =>
      rw [reflects.finish proper]
      exact ⟨rfl,rfl⟩
    | some failure =>
      have reflects : Reflects h d out := reflects
      have total := reflects.total
      have split := div_add_mod out.length h.dictSize
      have place := reflects.place
      refine ⟨rfl,?_⟩
      show d.written = List.take (h.dictSize * (out.length / h.dictSize)) out
      rw [reflects.written]
      congr 1
      omega

end Stablebox.Unlzma
