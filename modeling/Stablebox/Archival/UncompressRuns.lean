import Stablebox.Archival.CompressFormat

/-! Whole runs of `uncompress` on packed codes: the place in the buffer and the place in the packed
bits go along with each other, whatever the reads return. -/
namespace Stablebox.Uncompress

open List Bits UInt8 Lzw

/-! ### Codes in the buffer -/

theorem value_ofBytes_cons (byte : UInt8) (bytes : List UInt8) :
    value (ofBytes (byte :: bytes)) = byte.toNat + 256 * value (ofBytes bytes) := by
  have small := byte.toNat_lt
  rw [ofBytes_cons,value_append,value_low,low_length,Nat.mod_eq_of_lt small]
  rfl

theorem value_three (p : List UInt8) : value (ofBytes p) % 2 ^ 24 =
    (p.getD 0 0).toNat + (p.getD 1 0).toNat * 2 ^ 8 + (p.getD 2 0).toNat * 2 ^ 16 := by
  have none : value (ofBytes []) = 0 := rfl
  match p with
  | [] => simp [none]
  | [a] =>
    have := a.toNat_lt
    simp [value_ofBytes_cons,none]
    omega
  | [a,b] =>
    have := a.toNat_lt
    have := b.toNat_lt
    simp [value_ofBytes_cons,none]
    omega
  | a :: b :: c :: rest =>
    have := a.toNat_lt
    have := b.toNat_lt
    have := c.toNat_lt
    simp [value_ofBytes_cons]
    omega

theorem codeAt_eq (narrow : nBits ≤ 16) (inside : posbits + nBits ≤ 8 * inbuf.length) (count : bits.length = nBits)
    (here : (ofBytes (inbuf ++ more)).drop posbits = bits ++ rest) (means : value bits = code) :
    codeAt inbuf posbits nBits = code := by
  have taken : bits = ((ofBytes inbuf).drop posbits).take nBits := by
    have whole : nBits ≤ ((ofBytes inbuf).drop posbits).length := by
      rw [length_drop,ofBytes_length]
      omega
    have front : (bits ++ rest).take nBits = bits := take_left' count
    rw [← here,ofBytes_append,drop_append_of_le_length (by simp; omega),take_append_of_le_length whole] at front
    exact front.symm
  have split : posbits = 8 * (posbits / 8) + posbits % 8 := by omega
  rw [split,← drop_drop,ofBytes_drop] at taken
  rw [← means,taken,value_take,value_drop,codeAt]
  rw [← value_three,show 2 ^ 24 = 2 ^ (posbits % 8) * 2 ^ (24 - posbits % 8) by rw [← pow_add]; congr 1; omega,
    Nat.mod_mul_right_div_self,Nat.mod_mod_of_dvd _ (Nat.pow_dvd_pow 2 (by omega))]

/-! ### The place in the packed bits -/

def State.pending (s : State) : List Bool := (ofBytes (s.inbuf ++ s.fdIn.flatMap Chunk.bytes)).drop s.posbits

/-- Not more codes than a table of nine bits has room for. -/
def Roomy (maxbits : Nat) (blockMode : Bool) : (count : Nat) → List Nat → Prop
  | _,[] => True
  | count,code :: codes =>
    (10 ≤ maxbits ∨ count ≤ 512 - firstOf blockMode) ∧
      Roomy maxbits blockMode (if code = clear ∧ blockMode then 0 else count + 1) codes

/-- The buffer and the group of eight codes begin together. -/
def Aligned (position : Nat) (s : State) : Prop :=
  match s.phase with
  | .resetbuf =>
    s.posbits % 8 = 0 ∧ position % (s.nBits * 8) = 0 ∧ (s.rsize = 0 → s.fdIn = [] ∨ s.inbuf.length < 64)
  | .codes inbits =>
    s.posbits % (s.nBits * 8) = position % (s.nBits * 8) ∧ s.posbits % s.nBits = 0 ∧
      inbits = inbitsOf s.inbuf.length s.rsize s.nBits ∧ (0 < s.rsize → s.posbits ≤ inbits) ∧
      (s.rsize = 0 → s.fdIn = [])

def Related (maxbits : Nat) (blockMode : Bool) (count : Nat) (s : State) :
    Option (List (List UInt8) × List UInt8) → Prop
  | none => Fresh blockMode s ∧ count = 0 ∧ s.nBits = 9
  | some (dict,last) => Holds maxbits blockMode dict last s ∧ ∃ before, count = before + 1 ∧
    dict.length = min before (2 ^ maxbits - firstOf blockMode) ∧
    (s.nBits = codeWidth maxbits blockMode before ∨ s.nBits = codeWidth maxbits blockMode count)

/-- The codes that are still to come, and what is known of the state. -/
structure Before (maxbits : Nat) (blockMode : Bool) (fill : Nat → Nat → Bool) (flush : Bool)
    (dict : Option (List (List UInt8) × List UInt8)) (codes : List Nat) (count position : Nat) (s : State) : Prop where
  related : Related maxbits blockMode count s dict
  roomy : Roomy maxbits blockMode count codes
  packed : ∃ tail, tail.length < 8 ∧
    s.pending = pack maxbits blockMode fill flush s.nBits count position codes ++ tail
  maxcode : s.maxcode = if s.nBits = maxbits ∧ s.nBits ≠ 9 then 2 ^ s.nBits else 2 ^ s.nBits - 1
  inside : s.posbits ≤ s.inbuf.length * 8
  aligned : Aligned position s

section Turn

variable {maxbits : Nat} {blockMode : Bool} {fill : Nat → Nat → Bool} {flush : Bool}
  {dict : Option (List (List UInt8) × List UInt8)} {codes : List Nat} {count position : Nat} {s : State}

theorem pending_length (s : State) : s.inbuf.length * 8 - s.posbits ≤ s.pending.length := by
  simp [State.pending]
  omega

theorem pending_ended (ended : s.fdIn = []) : s.pending.length = s.inbuf.length * 8 - s.posbits := by
  simp [State.pending,ended]
  omega

theorem pending_of_posbits (s next : State) (inbuf : next.inbuf = s.inbuf) (fdIn : next.fdIn = s.fdIn) (more : Nat)
    (posbits : next.posbits = s.posbits + more) : next.pending = s.pending.drop more := by
  rw [State.pending,State.pending,inbuf,fdIn,posbits,drop_drop]

theorem refill_eq (inbuf : List UInt8) (rsize : Nat) (fdIn : List Chunk) :
    (refill inbuf rsize fdIn).1 ++ (refill inbuf rsize fdIn).2.2.flatMap Chunk.bytes =
        inbuf ++ fdIn.flatMap Chunk.bytes ∧
      ((rsize = 0 → fdIn = [] ∨ inbuf.length < 64) → (refill inbuf rsize fdIn).2.1 = 0 →
        (refill inbuf rsize fdIn).2.2 = []) := by
  unfold refill
  split
  · cases fdIn with
    | nil => simp
    | cons chunk fdIn =>
      refine ⟨by simp,fun _ none => ?_⟩
      exact absurd (length_eq_zero_iff.mp none) chunk.nonempty
  · rename_i much
    exact ⟨rfl,fun ended zero => (ended zero).resolve_right much⟩

variable {inbits : Int}

theorem inbitsOf_nonneg (positive : 0 < rsize) : (0 : Int) ≤ inbitsOf insize rsize nBits := by
  rw [inbitsOf,if_pos positive]
  omega

theorem padCount_mod (same : a % (nBits * 8) = b % (nBits * 8)) : padCount nBits a = padCount nBits b := by
  rw [padCount,padCount,same]

theorem padCount_dvd (positive : 0 < nBits) (posbits : Nat) : nBits * 8 ∣ posbits + padCount nBits posbits := by
  have some : 0 < nBits * 8 := by omega
  unfold padCount
  generalize nBits * 8 = group at some ⊢
  have bound := Nat.mod_lt posbits some
  have split := Nat.mod_add_div posbits group
  rcases eq_zero_or_pos (posbits % group) with zero | inside
  · rw [zero,Nat.sub_zero,Nat.mod_self]
    exact Nat.dvd_of_mod_eq_zero zero
  · rw [Nat.mod_eq_of_lt (by omega)]
    refine ⟨posbits / group + 1,?_⟩
    rw [Nat.mul_succ]
    omega

theorem padCount_le (positive : 0 < nBits) (bound : posbits ≤ limit) (groups : nBits * 8 ∣ limit) :
    posbits + padCount nBits posbits ≤ limit := by
  have small : padCount nBits posbits < nBits * 8 := Nat.mod_lt _ (by omega)
  obtain ⟨a,eqA⟩ := padCount_dvd positive posbits
  obtain ⟨b,rfl⟩ := groups
  generalize nBits * 8 = group at *
  rw [eqA]
  apply Nat.mul_le_mul_left
  by_contra above
  have next := Nat.mul_le_mul_left group (show b + 1 ≤ a by omega)
  rw [Nat.mul_succ] at next
  omega

theorem Related.moved (related : Related maxbits blockMode count s dict) (inbuf : List UInt8) (posbits rsize : Nat)
    (fdIn : List Chunk) (phase : Phase) :
    Related maxbits blockMode count { s with inbuf, posbits, rsize, fdIn, phase } dict := by
  match dict with
  | none => exact ⟨{ related.1 with },related.2⟩
  | some (dict,last) => exact ⟨{ related.1 with },related.2⟩

theorem Before.resetbuf (before : Before maxbits blockMode fill flush dict codes count position s)
    (phase : s.phase = .resetbuf) : Before maxbits blockMode fill flush dict codes count position (resetbuf s) := by
  have inside := before.inside
  have aligned := before.aligned
  simp only [Aligned,phase] at aligned
  obtain ⟨whole,groups,ended⟩ := aligned
  obtain ⟨same,exhausted⟩ := refill_eq (s.inbuf.drop (s.posbits / 8)) s.rsize s.fdIn
  have pending : (Uncompress.resetbuf s).pending = s.pending := by
    have bytes : s.posbits = 8 * (s.posbits / 8) := by omega
    have moved : (Uncompress.resetbuf s).pending =
        ofBytes (s.inbuf.drop (s.posbits / 8) ++ s.fdIn.flatMap Chunk.bytes) := by
      rw [← same]
      exact drop_zero
    rw [moved,State.pending,bytes,ofBytes_drop,drop_append_of_le_length (by omega),← bytes]
  exact
    { related := before.related.moved _ _ _ _ _
      roomy := before.roomy
      packed := by
        rw [pending]
        exact before.packed
      maxcode := before.maxcode
      inside := Nat.zero_le _
      aligned := by
        refine ⟨(Nat.zero_mod _).trans groups.symm,Nat.zero_mod _,rfl,fun positive => ?_,exhausted fun zero => ?_⟩
        · exact inbitsOf_nonneg positive
        refine (ended zero).imp_right fun few => ?_
        rw [length_drop]
        omega }

theorem Before.inCodes (before : Before maxbits blockMode fill flush dict codes count position s)
    (phase : s.phase = .codes inbits) :
    s.posbits % (s.nBits * 8) = position % (s.nBits * 8) ∧ s.posbits % s.nBits = 0 ∧
      inbits = inbitsOf s.inbuf.length s.rsize s.nBits ∧ (0 < s.rsize → s.posbits ≤ inbits) ∧
      (s.rsize = 0 → s.fdIn = []) := by
  simpa only [Aligned,phase] using before.aligned

section Codes

variable (before : Before maxbits blockMode fill flush dict codes count position s) (large : 9 ≤ maxbits)

include before large

theorem Before.bits : 9 ≤ s.nBits ∧ s.nBits ≤ maxbits ∧ s.nBits ≤ codeWidth maxbits blockMode count := by
  have related := before.related
  match dict with
  | none =>
    obtain ⟨_,rfl,nine⟩ := related
    rw [codeWidth_zero]
    omega
  | some (dict,last) =>
    obtain ⟨_,earlier,rfl,_,either⟩ := related
    have mono := codeWidth_mono maxbits blockMode (show earlier ≤ earlier + 1 by omega)
    have least := codeWidth_ge maxbits blockMode earlier
    have most := codeWidth_le blockMode large (earlier + 1)
    rcases either with same | same <;> omega

theorem Before.widens (room : 10 ≤ maxbits ∨ count ≤ 512 - firstOf blockMode) :
    s.freeEnt > s.maxcode ∧ codeWidth maxbits blockMode count = s.nBits + 1 ∨
      ¬ s.freeEnt > s.maxcode ∧ codeWidth maxbits blockMode count = s.nBits := by
  have related := before.related
  have limit := before.maxcode
  match dict with
  | none =>
    obtain ⟨fresh,rfl,nine⟩ := related
    have base := firstOf_le blockMode
    have free : s.freeEnt ≤ 257 := by
      rcases fresh.free with ⟨_,_,free⟩ | ⟨_,_,free⟩
      · omega
      · simp [free,first]
    have high : 511 ≤ s.maxcode := by
      rw [limit,nine]
      simp
    exact .inr ⟨by omega,by rw [codeWidth_zero,nine]⟩
  | some (dict,last) =>
    obtain ⟨holds,earlier,rfl,entries,either⟩ := related
    rw [holds.free,entries]
    by_cases current : codeWidth maxbits blockMode earlier = s.nBits
    · exact widens_iff large current limit room
    -- the codes are already wider
    have here := either.resolve_left fun same => current same.symm
    have enough := lt_codeWidth maxbits blockMode earlier
    have mono := codeWidth_mono maxbits blockMode (show earlier ≤ earlier + 1 by omega)
    have doubles : 2 ^ codeWidth maxbits blockMode earlier * 2 ≤ 2 ^ s.nBits := by
      rw [← pow_succ]
      exact Nat.pow_le_pow_right (by decide) (by omega)
    refine .inr ⟨?_,here.symm⟩
    split at limit <;> omega

variable (phase : s.phase = .codes inbits)

include phase

theorem Before.whole (more : inbits > s.posbits) :
    s.posbits + s.nBits ≤ s.inbuf.length * 8 ∧ (0 < s.rsize → ((s.posbits + s.nBits : Nat) : Int) ≤ inbits) := by
  obtain ⟨nine,_,_⟩ := before.bits large
  obtain ⟨_,each,last,_,_⟩ := before.inCodes phase
  rcases eq_zero_or_pos s.rsize with zero | positive
  · rw [inbitsOf,if_neg (by omega)] at last
    exact ⟨by omega,fun positive => by omega⟩
  rw [inbitsOf,if_pos positive] at last
  have groups : s.nBits ∣ (s.inbuf.length - s.inbuf.length % s.nBits) * 8 := Dvd.dvd.mul_right (Nat.dvd_sub_mod _) 8
  obtain ⟨a,eqA⟩ := Nat.dvd_of_mod_eq_zero each
  obtain ⟨b,eqB⟩ := groups
  have less : s.nBits * a < s.nBits * b := by omega
  have next := Nat.mul_le_mul_left s.nBits (Nat.lt_of_mul_lt_mul_left less)
  rw [Nat.mul_succ] at next
  exact ⟨by omega,fun _ => by omega⟩

theorem Before.leave (less : ¬ inbits > s.posbits) (positive : 0 < s.rsize) :
    Before maxbits blockMode fill flush dict codes count position { s with phase := .resetbuf } ∧
      s.inbuf.length - s.posbits / 8 < s.nBits := by
  obtain ⟨nine,_,_⟩ := before.bits large
  obtain ⟨place,each,last,reading,ended⟩ := before.inCodes phase
  rw [inbitsOf,if_pos positive] at last
  have here : s.posbits = (s.inbuf.length - s.inbuf.length % s.nBits) * 8 := by omega
  have groups : s.posbits % (s.nBits * 8) = 0 := by
    rw [here]
    exact Nat.mod_eq_zero_of_dvd (Nat.mul_dvd_mul_right (Nat.dvd_sub_mod _) 8)
  have rest := Nat.mod_lt s.inbuf.length (show 0 < s.nBits by omega)
  refine ⟨{ before with related := before.related.moved _ _ _ _ _, aligned := ⟨?_,?_,fun zero => ?_⟩ },by omega⟩
  · change s.posbits % 8 = 0
    omega
  · rw [← place,groups]
  · change s.rsize = 0 at zero
    omega

theorem Before.group_inside {posbits : Nat} (reading : 0 < s.rsize → (posbits : Int) ≤ inbits)
    (ended : s.rsize = 0 → posbits + padCount s.nBits posbits ≤ s.inbuf.length * 8) :
    posbits + padCount s.nBits posbits ≤ s.inbuf.length * 8 := by
  obtain ⟨nine,_,_⟩ := before.bits large
  obtain ⟨_,_,last,_,_⟩ := before.inCodes phase
  rcases eq_zero_or_pos s.rsize with zero | positive
  · exact ended zero
  rw [inbitsOf,if_pos positive] at last
  have whole := padCount_le (show 0 < s.nBits by omega)
    (show posbits ≤ (s.inbuf.length - s.inbuf.length % s.nBits) * 8 by omega)
    (Nat.mul_dvd_mul_right (Nat.dvd_sub_mod _) 8)
  omega

theorem Before.widen (more : inbits > s.posbits) (wider : codeWidth maxbits blockMode count = s.nBits + 1) :
    Before maxbits blockMode fill flush dict codes count 0 (widen maxbits s) := by
  obtain ⟨nine,most,_⟩ := before.bits large
  have narrow := codeWidth_le blockMode large count
  obtain ⟨whole,reading⟩ := before.whole large phase more
  obtain ⟨place,_,_,_,ended⟩ := before.inCodes phase
  have posbits : (Uncompress.widen maxbits s).posbits = s.posbits + padCount s.nBits s.posbits :=
    groupEnd_eq (by omega) s.posbits
  obtain ⟨tail,short,packed⟩ := before.packed
  -- the padding is there, since a code of the old width would fit in what is left
  obtain ⟨padded,filled,split⟩ : ∃ padded : List Bool, padded.length = padCount s.nBits position ∧
      pack maxbits blockMode fill flush s.nBits count position codes =
        padded ++ pack maxbits blockMode fill flush (s.nBits + 1) count 0 codes := by
    cases codes with
    | nil =>
      have length := pending_length s
      rw [packed] at length
      have flushed : flush = true := by
        by_contra other
        simp [pack,other] at length
        omega
      refine ⟨padding (fill 0) (padCount s.nBits position) position,by simp,?_⟩
      simp [pack,flushed,wider]
    | cons code codes =>
      refine ⟨padding (fill (codes.length + 1)) (padCount s.nBits position) position,by simp,?_⟩
      simp [pack,wider]
  rw [← padCount_mod place] at filled
  have pending : (Uncompress.widen maxbits s).pending =
      pack maxbits blockMode fill flush (s.nBits + 1) count 0 codes ++ tail := by
    have moved : (Uncompress.widen maxbits s).pending = s.pending.drop (padCount s.nBits s.posbits) :=
      pending_of_posbits s (Uncompress.widen maxbits s) rfl rfl _ posbits
    rw [moved,packed,split,append_assoc,drop_left' filled]
  have inside : s.posbits + padCount s.nBits s.posbits ≤ s.inbuf.length * 8 := by
    refine before.group_inside large phase (fun positive => by have := reading positive; omega) fun zero => ?_
    have length := pending_ended (ended zero)
    rw [packed,split,length_append,length_append,filled] at length
    omega
  exact
    { related := by
        have related := before.related
        match dict with
        | none =>
          obtain ⟨_,rfl,nine⟩ := related
          rw [codeWidth_zero] at wider
          omega
        | some (dict,last) =>
          obtain ⟨holds,earlier,after,entries,_⟩ := related
          exact ⟨{ holds with },earlier,after,entries,.inr wider.symm⟩
      roomy := before.roomy
      packed := ⟨tail,short,pending⟩
      maxcode := by
        have wide : maxbits ≠ 9 := by omega
        by_cases same : s.nBits + 1 = maxbits
        · simp [Uncompress.widen,same,wide]
        · simp [Uncompress.widen,same]
      inside := by rwa [posbits]
      aligned := by
        refine ⟨?_,Nat.zero_mod _,fun zero => .inl (ended zero)⟩
        rw [posbits]
        exact Nat.mod_eq_zero_of_dvd (dvd_trans (Nat.dvd_mul_left 8 _) (padCount_dvd (by omega) _)) }

theorem Before.unfinished (more : inbits > s.posbits) : codes ≠ [] ∨ codeWidth maxbits blockMode count ≠ s.nBits := by
  obtain ⟨nine,_,_⟩ := before.bits large
  obtain ⟨whole,_⟩ := before.whole large phase more
  obtain ⟨tail,short,packed⟩ := before.packed
  by_contra finished
  push Not at finished
  obtain ⟨rfl,same⟩ := finished
  have length := pending_length s
  rw [packed] at length
  simp [pack,same] at length
  omega

theorem Before.room (more : inbits > s.posbits) : 10 ≤ maxbits ∨ count ≤ 512 - firstOf blockMode := by
  cases codes with
  | cons code codes => exact before.roomy.1
  | nil =>
    obtain ⟨nine,_,least⟩ := before.bits large
    have differ := (before.unfinished large phase more).resolve_left fun other => other rfl
    have most := codeWidth_le blockMode large count
    exact .inl (by omega)

theorem Before.finished (less : ¬ inbits > s.posbits) (zero : s.rsize = 0) : codes = [] := by
  obtain ⟨nine,_,width⟩ := before.bits large
  obtain ⟨tail,_,packed⟩ := before.packed
  obtain ⟨_,_,last,_,ended⟩ := before.inCodes phase
  rw [inbitsOf,if_neg (by omega)] at last
  have length := pending_ended (ended zero)
  cases codes with
  | nil => rfl
  | cons code codes =>
    rw [packed,pack] at length
    simp only [length_append,low_length] at length
    omega

end Codes

theorem pack_cons (same : codeWidth maxbits blockMode count = s.nBits) :
    pack maxbits blockMode fill flush s.nBits count position (code :: codes) =
      low s.nBits code ++
        if code = clear ∧ blockMode then
          padding (fill codes.length) (padCount s.nBits (position + s.nBits)) (position + s.nBits) ++
            pack maxbits blockMode fill flush initBits 0 0 codes
        else pack maxbits blockMode fill flush s.nBits (count + 1) (position + s.nBits) codes := by
  rw [pack]
  simp [same]

section

variable (large : 9 ≤ maxbits) (phase : s.phase = .codes inbits) (more : inbits > s.posbits)
  (same : codeWidth maxbits blockMode count = s.nBits)

include large phase more same

theorem Before.codeAt (before : Before maxbits blockMode fill flush dict (code :: codes) count position s)
    (small : maxbits ≤ 16) (fits : code < 2 ^ s.nBits) :
    codeAt s.inbuf s.posbits s.nBits = code := by
  obtain ⟨_,most,_⟩ := before.bits large
  obtain ⟨whole,_⟩ := before.whole large phase more
  obtain ⟨tail,_,packed⟩ := before.packed
  rw [pack_cons same,append_assoc] at packed
  refine codeAt_eq (by omega) (by omega) (low_length _ _) packed ?_
  rw [value_low,Nat.mod_eq_of_lt fits]

theorem Before.after {after : Option (List (List UInt8) × List UInt8)} {next : State}
    (before : Before maxbits blockMode fill flush dict (code :: codes) count position s)
    (other : ¬ (code = clear ∧ blockMode = true)) (input : SameInput { s with posbits := s.posbits + s.nBits } next)
    (related : Related maxbits blockMode (count + 1) next after) :
    Before maxbits blockMode fill flush after codes (count + 1) (position + s.nBits) next := by
  obtain ⟨whole,reading⟩ := before.whole large phase more
  obtain ⟨tail,short,packed⟩ := before.packed
  obtain ⟨place,each,last,_,ended⟩ := before.inCodes phase
  rw [pack_cons same,if_neg other,append_assoc] at packed
  have nBits : next.nBits = s.nBits := input.nBits
  have nextPhase : next.phase = .codes inbits := input.phase.trans phase
  exact
    { related
      roomy := by
        have rest := before.roomy.2
        rwa [if_neg other] at rest
      packed := by
        refine ⟨tail,short,?_⟩
        rw [pending_of_posbits s next input.inbuf input.fdIn s.nBits input.posbits,packed,nBits,
          drop_left' (low_length _ _)]
      maxcode := by
        rw [input.maxcode,nBits]
        exact before.maxcode
      inside := by
        rw [input.posbits,input.inbuf]
        exact whole
      aligned := by
        simp only [Aligned,nextPhase,nBits,input.posbits,input.inbuf,input.rsize,input.fdIn]
        exact ⟨Nat.ModEq.add_right _ place,by rw [Nat.add_mod_right]; exact each,last,reading,ended⟩ }

theorem Before.cleared
    (before : Before maxbits blockMode fill flush (some (table,final)) (clear :: codes) count position s)
    (block : blockMode = true) :
    Before maxbits blockMode fill flush none codes 0 0 (clearTable { s with posbits := s.posbits + s.nBits }) := by
  obtain ⟨nine,_,_⟩ := before.bits large
  obtain ⟨whole,reading⟩ := before.whole large phase more
  obtain ⟨tail,short,packed⟩ := before.packed
  obtain ⟨holds,_⟩ := before.related
  obtain ⟨oldcode,known,_⟩ := holds.old
  obtain ⟨place,_,_,_,ended⟩ := before.inCodes phase
  have pads := padCount_mod (Nat.ModEq.add_right s.nBits place)
  rw [pack_cons same,if_pos ⟨rfl,block⟩,append_assoc,append_assoc,← pads] at packed
  have posbits : (clearTable { s with posbits := s.posbits + s.nBits }).posbits =
      s.posbits + (s.nBits + padCount s.nBits (s.posbits + s.nBits)) := by
    rw [← add_assoc]
    exact groupEnd_eq (show 0 < s.nBits by omega) _
  have moved : (clearTable { s with posbits := s.posbits + s.nBits }).pending =
      s.pending.drop (s.nBits + padCount s.nBits (s.posbits + s.nBits)) :=
    pending_of_posbits s (clearTable { s with posbits := s.posbits + s.nBits }) rfl rfl _ posbits
  have inside : s.posbits + s.nBits + padCount s.nBits (s.posbits + s.nBits) ≤ s.inbuf.length * 8 := by
    refine before.group_inside large phase reading fun zero => ?_
    have length := pending_ended (ended zero)
    rw [packed,length_append,length_append,low_length,padding_length] at length
    omega
  exact
    { related := ⟨⟨⟨holds.bytes,holds.notFull⟩,.inr ⟨block,⟨oldcode,known⟩,rfl⟩⟩,rfl,rfl⟩
      roomy := by
        have rest := before.roomy.2
        rwa [if_pos ⟨rfl,block⟩] at rest
      packed := by
        refine ⟨tail,short,?_⟩
        rw [moved,packed,← drop_drop,drop_left' (low_length _ _),drop_left' (padding_length _ _ _)]
        rfl
      maxcode := by simp [clearTable,initBits]
      inside := by
        rw [posbits,← add_assoc]
        exact inside
      aligned := by
        refine ⟨?_,Nat.zero_mod _,fun zero => .inl (ended zero)⟩
        rw [posbits,← add_assoc]
        exact Nat.mod_eq_zero_of_dvd (dvd_trans (Nat.dvd_mul_left 8 _) (padCount_dvd (by omega) _)) }

def clearOf (blockMode : Bool) : Option Nat := if blockMode then some clear else none

end

theorem clearOf_eq_some : clearOf blockMode = some code ↔ code = clear ∧ blockMode = true := by
  cases blockMode <;> simp [clearOf,eq_comm]

theorem Before.nextCode (before : Before maxbits blockMode fill flush dict (code :: codes) count position s)
    (large : 9 ≤ maxbits) (small : maxbits ≤ 16) (phase : s.phase = .codes inbits) (more : inbits > s.posbits)
    (same : codeWidth maxbits blockMode count = s.nBits)
    (decoded : decode (byteAlphabet blockMode) (2 ^ maxbits) (clearOf blockMode) dict (code :: codes) = some rest) :
    ∃ next after count' position' rest', nextCode maxbits blockMode s = .inl next ∧
      Before maxbits blockMode fill flush after codes count' position' next ∧
      decode (byteAlphabet blockMode) (2 ^ maxbits) (clearOf blockMode) after codes = some rest' ∧
      next.output ++ rest' = s.output ++ rest := by
  obtain ⟨nine,most,_⟩ := before.bits large
  have wide : 2 ^ 9 ≤ 2 ^ s.nBits := Nat.pow_le_pow_right (by decide) nine
  match dict with
  | none =>
    obtain ⟨fresh,rfl,_⟩ := before.related
    cases symbol : (byteAlphabet blockMode).symbol code with
    | none => simp [decode,symbol] at decoded
    | some c =>
      obtain ⟨low,rfl⟩ : code < 256 ∧ ofNat code = c := by simpa [byteAlphabet] using symbol
      have number : (ofNat code).toNat = code := toNat_ofNat_of_lt' low
      have other : ¬ (code = clear ∧ blockMode = true) := fun both => by
        rw [both.1] at low
        exact absurd low (by decide)
      have here := before.codeAt large phase more same small (by omega)
      obtain ⟨next,goes,input,out,holds⟩ := nextCode_fresh large fresh (here.trans number.symm)
      simp only [decode,symbol,Option.map_eq_some_iff] at decoded
      obtain ⟨rest',after,rfl⟩ := decoded
      refine ⟨next,some ([],[ofNat code]),1,position + s.nBits,rest',goes,?_,after,by rw [out,append_assoc]⟩
      exact before.after large phase more same other input ⟨holds,0,rfl,by simp,.inl (input.nBits.trans same.symm)⟩
  | some (table,last) =>
    obtain ⟨holds,earlier,rfl,entries,_⟩ := before.related
    by_cases clears : code = clear ∧ blockMode = true
    · obtain ⟨rfl,block⟩ := clears
      have here := before.codeAt large phase more same small (by rw [clear]; omega)
      obtain ⟨oldcode,known,_⟩ := holds.old
      rw [decode,if_pos (clearOf_eq_some.mpr ⟨rfl,block⟩)] at decoded
      refine ⟨clearTable { s with posbits := s.posbits + s.nBits },none,0,0,rest,?_,
        before.cleared large phase more same block,decoded,rfl⟩
      simp [Uncompress.nextCode,known,here,block]
    · rw [decode,if_neg fun same => clears (clearOf_eq_some.mp same)] at decoded
      cases meant : phraseOf (byteAlphabet blockMode) (2 ^ maxbits) table last code with
      | none => simp [meant] at decoded
      | some phrase =>
        simp only [meant,Option.map_eq_some_iff] at decoded
        obtain ⟨rest',after,rfl⟩ := decoded
        have free := holds.free
        have fits : code < 2 ^ s.nBits := by
          have enough := lt_codeWidth maxbits blockMode (earlier + 1)
          rw [same] at enough
          rcases phraseOf_cases holds meant with ⟨spells,_⟩ | ⟨newest,room,_⟩
          · have := spells.code_lt (by have := firstOf_ge blockMode; omega)
            omega
          · omega
        have here := before.codeAt large phase more same small fits
        obtain ⟨next,goes,input,out,holds'⟩ := nextCode_holds small holds here clears meant
        refine ⟨next,_,earlier + 1 + 1,position + s.nBits,rest',goes,?_,after,by rw [out,append_assoc]⟩
        refine before.after large phase more same clears input ⟨holds',earlier + 1,rfl,?_,
          .inl (input.nBits.trans same.symm)⟩
        have base : (byteAlphabet blockMode).first = firstOf blockMode := rfl
        unfold grow
        split
        · rw [length_append,length_singleton]
          omega
        · omega

end Turn

/-! ### Runs -/

def readWeight (fdIn : List Chunk) (rsize : Nat) : Nat := 2 * fdIn.length + if 0 < rsize then 1 else 0

def phaseWeight (s : State) : Nat :=
  match s.phase with
  | .codes _ => 1
  | .resetbuf => if s.inbuf.length - s.posbits / 8 < 64 ∧ (s.fdIn ≠ [] ∨ 0 < s.rsize) then 0 else 2

def weight (maxbits : Nat) (blockMode : Bool) (codes : List Nat) (count : Nat) (s : State) : Nat × Nat × Nat :=
  (2 * codes.length + if codeWidth maxbits blockMode count = s.nBits then 0
    else 1,readWeight s.fdIn s.rsize,phaseWeight s)

theorem refill_weight (inbuf : List UInt8) (rsize : Nat) (fdIn : List Chunk) :
    readWeight (refill inbuf rsize fdIn).2.2 (refill inbuf rsize fdIn).2.1 ≤ readWeight fdIn rsize ∧
      (inbuf.length < 64 ∧ (fdIn ≠ [] ∨ 0 < rsize) →
        readWeight (refill inbuf rsize fdIn).2.2 (refill inbuf rsize fdIn).2.1 < readWeight fdIn rsize) := by
  unfold refill
  split
  · cases fdIn with
    | nil =>
      refine ⟨by simp [readWeight],fun reads => ?_⟩
      have positive : 0 < rsize := by simpa using reads.2
      simp [readWeight,positive]
    | cons chunk fdIn =>
      simp only [readWeight,length_cons]
      constructor
      · split <;> split <;> omega
      · intro
        split <;> split <;> omega
  · rename_i much
    exact ⟨le_rfl,fun reads => absurd reads.1 much⟩

theorem resetbuf_weight (phase : s.phase = .resetbuf) :
    Prod.Lex (· < ·) (· < ·) (readWeight (resetbuf s).fdIn (resetbuf s).rsize,phaseWeight (resetbuf s))
      (readWeight s.fdIn s.rsize,phaseWeight s) := by
  obtain ⟨same,less⟩ := refill_weight (s.inbuf.drop (s.posbits / 8)) s.rsize s.fdIn
  have after : phaseWeight (resetbuf s) = 1 := rfl
  rw [length_drop] at less
  by_cases reads : s.inbuf.length - s.posbits / 8 < 64 ∧ (s.fdIn ≠ [] ∨ 0 < s.rsize)
  · exact .left _ _ (less reads)
  have here : phaseWeight s = 2 := by simp only [phaseWeight,phase,if_neg reads]
  rw [after,here]
  exact Prod.lex_def.mpr ((Nat.lt_or_eq_of_le same).imp_right fun equal => ⟨equal,Nat.one_lt_two⟩)

def Keeps (maxbits : Nat) (blockMode : Bool) (fill : Nat → Nat → Bool) (flush : Bool) (out : List UInt8)
    (w : Nat × Nat × Nat) (s : State) : Prop :=
  ∃ dict codes count position rest, Before maxbits blockMode fill flush dict codes count position s ∧
    decode (byteAlphabet blockMode) (2 ^ maxbits) (clearOf blockMode) dict codes = some rest ∧
    s.output ++ rest = out ∧ w = weight maxbits blockMode codes count s

theorem turn {flush : Bool} (large : 9 ≤ maxbits) (small : maxbits ≤ 16) (w : Nat × Nat × Nat) (s : State)
    (kept : Keeps maxbits blockMode fill flush out w s) :
    (∃ lighter next, step maxbits blockMode s = .inl next ∧ Keeps maxbits blockMode fill flush out lighter next ∧
        Prod.Lex (· < ·) (Prod.Lex (· < ·) (· < ·)) lighter w) ∨
      ∃ result, step maxbits blockMode s = .inr result ∧ result = .done out := by
  obtain ⟨dict,codes,count,position,rest,before,decoded,total,rfl⟩ := kept
  cases phase : s.phase with
  | resetbuf =>
    refine .inl ⟨_,resetbuf s,by simp [step,phase],
      ⟨dict,codes,count,position,rest,before.resetbuf phase,decoded,total,rfl⟩,?_⟩
    exact .right _ (resetbuf_weight phase)
  | codes inbits =>
    by_cases more : inbits > s.posbits
    · rcases before.widens large (before.room large phase more) with ⟨full,wider⟩ | ⟨notFull,same⟩
      · refine .inl ⟨_,widen maxbits s,by simp [step,phase,more,full],
          ⟨dict,codes,count,0,rest,before.widen large phase more wider,decoded,total,rfl⟩,.left _ _ ?_⟩
        have after : (widen maxbits s).nBits = s.nBits + 1 := rfl
        rw [if_pos (wider.trans after.symm),if_neg (by omega)]
        omega
      · have some := (before.unfinished large phase more).resolve_right fun differ => differ same
        obtain ⟨code,codes,rfl⟩ := exists_cons_of_ne_nil some
        obtain ⟨next,after,count',position',rest',goes,before',decoded',same'⟩ :=
          before.nextCode large small phase more same decoded
        refine .inl ⟨_,next,by simp [step,phase,more,notFull,goes],
          ⟨after,codes,count',position',rest',before',decoded',same'.trans total,rfl⟩,.left _ _ ?_⟩
        rw [if_pos same,length_cons]
        split <;> omega
    · rcases eq_zero_or_pos s.rsize with zero | positive
      · obtain rfl := before.finished large phase more zero
        cases decoded
        refine .inr ⟨.done s.output,by simp [step,phase,more,zero,State.output],?_⟩
        rw [← total,append_nil]
      · obtain ⟨before',little⟩ := before.leave large phase more positive
        obtain ⟨_,narrow,_⟩ := before.bits large
        refine .inl ⟨_,{ s with phase := .resetbuf },by simp [step,phase,more,positive],
          ⟨dict,codes,count,position,rest,before',decoded,total,rfl⟩,.right _ (.right _ ?_)⟩
        simp only [phaseWeight,phase]
        rw [if_pos ⟨by omega,.inr positive⟩]
        decide

theorem packed_yields {flush : Bool} {count position : Nat} (large : 9 ≤ maxbits) (small : maxbits ≤ 16)
    (before : Before maxbits blockMode fill flush dict codes count position s)
    (decoded : decode (byteAlphabet blockMode) (2 ^ maxbits) (clearOf blockMode) dict codes = some rest) :
    Yields (step maxbits blockMode) s (.done (s.output ++ rest)) := by
  have wellFounded : WellFounded (Prod.Lex (· < ·) (Prod.Lex (· < ·) (· < ·)) : Nat × Nat × Nat → Nat × Nat × Nat →
      Prop) :=
    WellFounded.prod_lex Nat.lt_wfRel.wf (WellFounded.prod_lex Nat.lt_wfRel.wf Nat.lt_wfRel.wf)
  obtain ⟨result,yields,rfl⟩ := yields_of_weight wellFounded (Keeps maxbits blockMode fill flush (s.output ++ rest))
    (fun result => result = Result.done (s.output ++ rest)) (turn large small) _ s
    ⟨dict,codes,count,position,rest,before,decoded,rfl,rfl⟩
  exact yields

theorem Before.start {flush : Bool} (htab : Memory) (codetab : Nat → Nat) (roomy : Roomy maxbits blockMode 0 codes)
    {tail : List Bool} (short : tail.length < 8)
    (packed : ofBytes (fdIn.flatMap Chunk.bytes) = pack maxbits blockMode fill flush initBits 0 0 codes ++ tail) :
    Before maxbits blockMode fill flush none codes 0 0 (start blockMode fdIn htab codetab) where
  related := by
    refine ⟨⟨⟨fun i bound => ?_,by simp [Uncompress.start,obufsiz]⟩,.inl ⟨rfl,rfl,rfl⟩⟩,rfl,rfl⟩
    simp [Uncompress.start,bound]
  roomy
  packed := ⟨tail,short,packed⟩
  maxcode := by simp [Uncompress.start,initBits]
  inside := Nat.zero_le _
  aligned := ⟨rfl,Nat.zero_mod _,fun _ => .inr (by simp [Uncompress.start])⟩

theorem decode_compressed (nonempty : ∀ text ∈ texts, text ≠ []) (single : blockMode = false → texts.length ≤ 1) :
    decode (byteAlphabet blockMode) (2 ^ maxbits) (clearOf blockMode) none
      (encodeAll (byteAlphabet blockMode) (2 ^ maxbits) clear texts) = some texts.flatten := by
  cases blockMode with
  | true => exact decode_encodeAll (by decide) (by decide) nonempty
  | false =>
    match texts with
    | [] => rfl
    | [text] =>
      have apart : ∀ code, clearOf false = some code → (byteAlphabet false).symbol code = none ∧
          code < (byteAlphabet false).first := by
        simp [clearOf]
      have ends (dict : List (List UInt8)) (last : List UInt8) :
          decode (byteAlphabet false) (2 ^ maxbits) (clearOf false) (some (dict,last)) [] = some [] := by
        rw [decode]
      simpa [encodeAll] using decode_encode apart ends (nonempty text (by simp))
    | _ :: _ :: _ => simp at single

/-- `uncompress` gives back what was compressed, whatever the reads return, provided that a table of
nine bits is not full when the next code comes. -/
theorem uncompress_compressed (header : UInt8) (large : 9 ≤ maxbitsOf header) (small : maxbitsOf header ≤ 16)
    (texts : List (List UInt8)) (fdIn : List Chunk) (htab : Memory) (codetab : Nat → Nat)
    (compressed : Compressed (maxbitsOf header) (blockModeOf header) texts (fdIn.flatMap Chunk.bytes))
    (roomy : Roomy (maxbitsOf header) (blockModeOf header) 0
      (encodeAll (byteAlphabet (blockModeOf header)) (2 ^ maxbitsOf header) clear texts)) :
    Returns header fdIn htab codetab (.done texts.flatten) := by
  obtain ⟨fill,flush,tail,short,packed⟩ := compressed.packed
  rw [Returns,if_neg (by omega)]
  exact packed_yields large small (Before.start htab codetab roomy short packed)
    (decode_compressed compressed.nonempty compressed.single)

/-- The texts `abababa` and `ccc` with a clear code between them, in three reads: each text ends with the code that
the table does not have yet. -/
theorem uncompress_phrases : Returns 144 [⟨[97],by decide,by decide⟩,⟨[196,4,28,8,16,0],by decide,by decide⟩,
    ⟨[0,0,99,2,2],by decide,by decide⟩] (fun _ => 0) (fun _ => 0) (.done [97,98,97,98,97,98,97,99,99,99]) := by
  have codes : encodeAll (byteAlphabet (blockModeOf 144)) (2 ^ maxbitsOf 144) clear
      [[97,98,97,98,97,98,97],[99,99,99]] = [97,98,257,259,256,99,257] := by decide +kernel
  refine uncompress_compressed 144 (by decide) (by decide) [[97,98,97,98,97,98,97],[99,99,99]] _ _ _
    ⟨by simp,nofun,fun _ _ => false,false,replicate 6 false,by simp,by decide +kernel⟩ ?_
  rw [codes]
  exact ⟨.inl (by decide),.inl (by decide),.inl (by decide),.inl (by decide),.inl (by decide),.inl (by decide),
    .inl (by decide),trivial⟩

theorem pack_nine (fill : Nat → Nat → Bool) (codes : List Nat) (count position : Nat) :
    pack 9 false fill false 9 count position codes = codes.flatMap (low 9) := by
  have nine (count : Nat) : codeWidth 9 false count = 9 :=
    le_antisymm (codeWidth_le false (le_refl 9) count) (codeWidth_ge 9 false count)
  induction codes generalizing count position with
  | nil => simp [pack]
  | cons code codes ih => simp [pack,nine,ih]

/-- With a limit of nine bits and 258 codes, the last one is lost: the source goes on to codes of
ten bits when its table is full. -/
theorem nine_bits_lost : ∃ (texts : List (List UInt8)) (fdIn : List Chunk),
    Compressed (maxbitsOf 9) (blockModeOf 9) texts (fdIn.flatMap Chunk.bytes) ∧ maxbitsOf 9 = 9 ∧
      ¬ Returns 9 fdIn (fun _ => 0) (fun _ => 0) (.done texts.flatten) := by
  let text : List UInt8 := (List.range 129).flatMap fun i => [ofNat i,ofNat i]
  let bytes : List UInt8 := toBytes 291 ((text.map toNat).flatMap (low 9))
  let chunk : Chunk := ⟨bytes,by decide +kernel,by decide +kernel⟩
  have distinct : (pairs text).Nodup := by
    have increasing : List.IsChain (· < ·) (pairs text) := by decide +kernel
    exact (List.isChain_iff_pairwise.mp increasing).imp fun less same => absurd (same ▸ less) (List.lt_irrefl _)
  have codes : encodeAll (byteAlphabet false) (2 ^ 9) clear [text] = text.map toNat := encode_pairs distinct
  refine ⟨[text],[chunk],⟨by decide +kernel,by simp,fun _ _ => false,false,replicate 6 false,by simp,?_⟩,rfl,
    fun returns => ?_⟩
  · have count : ((text.map toNat).flatMap (low 9)).length = 2322 := by decide +kernel
    have file := ofBytes_toBytes 291 ((text.map toNat).flatMap (low 9)) (by omega)
    rw [count] at file
    refine Eq.trans ?_ (congrArg (· ++ replicate 6 false) ((pack_nine (fun _ _ => false) _ 0 0).symm.trans
      (congrArg (pack 9 false (fun _ _ => false) false 9 0 0) codes.symm)))
    rw [flatMap_singleton]
    exact file
  · have run : exec (step 9 false) 270 (start false [chunk] (fun _ => 0) (fun _ => 0)) =
        some (.done (text.take 257)) := by
      decide +kernel
    have same := Yields.unique returns ⟨270,run⟩
    have lengths : [text].flatten.length = (text.take 257).length := congrArg List.length (Result.done.inj same)
    revert lengths
    decide +kernel

end Stablebox.Uncompress
