import Stablebox.Archival.Uncompress
import Stablebox.Lib.Lzw

/-! The table of `uncompress` holds the dictionary of the code: a walk along the prefixes spells a
phrase on the stack, which never comes down to the entries. -/
namespace Stablebox.Uncompress

open List Function Option UInt8 Lzw Nat

def firstOf (blockMode : Bool) : Nat := if blockMode then first else 256

def byteAlphabet (blockMode : Bool) : Lzw.Alphabet UInt8 where
  index := toNat
  symbol code := if code < 256 then some (ofNat code) else none
  first := firstOf blockMode
  symbol_index c := by simp [c.toNat_lt]
  symbol_first code bound := by
    cases blockMode <;> simp [firstOf,first] at bound <;> simp <;> omega

/-- A walk from `code` passes only entries before `bound` and spells a phrase. -/
inductive Spells (htab : Memory) (codetab : Nat → Nat) (start bound : Nat) : Nat → List UInt8 → Prop where
  | byte (c : UInt8) : Spells htab codetab start bound c.toNat [c]
  | entry {code : Nat} {front : List UInt8} (above : start ≤ code) (below : code < bound)
      (rest : Spells htab codetab start bound (codetab code) front) :
      Spells htab codetab start bound code (front ++ [htab code])

section Walk

variable {htab : Memory} {codetab : Nat → Nat} {start bound code : Nat} {phrase : List UInt8}

section

variable (spells : Spells htab codetab start bound code phrase)

include spells

theorem Spells.ne_nil : phrase ≠ [] := by
  cases spells <;> simp

theorem Spells.code_lt (large : 256 ≤ bound) : code < bound := by
  cases spells with
  | byte c =>
    have := c.toNat_lt
    omega
  | entry _ below _ => exact below

theorem Spells.frame (more : bound ≤ bound') (sameTab : ∀ i, start ≤ i → i < bound → htab' i = htab i)
    (samePrefix : ∀ i, start ≤ i → i < bound → codetab' i = codetab i) :
    Spells htab' codetab' start bound' code phrase := by
  induction spells with
  | byte c => exact .byte c
  | @entry code front above below _ ih =>
    rw [← sameTab code above below]
    refine .entry above (lt_of_lt_of_le below more) ?_
    rwa [samePrefix code above below]

theorem walk_spells (apart : 256 ≤ start) (small : bound ≤ 65536) (stackp : Nat) (stack : Memory)
    (room : 65536 + phrase.length ≤ stackp + 1) (same : ∀ i, i < 65536 → stack i = htab i) :
    ∃ stack', walk codetab stackp code stack =
        some (stackp - (phrase.length - 1),(phrase.headD 0).toNat,stack') ∧
      (∀ i, i < stackp - (phrase.length - 1) ∨ stackp ≤ i → stack' i = stack i) ∧
      stack'.get (stackp - (phrase.length - 1)) (phrase.length - 1) = phrase.tail := by
  induction spells generalizing stackp stack with
  | byte c =>
    have low : ¬ c.toNat ≥ 256 := by
      have := c.toNat_lt
      omega
    refine ⟨stack,?_,by simp,by simp [Memory.get]⟩
    unfold walk
    simp [low]
  | @entry code front above below rest ih =>
    have nonempty := rest.ne_nil
    have count : (front ++ [htab code]).length = front.length + 1 := by simp
    have positive := length_pos_iff.mpr nonempty
    obtain ⟨stackp,rfl⟩ := Nat.exists_eq_succ_of_ne_zero (show stackp ≠ 0 by omega)
    have kept : ∀ i, i < 65536 → update stack stackp (stack code) i = htab i := by
      intro i bound
      rw [update_of_ne (by omega),same i bound]
    obtain ⟨stack',walked,outside,pushed⟩ := ih stackp (update stack stackp (stack code)) (by omega) kept
    have top : stackp + 1 - (front.length + 1 - 1) = stackp - (front.length - 1) := by omega
    have head : (front ++ [htab code]).headD 0 = front.headD 0 := by
      obtain ⟨c,others,rfl⟩ := exists_cons_of_ne_nil nonempty
      rfl
    refine ⟨stack',?_,?_,?_⟩
    · have high : code ≥ 256 := by omega
      unfold walk
      rw [count,top,head,← walked]
      simp [high]
    · intro i out
      rw [outside i (by omega),update_of_ne (by omega)]
    · have last : stack' stackp = htab code := by
        rw [outside stackp (by omega),update_self,same code (by omega)]
      have split : front.length + 1 - 1 = front.length - 1 + 1 := by omega
      rw [count,top,split,Memory.get_add,pushed,show stackp - (front.length - 1) + (front.length - 1) = stackp by omega,
        tail_append_of_ne_nil nonempty]
      simp [Memory.get,last]

end

end Walk

/-! ### Output -/

theorem flush_eq (fuel : Nat) (bytes outbuf written : List UInt8) (enough : bytes.length < fuel)
    (notFull : outbuf.length < obufsiz) :
    (flush fuel bytes outbuf written).2 ++ (flush fuel bytes outbuf written).1 = written ++ outbuf ++ bytes ∧
      (flush fuel bytes outbuf written).1.length < obufsiz := by
  induction fuel generalizing bytes outbuf written with
  | zero => omega
  | succ fuel ih =>
    by_cases all : bytes.length ≤ obufsiz - outbuf.length
    · have count : min bytes.length (obufsiz - outbuf.length) = bytes.length := min_eq_left all
      simp only [flush,count,take_length,drop_length,if_pos]
      split
      · simp [obufsiz]
      · rename_i short
        exact ⟨(append_assoc ..).symm,Nat.lt_of_not_le short⟩
    · have count : min bytes.length (obufsiz - outbuf.length) = obufsiz - outbuf.length := min_eq_right (by omega)
      have full : (outbuf ++ bytes.take (obufsiz - outbuf.length)).length ≥ obufsiz := by
        simp
        omega
      have more : bytes.drop (obufsiz - outbuf.length) ≠ [] := by
        intro none
        have := drop_eq_nil_iff.mp none
        omega
      have shorter : (bytes.drop (obufsiz - outbuf.length)).length < fuel := by
        rw [length_drop]
        omega
      obtain ⟨same,open'⟩ := ih (bytes.drop (obufsiz - outbuf.length)) []
        (written ++ (outbuf ++ bytes.take (obufsiz - outbuf.length))) shorter (by simp [obufsiz])
      simp only [flush,count,if_pos full,if_neg more]
      refine ⟨?_,open'⟩
      rw [same]
      simp

theorem putOut_eq (bytes written : List UInt8) (notFull : outbuf.length < obufsiz) :
    (putOut bytes outbuf written).2 ++ (putOut bytes outbuf written).1 = written ++ outbuf ++ bytes ∧
      (putOut bytes outbuf written).1.length < obufsiz := by
  unfold putOut
  split
  · exact flush_eq _ bytes outbuf written (by omega) notFull
  refine ⟨by simp,?_⟩
  simp
  omega

/-! ### The dictionary in the table -/

def State.output (s : State) : List UInt8 := s.written ++ s.outbuf

structure Sound (s : State) : Prop where
  bytes : ∀ i, i < 256 → s.htab i = ofNat i
  notFull : s.outbuf.length < obufsiz

/-- No dictionary: before the first code, or after the table was cleared. -/
structure Fresh (blockMode : Bool) (s : State) : Prop extends Sound s where
  free : s.oldcode = none ∧ s.outbuf = [] ∧ s.freeEnt = firstOf blockMode ∨
    blockMode = true ∧ (∃ oldcode, s.oldcode = some oldcode) ∧ s.freeEnt = first - 1

/-- The table holds `dict`, and the last code stood for `last`. -/
structure Holds (maxbits : Nat) (blockMode : Bool) (dict : List (List UInt8)) (last : List UInt8) (s : State) : Prop
    extends Sound s where
  free : s.freeEnt = firstOf blockMode + dict.length
  room : firstOf blockMode + dict.length ≤ 2 ^ maxbits
  entry : ∀ j phrase, dict[j]? = some phrase →
    Spells s.htab s.codetab (firstOf blockMode) s.freeEnt (firstOf blockMode + j) phrase
  short : ∀ phrase ∈ dict, phrase.length ≤ dict.length + 1
  old : ∃ oldcode, s.oldcode = some oldcode ∧ Spells s.htab s.codetab (firstOf blockMode) s.freeEnt oldcode last
  lastShort : last.length ≤ dict.length + 1
  fin : last.headD 0 = s.finchar

theorem firstOf_ge (blockMode : Bool) : 256 ≤ firstOf blockMode := by
  cases blockMode <;> simp [firstOf,first]

abbrev State.Spells (s : State) (blockMode : Bool) (code : Nat) (phrase : List UInt8) : Prop :=
  Uncompress.Spells s.htab s.codetab (firstOf blockMode) s.freeEnt code phrase

section Code

variable {s : State}

theorem walk_push (stackp : Nat) {code start : Nat} (sound : Sound s) (apart : 256 ≤ start) (small : s.freeEnt ≤ 65536)
    (spells : Spells s.htab s.codetab start s.freeEnt code phrase) (room : 65536 + phrase.length ≤ stackp)
    (same : ∀ i, i < 65536 → stack i = s.htab i) :
    ∃ htab, (do
        let (stackp,code,htab) ← walk s.codetab stackp code stack
        let finchar := htab code
        let (stackp,htab) ← push stackp finchar htab
        return (stackp,htab,finchar)) = some (stackp - phrase.length,htab,phrase.headD 0) ∧
      (∀ i, i < 65536 ∨ stackp ≤ i → htab i = stack i) ∧ htab.get (stackp - phrase.length) phrase.length = phrase := by
  obtain ⟨walked,walks,outside,pushed⟩ := walk_spells spells apart small stackp stack (by omega) same
  obtain ⟨c,others,rfl⟩ := exists_cons_of_ne_nil spells.ne_nil
  simp only [length_cons,Nat.add_sub_cancel,headD_cons,tail_cons] at walks outside pushed room
  obtain ⟨top,topEq⟩ := Nat.exists_eq_succ_of_ne_zero (show stackp - others.length ≠ 0 by omega)
  have small := c.toNat_lt
  have first : walked c.toNat = c := by
    rw [outside c.toNat (by omega),same c.toNat (by omega),sound.bytes c.toNat small,UInt8.ofNat_toNat]
  have below : stackp - (others.length + 1) = top := by omega
  refine ⟨update walked top c,?_,?_,?_⟩
  · rw [length_cons,below]
    simp [walks,topEq,push,first]
  · intro i out
    rw [update_of_ne (by omega),outside i (by omega)]
  have rest : Memory.get (update walked top c) (top + 1) others.length = others := by
    rw [topEq] at pushed
    refine Eq.trans (Memory.get_congr fun i _ => ?_) pushed
    exact update_of_ne (by omega) ..
  rw [length_cons,below,add_comm,Memory.get_add,rest]
  simp [Memory.get]

theorem spell_known (oldcode : Nat) {code start : Nat} (sound : Sound s) (apart : 256 ≤ start)
    (small : s.freeEnt ≤ 65536) (known : code < s.freeEnt)
    (spells : Spells s.htab s.codetab start s.freeEnt code phrase) (short : phrase.length ≤ 65534) :
    ∃ htab, spell s code oldcode = some (deStack - phrase.length,htab,phrase.headD 0) ∧
      (∀ i, i < 65536 → htab i = s.htab i) ∧ htab.get (deStack - phrase.length) phrase.length = phrase := by
  have stack : deStack = 131070 + 1 := rfl
  obtain ⟨htab,made,outside,pushed⟩ := walk_push deStack sound apart small spells (by omega) fun _ _ => rfl
  have inside : ¬ code ≥ s.freeEnt := by omega
  refine ⟨htab,?_,fun i bound => outside i (.inl bound),pushed⟩
  simpa [spell,inside] using made

theorem spell_newest {start : Nat} (sound : Sound s) (apart : 256 ≤ start) (small : s.freeEnt ≤ 65536)
    (spells : Spells s.htab s.codetab start s.freeEnt oldcode last) (short : last.length ≤ 65533) :
    ∃ htab, spell s s.freeEnt oldcode = some (deStack - (last ++ [s.finchar]).length,htab,last.headD 0) ∧
      (∀ i, i < 65536 → htab i = s.htab i) ∧
      htab.get (deStack - (last ++ [s.finchar]).length) (last ++ [s.finchar]).length = last ++ [s.finchar] := by
  have stack : deStack = 131070 + 1 := rfl
  have kept : ∀ i, i < 65536 → update s.htab 131070 s.finchar i = s.htab i := fun i bound =>
    update_of_ne (by omega) ..
  obtain ⟨htab,made,outside,pushed⟩ := walk_push 131070 sound apart small spells (by omega) kept
  have count : (last ++ [s.finchar]).length = last.length + 1 := by simp
  have top : deStack - (last.length + 1) = 131070 - last.length := by omega
  refine ⟨htab,?_,fun i bound => (outside i (.inl bound)).trans (kept i bound),?_⟩
  · simpa [spell,push,stack] using made
  · rw [count,top,Memory.get_add,pushed,show 131070 - last.length + last.length = 131070 by omega]
    simp [Memory.get,outside 131070 (.inr (le_refl _))]

theorem phraseOf_cases (holds : Holds maxbits blockMode dict last s)
    (meant : phraseOf (byteAlphabet blockMode) (2 ^ maxbits) dict last code = some phrase) :
    s.Spells blockMode code phrase ∧ phrase.length ≤ dict.length + 1 ∨
      code = s.freeEnt ∧ s.freeEnt < 2 ^ maxbits ∧ phrase = last ++ [s.finchar] := by
  unfold phraseOf at meant
  split at meant
  · rename_i c symbol
    cases meant
    simp only [byteAlphabet,ite_none_right_eq_some,some.injEq] at symbol
    obtain ⟨low,rfl⟩ := symbol
    have here : s.Spells blockMode _ _ := .byte (ofNat code)
    rw [toNat_ofNat_of_lt' low] at here
    exact .inl ⟨here,by simp⟩
  · split at meant
    · cases meant
    rename_i above
    have base : (byteAlphabet blockMode).first = firstOf blockMode := rfl
    rw [base] at meant above
    split at meant
    · rename_i found listed
      cases meant
      have here := holds.entry _ _ listed
      rw [Nat.add_sub_cancel' (by omega)] at here
      exact .inl ⟨here,holds.short phrase (mem_of_getElem? listed)⟩
    · split at meant
      · cases meant
        obtain ⟨oldcode,_,old⟩ := holds.old
        have free := holds.free
        have fin := holds.fin
        obtain ⟨c,others,rfl⟩ := exists_cons_of_ne_nil old.ne_nil
        exact .inr ⟨by omega,by omega,by simpa using fin⟩
      · cases meant

theorem spell_phraseOf (bits : maxbits ≤ 16) (holds : Holds maxbits blockMode dict last s)
    (old : s.Spells blockMode oldcode last)
    (meant : phraseOf (byteAlphabet blockMode) (2 ^ maxbits) dict last code = some phrase) :
    ∃ htab, spell s code oldcode = some (deStack - phrase.length,htab,phrase.headD 0) ∧
      (∀ i, i < 65536 → htab i = s.htab i) ∧ htab.get (deStack - phrase.length) phrase.length = phrase := by
  have apart := firstOf_ge blockMode
  have limit : 2 ^ maxbits ≤ 2 ^ 16 := Nat.pow_le_pow_right (by decide) bits
  have free := holds.free
  have room := holds.room
  have small : s.freeEnt ≤ 65536 := by omega
  rcases phraseOf_cases holds meant with ⟨spells,short⟩ | ⟨rfl,below,rfl⟩
  · exact spell_known oldcode holds.toSound apart small (spells.code_lt (by omega)) spells (by omega)
  have short := holds.lastShort
  have head : (last ++ [s.finchar]).headD 0 = last.headD 0 := by
    obtain ⟨c,others,rfl⟩ := exists_cons_of_ne_nil old.ne_nil
    rfl
  rw [head]
  exact spell_newest holds.toSound apart small old (by omega)

structure SameInput (s next : State) : Prop where
  fdIn : next.fdIn = s.fdIn
  inbuf : next.inbuf = s.inbuf
  rsize : next.rsize = s.rsize
  posbits : next.posbits = s.posbits
  phase : next.phase = s.phase
  nBits : next.nBits = s.nBits
  maxcode : next.maxcode = s.maxcode

theorem SameInput.trans (one : SameInput a b) (two : SameInput b c) : SameInput a c where
  fdIn := two.fdIn.trans one.fdIn
  inbuf := two.inbuf.trans one.inbuf
  rsize := two.rsize.trans one.rsize
  posbits := two.posbits.trans one.posbits
  phase := two.phase.trans one.phase
  nBits := two.nBits.trans one.nBits
  maxcode := two.maxcode.trans one.maxcode

theorem newEntry_input (oldcode : Nat) (s : State) : SameInput s (newEntry maxbits oldcode s) := by
  unfold newEntry
  split <;> exact ⟨rfl,rfl,rfl,rfl,rfl,rfl,rfl⟩

theorem newEntry_output (oldcode : Nat) (s : State) : (newEntry maxbits oldcode s).output = s.output := by
  unfold newEntry
  split <;> rfl

theorem putPhrase_input (code stackp : Nat) (htab : Memory) (finchar : UInt8) (s : State) :
    SameInput s (putPhrase code stackp htab finchar s) := ⟨rfl,rfl,rfl,rfl,rfl,rfl,rfl⟩

theorem putPhrase_output (code : Nat) (finchar : UInt8) (notFull : s.outbuf.length < obufsiz)
    (short : phrase.length ≤ 65536) (stacked : htab.get (deStack - phrase.length) phrase.length = phrase) :
    (putPhrase code (deStack - phrase.length) htab finchar s).output = s.output ++ phrase ∧
      (putPhrase code (deStack - phrase.length) htab finchar s).outbuf.length < obufsiz := by
  have depth : deStack - (deStack - phrase.length) = phrase.length := by
    have stack : deStack = 131070 + 1 := rfl
    omega
  simp only [putPhrase,State.output,depth,stacked]
  exact putOut_eq phrase s.written notFull

theorem newEntry_holds (bits : maxbits ≤ 16)
    (holds : Holds maxbits blockMode dict last { s with oldcode := some oldcode, finchar := last.headD 0 })
    (current : s.oldcode = some code) (fin : phrase.headD 0 = s.finchar)
    (shape : s.Spells blockMode code phrase ∧ phrase.length ≤ dict.length + 1 ∨ code = s.freeEnt ∧
      s.freeEnt < 2 ^ maxbits ∧ phrase = last ++ [s.finchar]) :
    Holds maxbits blockMode (grow (byteAlphabet blockMode) (2 ^ maxbits) dict (last ++ phrase.take 1)) phrase
      (newEntry maxbits oldcode s) := by
  obtain ⟨⟨bytes,notFull⟩,free,room,entry,short,⟨_,same,old⟩,lastShort,_⟩ := holds
  cases same
  dsimp only at bytes notFull free entry old
  have apart := firstOf_ge blockMode
  have limit : 2 ^ maxbits ≤ 2 ^ 16 := Nat.pow_le_pow_right (by decide) bits
  have base : (byteAlphabet blockMode).first = firstOf blockMode := rfl
  have front : phrase.take 1 = [s.finchar] := by
    have nonempty : phrase ≠ [] := by
      rcases shape with ⟨spells,_⟩ | ⟨_,_,rfl⟩
      · exact spells.ne_nil
      · simp
    obtain ⟨c,others,rfl⟩ := exists_cons_of_ne_nil nonempty
    simpa using fin
  by_cases more : s.freeEnt < 2 ^ maxbits
  · rw [grow,if_pos (by rw [base]; omega),front,newEntry,if_pos more]
    have sameTab : ∀ i, firstOf blockMode ≤ i → i < s.freeEnt →
        update s.htab s.freeEnt s.finchar i = s.htab i := fun i _ bound =>
      update_of_ne (by omega) ..
    have samePrefix : ∀ i, firstOf blockMode ≤ i → i < s.freeEnt →
        update s.codetab s.freeEnt (oldcode % 2 ^ 16) i = s.codetab i := fun i _ bound =>
      update_of_ne (by omega) ..
    have newest : Spells (update s.htab s.freeEnt s.finchar)
        (update s.codetab s.freeEnt (oldcode % 2 ^ 16)) (firstOf blockMode) (s.freeEnt + 1) s.freeEnt
        (last ++ [s.finchar]) := by
      have below := old.code_lt (by omega)
      have here : update s.codetab s.freeEnt (oldcode % 2 ^ 16) s.freeEnt = oldcode := by
        rw [update_self,mod_eq_of_lt (by omega)]
      have rest : Spells (update s.htab s.freeEnt s.finchar)
          (update s.codetab s.freeEnt (oldcode % 2 ^ 16)) (firstOf blockMode) (s.freeEnt + 1)
          (update s.codetab s.freeEnt (oldcode % 2 ^ 16) s.freeEnt) last := by
        rw [here]
        exact old.frame (le_succ _) sameTab samePrefix
      have whole := Spells.entry (by omega) (lt_succ_self s.freeEnt) rest
      rwa [update_self] at whole
    exact
      { bytes := fun i bound => (update_of_ne (by omega) ..).trans (bytes i bound)
        notFull
        free := by simp [free,add_assoc]
        room := by
          simp
          omega
        entry := fun j found listed => by
          rcases lt_or_ge j dict.length with before | behind
          · rw [getElem?_append_left before] at listed
            exact (entry j found listed).frame (le_succ _) sameTab samePrefix
          · rw [getElem?_append_right behind,getElem?_singleton] at listed
            obtain ⟨here,same⟩ := ite_none_right_eq_some.mp listed
            cases same
            rwa [show firstOf blockMode + j = s.freeEnt by omega]
        short := fun found listed => by
          rw [length_append,length_singleton]
          rcases mem_append.mp listed with before | new
          · have := short found before
            omega
          · rw [mem_singleton.mp new,length_append,length_singleton]
            omega
        old := by
          refine ⟨code,current,?_⟩
          rcases shape with ⟨spells,_⟩ | ⟨rfl,_,rfl⟩
          · exact spells.frame (le_succ _) sameTab samePrefix
          · exact newest
        lastShort := by
          rw [length_append,length_singleton]
          rcases shape with ⟨_,phraseShort⟩ | ⟨_,_,rfl⟩
          · omega
          · rw [length_append,length_singleton]
            omega
        fin }
  · have known := shape.resolve_right fun newest => more newest.2.1
    rw [grow,if_neg (by rw [base]; omega),newEntry,if_neg more]
    exact ⟨⟨bytes,notFull⟩,free,room,entry,short,⟨code,current,known.1⟩,known.2,fin⟩

theorem putCode_holds (bits : maxbits ≤ 16) (holds : Holds maxbits blockMode dict last s)
    (known : s.oldcode = some oldcode)
    (meant : phraseOf (byteAlphabet blockMode) (2 ^ maxbits) dict last code = some phrase) :
    ∃ next, putCode maxbits code oldcode s = .inl next ∧ SameInput s next ∧ next.output = s.output ++ phrase ∧
      Holds maxbits blockMode (grow (byteAlphabet blockMode) (2 ^ maxbits) dict (last ++ phrase.take 1)) phrase
        next := by
  have apart := firstOf_ge blockMode
  have limit : 2 ^ maxbits ≤ 2 ^ 16 := Nat.pow_le_pow_right (by decide) bits
  have free := holds.free
  have room := holds.room
  have lastShort := holds.lastShort
  obtain ⟨_,same,old⟩ := holds.old
  obtain rfl : oldcode = _ := mem_unique known same
  obtain ⟨htab,spelled,agree,stacked⟩ := spell_phraseOf bits holds old meant
  have shape := phraseOf_cases holds meant
  have notBeyond : ¬ code > s.freeEnt := by
    rcases shape with ⟨spells,_⟩ | ⟨same,_⟩
    · have := spells.code_lt (by omega)
      omega
    · omega
  have phraseShort : phrase.length ≤ dict.length + 2 := by
    rcases shape with ⟨_,short⟩ | ⟨_,_,rfl⟩
    · omega
    · rw [length_append,length_singleton]
      omega
  obtain ⟨out,notFull⟩ := putPhrase_output code (phrase.headD 0) holds.notFull (by omega) stacked
  have sameTab : ∀ i, firstOf blockMode ≤ i → i < s.freeEnt → htab i = s.htab i := fun i _ bound => agree i (by omega)
  have moved {code : Nat} {phrase : List UInt8} (spells : s.Spells blockMode code phrase) :
      Spells htab s.codetab (firstOf blockMode) s.freeEnt code phrase :=
    spells.frame le_rfl sameTab fun _ _ _ => rfl
  refine ⟨newEntry maxbits oldcode (putPhrase code (deStack - phrase.length) htab (phrase.headD 0) s),?_,
    (putPhrase_input ..).trans (newEntry_input ..),by rw [newEntry_output,out],?_⟩
  · simp only [putCode,if_neg notBeyond,spelled]
  refine newEntry_holds bits ⟨⟨fun i bound => ?_,notFull⟩,free,room,
    fun j found listed => moved (holds.entry j found listed),
    holds.short,⟨oldcode,rfl,moved old⟩,lastShort,rfl⟩ rfl rfl ?_
  · exact (agree i (by omega)).trans (holds.bytes i bound)
  rcases shape with ⟨spells,short⟩ | ⟨same,below,whole⟩
  · exact .inl ⟨moved spells,short⟩
  have head : phrase.headD 0 = s.finchar := by
    rw [whole,← holds.fin]
    obtain ⟨c,others,rfl⟩ := exists_cons_of_ne_nil old.ne_nil
    rfl
  exact .inr ⟨same,below,whole.trans (congrArg (fun c => last ++ [c]) head.symm)⟩

theorem putCode_fresh (oldcode : Nat) (bits : 9 ≤ maxbits) (sound : Sound s) (block : blockMode = true)
    (free : s.freeEnt = first - 1) (c : UInt8) :
    ∃ next, putCode maxbits c.toNat oldcode s = .inl next ∧ SameInput s next ∧ next.output = s.output ++ [c] ∧
      Holds maxbits blockMode [] [c] next := by
  have limit : 2 ^ 9 ≤ 2 ^ maxbits := Nat.pow_le_pow_right (by decide) bits
  have low := c.toNat_lt
  have entry : s.freeEnt = 256 := free
  have notBeyond : ¬ c.toNat > s.freeEnt := by omega
  obtain ⟨htab,spelled,agree,stacked⟩ := spell_known oldcode sound (le_refl 256) (by omega) (by omega)
    (.byte c) (by simp)
  obtain ⟨out,notFull⟩ := putPhrase_output c.toNat c sound.notFull (by simp) stacked
  refine ⟨newEntry maxbits oldcode (putPhrase c.toNat (deStack - [c].length) htab c s),?_,
    (putPhrase_input ..).trans (newEntry_input ..),by rw [newEntry_output,out],?_⟩
  · simp [putCode,if_neg notBeyond,spelled]
  have more : (putPhrase c.toNat (deStack - [c].length) htab c s).freeEnt < 2 ^ maxbits := by
    change s.freeEnt < _
    omega
  rw [newEntry,if_pos more]
  exact
    { bytes := fun i bound => by
        change update htab s.freeEnt c i = _
        rw [update_of_ne (by omega),agree i (by omega),sound.bytes i bound]
      notFull
      free := by
        change s.freeEnt + 1 = _
        simp [firstOf,block,entry,first]
      room := by
        simp [firstOf,block,first]
        omega
      entry := by simp
      short := by simp
      old := ⟨c.toNat,rfl,.byte c⟩
      lastShort := by simp
      fin := rfl }

theorem nextCode_fresh (bits : 9 ≤ maxbits) (fresh : Fresh blockMode s)
    (here : codeAt s.inbuf s.posbits s.nBits = c.toNat) :
    ∃ next, nextCode maxbits blockMode s = .inl next ∧ SameInput { s with posbits := s.posbits + s.nBits } next ∧
      next.output = s.output ++ [c] ∧ Holds maxbits blockMode [] [c] next := by
  have limit : 2 ^ 9 ≤ 2 ^ maxbits := Nat.pow_le_pow_right (by decide) bits
  have low := c.toNat_lt
  rcases fresh.free with ⟨none,empty,free⟩ | ⟨block,⟨oldcode,known⟩,free⟩
  · refine ⟨firstCode c.toNat { s with posbits := s.posbits + s.nBits },by simp only [nextCode,none,here],
      ⟨rfl,rfl,rfl,rfl,rfl,rfl,rfl⟩,by simp [State.output,firstCode],?_⟩
    · have base : firstOf blockMode ≤ 257 := by cases blockMode <;> simp [firstOf,first]
      exact
        { bytes := fresh.bytes
          notFull := by simp [firstCode,empty,obufsiz]
          free
          room := by
            simp
            omega
          entry := by simp
          short := by simp
          old := ⟨c.toNat,rfl,.byte c⟩
          lastShort := by simp
          fin := by simp [firstCode] }
  · obtain ⟨next,goes,input,out,holds⟩ :=
      putCode_fresh (s := { s with posbits := s.posbits + s.nBits }) oldcode bits { fresh.toSound with } block free c
    have other : ¬ (c.toNat = clear ∧ blockMode = true) := by
      rintro ⟨same,_⟩
      rw [same] at low
      exact absurd low (by decide)
    have step : nextCode maxbits blockMode s =
        putCode maxbits c.toNat oldcode { s with posbits := s.posbits + s.nBits } := by
      simp only [nextCode,known,here]
      rw [if_neg other]
    exact ⟨next,step.trans goes,input,out,holds⟩

theorem nextCode_holds (bits : maxbits ≤ 16) (holds : Holds maxbits blockMode dict last s)
    (here : codeAt s.inbuf s.posbits s.nBits = code) (other : ¬ (code = clear ∧ blockMode = true))
    (meant : phraseOf (byteAlphabet blockMode) (2 ^ maxbits) dict last code = some phrase) :
    ∃ next, nextCode maxbits blockMode s = .inl next ∧ SameInput { s with posbits := s.posbits + s.nBits } next ∧
      next.output = s.output ++ phrase ∧
      Holds maxbits blockMode (grow (byteAlphabet blockMode) (2 ^ maxbits) dict (last ++ phrase.take 1)) phrase
        next := by
  obtain ⟨oldcode,known,_⟩ := holds.old
  obtain ⟨next,goes,input,out,after⟩ :=
    putCode_holds (s := { s with posbits := s.posbits + s.nBits }) bits { holds with } known meant
  have step : nextCode maxbits blockMode s =
      putCode maxbits code oldcode { s with posbits := s.posbits + s.nBits } := by
    simp only [nextCode,known,here]
    rw [if_neg other]
  exact ⟨next,step.trans goes,input,out,after⟩

end Code

end Stablebox.Uncompress
