import Stablebox.Findutils.Xargs

/-! Reading: each of the three functions takes the next words of the input to the end of the list, and
stops at the end of the input or when the list is too long for a command. -/
namespace Stablebox.Xargs

open List Option

variable {mc : Nat} {eofStr : Option (List UInt8)} {r : Scan} {c : UInt8}

def Passes (mc : Nat) (tokens : List Token) (taken : List (List UInt8)) (left : List Token) : Prop :=
  wordsOf tokens = taken ++ wordsOf left ∧ (AllFit mc tokens ↔ AllFit mc left)

theorem Passes.none (tokens : List Token) : Passes mc tokens [] tokens := ⟨rfl,Iff.rfl⟩

theorem Passes.word (fits : w.length < mc) (tokens : List Token) :
    Passes mc (.word w :: tokens) [w] tokens := by
  exact ⟨rfl,fun all token listed => all token (.tail _ listed),fun all => forall_mem_cons.mpr ⟨fits,all⟩⟩

theorem Passes.stop (fits : w.length < mc) : Passes mc [.stop w] [] [] := by
  exact ⟨rfl,fun _ token listed => (by cases listed),fun _ => forall_mem_singleton.mpr fits⟩

theorem Passes.trans (one : Passes mc first a middle) (two : Passes mc middle b last) : Passes mc first (a ++ b) last :=
  ⟨by rw [one.1,two.1,append_assoc],one.2.trans two.2⟩

def size (list : List (List UInt8)) : Nat := (list.map List.length).sum

def entries (words : List (List UInt8)) : List (List UInt8) := words.map (· ++ [0])

/-- What a turn of a loop does: it takes words and goes on, or breaks with a list that is too long, or the tokens do
not all fit. -/
def Turned (mc : Nat) (Good : Scan → Prop) (pending : Scan → List UInt8 → List Token) (tokens : List Token)
    (list : List (List UInt8)) (rest : List UInt8) : Except Message (Scan ⊕ Scan) → Prop
  | .error _ => ¬ AllFit mc tokens
  | .ok (.inl r) => Good r ∧ ∃ taken, r.list = list ++ entries taken ∧ Passes mc tokens taken (pending r rest)
  | .ok (.inr r) => mc < size r.list ∧
    ∃ taken, r.list = list ++ entries taken ∧ Passes mc tokens taken (pending (scan r.list) rest)

def Closed (mc : Nat) (tokens : List Token) (list : List (List UInt8)) : Except Message (List (List UInt8)) → Prop
  | .error _ => ¬ AllFit mc tokens
  | .ok next => ∃ taken, next = list ++ entries taken ∧ Passes mc tokens taken []

/-- A body reads what is pending, in the states that it can be in. -/
structure Body.Reads (body : Body) (mc : Nat) (Good : Scan → Prop) (pending : Scan → List UInt8 → List Token) :
    Prop where
  turns : ∀ r c rest, Good r → Turned mc Good pending (pending r (c :: rest)) r.list rest (body.turn r c)
  closes : ∀ r, Good r → Closed mc (pending r []) r.list (body.close r)
  begins : ∀ list, Good (scan list) ∧ pending (scan list) [] = []

theorem entries_append (a b : List (List UInt8)) : entries (a ++ b) = entries a ++ entries b := map_append

theorem Body.Reads.loop {body : Body} {pending : Scan → List UInt8 → List Token} (reads : body.Reads mc Good pending)
    (rest : List UInt8) (good : Good r) :
    (∀ read, body.loop r rest = .ok read → (read.rest = [] ∨ mc < size read.list) ∧ (read.eof = true → read.rest = []) ∧
      ∃ taken, read.list = r.list ++ entries taken ∧
        Passes mc (pending r rest) taken (pending (scan read.list) read.rest)) ∧
    ∀ message, body.loop r rest = .error message → ¬ AllFit mc (pending r rest) := by
  induction rest generalizing r with
  | nil =>
    have closed := reads.closes r good
    rw [Body.loop]
    match body.close r,closed with
    | .error message,dies => exact ⟨fun read impossible => (by cases impossible),fun _ _ => dies⟩
    | .ok list,⟨taken,listed,passes⟩ =>
      refine ⟨fun read same => ?_,fun _ impossible => (by cases impossible)⟩
      obtain rfl := Except.ok.inj same
      exact ⟨.inl rfl,fun _ => rfl,taken,listed,by rw [(reads.begins list).2]; exact passes⟩
  | cons c rest ih =>
    have turned := reads.turns r c rest good
    rw [Body.loop]
    match body.turn r c,turned with
    | .error message,dies => exact ⟨fun read impossible => (by cases impossible),fun _ _ => dies⟩
    | .ok (.inl next),⟨goodNext,first,listed,passes⟩ =>
      obtain ⟨returns,fails⟩ := ih goodNext
      refine ⟨fun read same => ?_,fun message same all => fails message same (passes.2.mp all)⟩
      obtain ⟨stops,ended,more,listedMore,passesMore⟩ := returns read same
      exact ⟨stops,ended,first ++ more,by rw [listedMore,listed,entries_append,append_assoc],passes.trans passesMore⟩
    | .ok (.inr last),⟨long,taken,listed,passes⟩ =>
      refine ⟨fun read same => ?_,fun _ impossible => (by cases impossible)⟩
      obtain rfl := Except.ok.inj same
      exact ⟨.inr long,fun impossible => (by cases impossible),taken,listed,passes⟩

/-! ### A word is loaded -/

theorem cString_terminated (w : List UInt8) : cString (w ++ [0]) = cString w := by
  induction w with
  | nil => rfl
  | cons c w ih =>
    simp only [cString,cons_append,takeWhile_cons] at ih ⊢
    rw [ih]

theorem size_append (a b : List (List UInt8)) : size (a ++ b) = size a + size b := by simp [size]

theorem not_allFit (large : ¬ token.Fits mc) (tokens : List Token) : ¬ AllFit mc (token :: tokens) :=
  fun all => large (all token (mem_cons_self ..))

theorem not_allFit_upTo (large : ¬ token.Fits mc) (tokens : List Token) :
    ¬ AllFit mc (upTo eofStr (token :: tokens)) := by
  cases token with
  | word w =>
    rw [upTo]
    split
    · have same : ¬ (Token.stop w).Fits mc := large
      exact not_allFit same []
    · exact not_allFit large _
  | stop w => exact not_allFit large _
  | unmatched => exact not_allFit large _

structure Between (r : Scan) : Prop where
  word : r.word = none
  state : r.state = .norm
  q : r.q = 0
  lineL : r.lineL = size r.list

theorem scan_between (list : List (List UInt8)) : Between (scan list) := ⟨rfl,rfl,rfl,rfl⟩

/-- What is pending for a function that looks for the end-of-file string. -/
def pendingIn (eofStr : Option (List UInt8)) (r : Scan) (tokens : List Token) : List Token :=
  if r.eofStrDetected then [] else upTo eofStr tokens

section Delimiter

variable {pending : Scan → List UInt8 → List Token}

theorem turned_skip (list : r'.list = r.list) (good : Good r') (same : pending r' rest = tokens) :
    Turned mc Good pending tokens r.list rest (.ok (.inl r')) :=
  ⟨good,[],by rw [list]; exact (append_nil _).symm,by rw [same]; exact .none _⟩

theorem turned_add (line : r.lineL = size r.list) (q : r.q = 0) (fits : w.length < mc)
    (idle : ∀ r', Between r' → r'.eofStrDetected = r.eofStrDetected → Good r' ∧ pending r' rest = tokens)
    (fresh : ∀ list, pending (scan list) rest = tokens) :
    Turned mc Good pending (.word w :: tokens) r.list rest (.ok (add mc r (w ++ [0]))) := by
  have total : r.lineL + (w ++ [0]).length = size (r.list ++ [w ++ [0]]) := by
    rw [size_append,line]
    simp [size]
  rw [add]
  split
  · refine ⟨by rw [← total]; assumption,[w],rfl,?_⟩
    rw [fresh]
    exact .word fits tokens
  · obtain ⟨good,pends⟩ := idle
      { r with word := none,state := .norm,list := r.list ++ [w ++ [0]],lineL := r.lineL + (w ++ [0]).length }
      ⟨rfl,rfl,q,total⟩ rfl
    refine ⟨good,[w],rfl,?_⟩
    rw [pends]
    exact .word fits tokens

theorem turned_load (line : r.lineL = size r.list) (q : r.q = 0) (more : r.eofStrDetected = false)
    (fits : w.length < mc)
    (idle : ∀ r', Between r' → Good r' ∧ pending r' rest = pendingIn eofStr r' tokens) :
    Turned mc Good pending (upTo eofStr (.word w :: tokens)) r.list rest (.ok (load mc eofStr r (w ++ [0]))) := by
  rw [load,cString_terminated]
  split_ifs with last
  · rw [upTo,if_pos last]
    obtain ⟨good,pends⟩ := idle { r with word := none,state := .norm,eofStrDetected := true } ⟨rfl,rfl,q,line⟩
    refine ⟨good,[],(append_nil _).symm,?_⟩
    rw [pends]
    exact .stop fits
  · rw [upTo,if_neg last]
    refine turned_add line q fits (fun r' between seen => ?_) fun list => (idle _ (scan_between list)).2
    obtain ⟨good,pends⟩ := idle r' between
    refine ⟨good,pends.trans ?_⟩
    rw [pendingIn,seen,more]
    rfl

theorem turned_store (long : mc ≤ (r.word.getD []).length → ¬ AllFit mc tokens)
    (next : Good { r with word := some (r.word.getD [] ++ [c]),state } ∧
      pending { r with word := some (r.word.getD [] ++ [c]),state } rest = tokens) :
    Turned mc Good pending tokens r.list rest (store mc r state c) := by
  rw [store,set]
  split_ifs with full
  · exact long full
  · exact turned_skip rfl next.1 next.2

theorem turned_set {load : List UInt8 → Scan ⊕ Scan} (long : mc ≤ w.length → ¬ AllFit mc tokens)
    (loaded : w.length < mc → Turned mc Good pending tokens r.list rest (.ok (load (w ++ [0])))) :
    Turned mc Good pending tokens r.list rest ((set mc w 0).map load) := by
  rw [set]
  split_ifs with full
  · exact long full
  · exact loaded (by omega)

theorem turned_finish (line : r.lineL = size r.list) (q : r.q = 0) (more : r.eofStrDetected = false)
    (idle : ∀ r', Between r' → Good r' ∧ pending r' rest = pendingIn eofStr r' tokens) :
    Turned mc Good pending (upTo eofStr (.word w :: tokens)) r.list rest (finish mc eofStr r w) := by
  simp only [finish,set,q,ne_eq,not_true_eq_false,if_false]
  split_ifs with full
  · exact not_allFit_upTo (by simpa [Token.Fits] using full) _
  · exact turned_load line q more (by omega) idle

theorem closed_of_turned (turned : Turned mc (fun _ => True) (fun _ _ => []) tokens list [] result) :
    Closed mc tokens list (result.map listOf) := by
  match result,turned with
  | .error _,dies => exact dies
  | .ok (.inl next),⟨_,taken,listed,passes⟩ => exact ⟨taken,listed,passes⟩
  | .ok (.inr next),⟨_,taken,listed,passes⟩ => exact ⟨taken,listed,passes⟩

theorem pendingIn_nil : pendingIn eofStr r [] = [] := by
  rw [pendingIn]
  split <;> rfl

end Delimiter

/-! ### Words up to a delimiter -/

section Collecting

structure Collects (ends : UInt8 → Bool) (r : Scan) : Prop where
  lineL : r.lineL = size r.list
  q : r.q = 0
  word : ∀ w, r.word = some w → w ≠ [] ∧ ∀ c ∈ w, ends c = false

structure Splits (ends : UInt8 → Bool) (tokens : List UInt8 → List Token) : Prop where
  word : ∀ {w c}, w ≠ [] → (∀ d ∈ w, ends d = false) → ends c = true →
    ∀ rest, tokens (w ++ c :: rest) = .word w :: tokens rest
  last : ∀ {w}, w ≠ [] → (∀ d ∈ w, ends d = false) → tokens w = [.word w]

variable {ends : UInt8 → Bool}

theorem Between.collects (between : Between r) : Collects ends r :=
  ⟨between.lineL,between.q,fun w some => by cases between.word.symm.trans some⟩

theorem Collects.letters (collects : Collects ends r) : ∀ d ∈ r.word.getD [], ends d = false := by
  intro d listed
  cases word : r.word with
  | none => simp [word] at listed
  | some w => exact (collects.word w word).2 d (by simpa [word] using listed)

theorem letters_snoc (letters : ∀ d ∈ w, ends d = false) (letter : ends c = false) :
    ∀ d ∈ w ++ [c], ends d = false := forall_mem_append.mpr ⟨letters,forall_mem_singleton.mpr letter⟩

theorem Splits.long (splits : Splits ends tokens) (nonempty : w ≠ []) (letters : ∀ c ∈ w, ends c = false)
    (rest : List UInt8) : ∃ more others, tokens (w ++ rest) = .word (w ++ more) :: others := by
  induction rest generalizing w with
  | nil => exact ⟨[],[],by rw [append_nil,splits.last nonempty letters]⟩
  | cons c rest ih =>
    cases blank : ends c with
    | true => exact ⟨[],_,by rw [splits.word nonempty letters blank,append_nil]⟩
    | false =>
      obtain ⟨more,others,split⟩ := ih (by simp) (letters_snoc letters blank)
      exact ⟨c :: more,others,by simpa using split⟩

theorem turned_letter (splits : Splits ends tokens) {pending : Scan → List UInt8 → List Token}
    {f : List Token → List Token} (dies : ∀ {token} tokens, ¬ token.Fits mc → ¬ AllFit mc (f (token :: tokens)))
    (pends : ∀ r' rest, r'.eofStrDetected = r.eofStrDetected → pending r' rest = f (tokens (r'.word.getD [] ++ rest)))
    (collects : Collects ends r) (letter : ends c = false) (rest : List UInt8) :
    Turned mc (Collects ends) pending (pending r (c :: rest)) r.list rest (store mc r .norm c) := by
  have letters := letters_snoc collects.letters letter
  rw [pends r (c :: rest) rfl]
  refine turned_store (fun long => ?_) ⟨⟨collects.lineL,collects.q,?_⟩,?_⟩
  · obtain ⟨more,others,split⟩ := splits.long (by simp) letters rest
    rw [append_assoc,singleton_append] at split
    rw [split]
    exact dies others (by simp [Token.Fits]; omega)
  · intro w known
    obtain rfl := Option.some.inj known
    exact ⟨by simp,letters⟩
  · rw [pends { r with word := some _,state := .norm } rest rfl,getD_some,append_assoc,singleton_append]

end Collecting

/-! ### Without quotes -/

def plainPending (eofStr : Option (List UInt8)) (r : Scan) (rest : List UInt8) : List Token :=
  pendingIn eofStr r (plainTokens (r.word.getD [] ++ rest))

theorem plainTokens_space (rest : List UInt8) (blank : isSpace c = true) :
    plainTokens (c :: rest) = plainTokens rest := by
  rw [plainTokens,splitOnP_cons_eq_if_modifyHead,if_pos blank]
  simp [plainTokens]

theorem plain_splits : Splits isSpace plainTokens := by
  refine ⟨fun nonempty letters blank rest => ?_,fun nonempty letters => ?_⟩
  · rw [plainTokens,splitOnP_append_cons_of_forall_mem letters _ blank]
    simp [plainTokens,nonempty]
  · rw [plainTokens,splitOnP_eq_singleton letters]
    simp [nonempty]

theorem Between.plain (eofStr : Option (List UInt8)) (between : Between r) (rest : List UInt8) :
    plainPending eofStr r rest = pendingIn eofStr r (plainTokens rest) := by
  rw [plainPending,between.word]
  rfl

theorem plainPending_seen (seen : r.eofStrDetected = true) (rest : List UInt8) : plainPending eofStr r rest = [] := by
  rw [plainPending,pendingIn,if_pos seen]

theorem plainPending_unseen (unseen : r.eofStrDetected = false) (rest : List UInt8) :
    plainPending eofStr r rest = upTo eofStr (plainTokens (r.word.getD [] ++ rest)) := by
  rw [plainPending,pendingIn,unseen]
  rfl

theorem plain_reads (mc : Nat) (eofStr : Option (List UInt8)) :
    (plainBody mc eofStr).Reads mc (Collects isSpace) (plainPending eofStr) := by
  refine ⟨fun r c rest good => ?_,fun r good => ?_,fun list =>
    ⟨(scan_between list).collects,((scan_between list).plain eofStr []).trans pendingIn_nil⟩⟩
  · simp only [plainBody]
    cases seen : r.eofStrDetected with
    | true => exact turned_skip rfl good (by rw [plainPending_seen seen,plainPending_seen seen])
    | false =>
      rw [if_neg (by decide)]
      split_ifs with blank
      · cases word : r.word with
        | none =>
          refine turned_skip rfl good ?_
          rw [plainPending_unseen seen,plainPending_unseen seen,word,getD_none,nil_append,nil_append,
            plainTokens_space rest blank]
        | some w =>
          obtain ⟨nonempty,letters⟩ := good.word w word
          rw [plainPending_unseen seen,word,getD_some,plain_splits.word nonempty letters blank]
          refine turned_set (fun long => not_allFit_upTo (by simpa [Token.Fits] using long) _) fun fits => ?_
          exact turned_load good.lineL good.q seen fits fun r' between => ⟨between.collects,between.plain eofStr rest⟩
      · exact turned_letter plain_splits (fun tokens large => not_allFit_upTo large tokens)
          (fun r' rest same => plainPending_unseen (same.trans seen) rest) good (by simpa using blank) rest
  · simp only [plainBody]
    cases seen : r.eofStrDetected with
    | true =>
      rw [plainPending_seen seen]
      exact ⟨[],(append_nil _).symm,.none _⟩
    | false =>
      rw [plainPending_unseen seen,if_neg (by decide),append_nil]
      cases word : r.word with
      | none => exact ⟨[],(append_nil _).symm,.none _⟩
      | some w =>
        obtain ⟨nonempty,letters⟩ := good.word w word
        rw [getD_some,plain_splits.last nonempty letters]
        refine closed_of_turned
          (turned_set (fun long => not_allFit_upTo (by simpa [Token.Fits] using long) _) fun fits => ?_)
        exact turned_load good.lineL good.q seen fits fun r' _ => ⟨trivial,pendingIn_nil.symm⟩

/-! ### Words that end with a null byte -/

def zeroPending (r : Scan) (rest : List UInt8) : List Token := zeroTokens (r.word.getD [] ++ rest)

theorem zeroTokens_word (letters : ∀ c ∈ w, (c == 0) = false) (rest : List UInt8) :
    zeroTokens (w ++ 0 :: rest) = .word w :: zeroTokens rest := by
  have split := splitOnP_append_cons_of_forall_mem letters 0 rfl rest
  have more := splitOnP_ne_nil (· == 0) rest
  rw [zeroTokens,zeroTokens,split,getLast?_cons_of_ne_nil more,dropLast_cons_of_ne_nil more]
  split_ifs <;> rfl

theorem zero_splits : Splits (· == 0) zeroTokens := by
  refine ⟨fun _ letters zero rest => ?_,fun nonempty letters => ?_⟩
  · rw [eq_of_beq zero,zeroTokens_word letters rest]
  · rw [zeroTokens,splitOnP_eq_singleton letters]
    simp [nonempty]

theorem Between.zero (between : Between r) (rest : List UInt8) : zeroPending r rest = zeroTokens rest := by
  rw [zeroPending,between.word]
  rfl

theorem zero_reads (mc : Nat) : (zeroBody mc).Reads mc (Collects (· == 0)) zeroPending := by
  refine ⟨fun r c rest good => ?_,fun r good => ?_,fun list =>
    ⟨(scan_between list).collects,(scan_between list).zero []⟩⟩
  · simp only [zeroBody]
    split_ifs with zero
    · rw [zeroPending,zero,zeroTokens_word good.letters rest]
      refine turned_set (fun long => not_allFit (by simpa [Token.Fits] using long) _) fun fits => ?_
      exact turned_add good.lineL good.q fits (fun r' between _ => ⟨between.collects,between.zero rest⟩) fun list =>
        (scan_between list).zero rest
    · exact turned_letter (f := id) zero_splits (fun tokens large => not_allFit large tokens) (fun _ _ _ => rfl) good
        (by simpa using zero) rest
  · simp only [zeroBody]
    rw [zeroPending,append_nil]
    cases word : r.word with
    | none => exact ⟨[],(append_nil _).symm,.none _⟩
    | some w =>
      obtain ⟨nonempty,letters⟩ := good.word w word
      rw [getD_some,zero_splits.last nonempty letters]
      refine closed_of_turned (turned_set (fun long => not_allFit (by simpa [Token.Fits] using long) _) fun fits => ?_)
      exact turned_add good.lineL good.q fits (fun _ _ _ => ⟨trivial,rfl⟩) fun _ => rfl

/-! ### With quotes -/

structure QuotesGood (r : Scan) : Prop where
  lineL : r.lineL = size r.list
  q : r.q = 0 ↔ r.state ≠ .quote
  word : r.state ≠ .norm → r.word ≠ none
  seen : r.eofStrDetected = true → r.word = none

def modeOf (r : Scan) : Mode :=
  match r.state with
  | .norm => .norm
  | .quote => .quote r.q
  | .backslash => .backslash

def quotesPending (eofStr : Option (List UInt8)) (r : Scan) (rest : List UInt8) : List Token :=
  pendingIn eofStr r (quotedTokens (modeOf r) r.word rest)

theorem quotedTokens_long (mode : Mode) (w : List UInt8) (long : mc ≤ w.length) (rest : List UInt8) :
    ∃ token tokens, quotedTokens mode (some w) rest = token :: tokens ∧ ¬ token.Fits mc := by
  induction rest generalizing mode w with
  | nil => cases mode <;> exact ⟨_,_,rfl,by simp [Token.Fits,long]⟩
  | cons c rest ih =>
    have longer : mc ≤ (w ++ [c]).length := by
      rw [length_append]
      omega
    cases mode with
    | backslash => exact ih .norm (w ++ [c]) longer
    | quote q =>
      rw [quotedTokens]
      split
      · exact ih .norm w long
      · exact ih (.quote q) (w ++ [c]) longer
    | norm =>
      rw [quotedTokens]
      split_ifs
      · exact ⟨_,_,rfl,by simp [Token.Fits,long]⟩
      · exact ih .backslash w long
      · exact ih (.quote c) w long
      · exact ih .norm (w ++ [c]) longer

theorem quotedTokens_norm (w : Option (List UInt8)) (rest : List UInt8) :
    quotedTokens .norm w (c :: rest) =
      if isSpace c then
        match w with
        | none => quotedTokens .norm none rest
        | some w => .word w :: quotedTokens .norm none rest
      else if c = 92 then quotedTokens .backslash (some (w.getD [])) rest
      else if c = 39 ∨ c = 34 then quotedTokens (.quote c) (some (w.getD [])) rest
      else quotedTokens .norm (some (w.getD [] ++ [c])) rest := by
  cases w <;> rw [quotedTokens]

theorem Between.quotes (eofStr : Option (List UInt8)) (between : Between r) (rest : List UInt8) :
    QuotesGood r ∧ quotesPending eofStr r rest = pendingIn eofStr r (quotedTokens .norm none rest) := by
  refine ⟨⟨between.lineL,by simp [between.q,between.state],fun other => absurd between.state other,
    fun _ => between.word⟩,?_⟩
  rw [quotesPending,modeOf,between.state,between.word]

theorem quotesPending_unseen (unseen : r.eofStrDetected = false) (rest : List UInt8) :
    quotesPending eofStr r rest = upTo eofStr (quotedTokens (modeOf r) r.word rest) := by
  rw [quotesPending,pendingIn,unseen]
  rfl

theorem quotes_reads (mc : Nat) (eofStr : Option (List UInt8)) :
    (quotesBody mc eofStr).Reads mc QuotesGood (quotesPending eofStr) := by
  refine ⟨fun r c rest good => ?_,fun r good => ?_,fun list =>
    ⟨(Between.quotes eofStr (scan_between list) []).1,
      (Between.quotes eofStr (scan_between list) []).2.trans pendingIn_nil⟩⟩
  · simp only [quotesBody]
    by_cases seen : r.eofStrDetected = true
    · rw [if_pos seen]
      refine turned_skip rfl good ?_
      rw [quotesPending,quotesPending,pendingIn,pendingIn,if_pos seen,if_pos seen]
    have unseen : r.eofStrDetected = false := by simpa using seen
    rw [if_neg seen,quotesPending_unseen unseen]
    have long : ∀ mode, mc ≤ (r.word.getD []).length →
        ¬ AllFit mc (upTo eofStr (quotedTokens mode (some (r.word.getD [] ++ [c])) rest)) := by
      intro mode full
      obtain ⟨token,tokens,split,large⟩ := quotedTokens_long mode (r.word.getD [] ++ [c])
        (Nat.le_trans full (by simp)) rest
      rw [split]
      exact not_allFit_upTo large tokens
    cases state : r.state with
    | backslash =>
      simp only [modeOf,state]
      rw [quotedTokens]
      exact turned_store (long .norm) ⟨⟨good.lineL,by simpa [state] using good.q,by simp,by simp [unseen]⟩,
        quotesPending_unseen (by exact unseen) rest⟩
    | quote =>
      simp only [modeOf,state]
      rw [quotedTokens]
      split_ifs
      · exact turned_skip rfl ⟨good.lineL,by simp,by simp,by simp [unseen]⟩
          (quotesPending_unseen (by exact unseen) rest)
      · exact turned_store (long (.quote r.q)) ⟨⟨good.lineL,by simpa [state] using good.q,by simp,by simp [unseen]⟩,
          quotesPending_unseen (by exact unseen) rest⟩
    | norm =>
      have q : r.q = 0 := good.q.mpr (by simp [state])
      simp only [modeOf,state]
      rw [quotedTokens_norm]
      split_ifs with blank escaping quoting
      · cases word : r.word with
        | none => exact turned_skip rfl good ((quotesPending_unseen unseen rest).trans (by rw [modeOf,state,word]))
        | some w => exact turned_finish good.lineL q unseen fun r' between => between.quotes eofStr rest
      · exact turned_skip rfl ⟨good.lineL,by simp [q],by simp,by simp [unseen]⟩
          (quotesPending_unseen (by exact unseen) rest)
      · have nonzero : c ≠ 0 := by rcases quoting with rfl | rfl <;> decide
        exact turned_skip rfl ⟨good.lineL,by simp [nonzero],by simp,by simp [unseen]⟩
          (quotesPending_unseen (by exact unseen) rest)
      · exact turned_store (long .norm) ⟨⟨good.lineL,by simp [q],by simp,by simp [unseen]⟩,
          quotesPending_unseen (by exact unseen) rest⟩
  · simp only [quotesBody]
    cases word : r.word with
    | none =>
      have norm : r.state = .norm := by_contra fun other => good.word other word
      have tokens : quotedTokens (modeOf r) none [] = [] := by rw [modeOf,norm]; rfl
      rw [quotesPending,word,tokens,pendingIn_nil]
      exact ⟨[],(append_nil _).symm,.none _⟩
    | some w =>
      have unseen : r.eofStrDetected = false := by
        by_contra seen
        have none := good.seen (by simpa using seen)
        cases none.symm.trans word
      rw [quotesPending_unseen unseen,word]
      by_cases quoting : r.state = .quote
      · have opened : r.q ≠ 0 := fun zero => good.q.mp zero quoting
        have tokens : quotedTokens (modeOf r) (some w) [] = [.unmatched] := by rw [modeOf,quoting]; rfl
        rw [tokens]
        obtain ⟨message,died⟩ : ∃ message, finish mc eofStr r w = .error message := by
          rw [finish.eq_def,set]
          split_ifs
          · exact ⟨_,rfl⟩
          · exact ⟨.unmatched r.q,rfl⟩
        simp only [died]
        exact not_allFit_upTo (by simp [Token.Fits]) _
      · have tokens : quotedTokens (modeOf r) (some w) [] = [.word w] := by
          cases state : r.state with
          | quote => exact absurd state quoting
          | norm => rw [modeOf,state]; rfl
          | backslash => rw [modeOf,state]; rfl
        rw [tokens]
        exact closed_of_turned (turned_finish good.lineL (good.q.mpr quoting) unseen fun r' _ =>
          ⟨trivial,pendingIn_nil.symm⟩)

/-! ### All three -/

structure ReadOk (o : Options) (mc : Nat) (list : List (List UInt8)) (rest : List UInt8) (read : Read)
    (taken : List (List UInt8)) : Prop where
  stops : read.rest = [] ∨ mc < size read.list
  eof : read.eof = true → read.rest = []
  list : read.list = list ++ entries taken
  passes : Passes mc (o.tokens rest) taken (o.tokens read.rest)

theorem readArgs_of_reads {o : Options} {pending : Scan → List UInt8 → List Token}
    (reads : (o.body mc).Reads mc Good pending) (fresh : ∀ list rest, pending (scan list) rest = o.tokens rest)
    (list : List (List UInt8)) (done : eof = true → rest = []) :
    (∀ read, o.readArgs mc list rest eof = .ok read → ∃ taken, ReadOk o mc list rest read taken) ∧
    ∀ message, o.readArgs mc list rest eof = .error message → ¬ AllFit mc (o.tokens rest) := by
  cases eof with
  | true =>
    obtain rfl := done rfl
    refine ⟨fun read same => ?_,fun message impossible => (by cases impossible)⟩
    obtain rfl := Except.ok.inj same
    exact ⟨[],.inl rfl,fun _ => rfl,(append_nil _).symm,.none _⟩
  | false =>
    obtain ⟨returns,fails⟩ := reads.loop rest (reads.begins list).1
    refine ⟨fun read same => ?_,fun message same => by rw [← fresh list]; exact fails message same⟩
    obtain ⟨stops,ended,taken,listed,passes⟩ := returns read same
    rw [fresh,fresh] at passes
    exact ⟨taken,stops,ended,listed,passes⟩

theorem readArgs_spec (o : Options) (mc : Nat) (list : List (List UInt8)) (done : eof = true → rest = []) :
    (∀ read, o.readArgs mc list rest eof = .ok read → ∃ taken, ReadOk o mc list rest read taken) ∧
    ∀ message, o.readArgs mc list rest eof = .error message → ¬ AllFit mc (o.tokens rest) := by
  cases zero : o.zero with
  | true =>
    have body : o.body mc = zeroBody mc := by simp [Options.body,zero]
    exact readArgs_of_reads (by rw [body]; exact zero_reads mc)
      (fun list rest => ((scan_between list).zero rest).trans (by simp [Options.tokens,zero])) list done
  | false =>
    cases quotes : o.quotes with
    | true =>
      have body : o.body mc = quotesBody mc o.eofStr := by simp [Options.body,zero,quotes]
      exact readArgs_of_reads (by rw [body]; exact quotes_reads mc o.eofStr)
        (fun list rest => (Between.quotes o.eofStr (scan_between list) rest).2.trans (by
          simp [Options.tokens,zero,quotes,pendingIn,scan])) list done
    | false =>
      have body : o.body mc = plainBody mc o.eofStr := by simp [Options.body,zero,quotes]
      exact readArgs_of_reads (by rw [body]; exact plain_reads mc o.eofStr)
        (fun list rest => ((scan_between list).plain o.eofStr rest).trans (by
          simp [Options.tokens,zero,quotes,pendingIn,scan])) list done

end Stablebox.Xargs
