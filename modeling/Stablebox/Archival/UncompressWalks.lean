import Stablebox.Archival.Uncompress

/-! The walks along the prefixes in `uncompress`, for arbitrary input. -/
namespace Stablebox.Uncompress

open List Function Nat

inductive Walks (codetab : Nat → Nat) : Nat → List Nat → Prop where
  | byte {code : Nat} (low : code < 256) : Walks codetab code [code]
  | entry {code : Nat} {codes : List Nat} (high : 256 ≤ code) (rest : Walks codetab (codetab code) codes) :
      Walks codetab code (code :: codes)

/-- The code that the next step takes from the buffer, if it takes one. -/
def State.reads (s : State) : Option Nat :=
  match s.phase with
  | .resetbuf => none
  | .codes inbits =>
    if inbits > s.posbits ∧ ¬s.freeEnt > s.maxcode then some (codeAt s.inbuf s.posbits s.nBits) else none

section Runs

variable (maxbits : Nat) (blockMode : Bool)

def record (s : State) (written : List Nat) : List Nat :=
  match s.reads, s.oldcode with
  | some code,some _ =>
    if code = clear ∧ blockMode then [] else if s.freeEnt < 2 ^ maxbits then s.freeEnt :: written else written
  | _,_ => written

/-- A run of allowed steps, with the entries written since the last reset. -/
inductive Run (allowed : State → Prop) (origin : State) : State → List Nat → Prop where
  | origin : Run allowed origin origin []
  | step {s next : State} {written : List Nat} (before : Run allowed origin s written) (meets : allowed s)
      (goes : step maxbits blockMode s = .inl next) : Run allowed origin next (record maxbits blockMode s written)

def walkStart (s : State) (code oldcode : Nat) : Nat := if code ≥ s.freeEnt then oldcode else code

/-- The walk of the next step goes down to a byte over written entries, and stays in the stack half of `htab`. -/
def WalksWell (s : State) (written : List Nat) : Prop :=
  ∀ code oldcode, s.reads = some code → s.oldcode = some oldcode → ¬(code = clear ∧ blockMode) → code ≤ s.freeEnt →
    ∃ codes, Walks s.codetab (walkStart s code oldcode) codes ∧ codes.Pairwise (· > ·) ∧ codes.length ≤ 65536 ∧
      (∀ visited ∈ codes, visited < 256 ∨ visited ∈ written) ∧
      ∃ stackp htab finchar, spell s code oldcode = some (stackp,htab,finchar) ∧ 65536 ≤ stackp ∧
        ∀ i, i < stackp ∨ deStack ≤ i → htab i = s.htab i

/-- The first code of all is that of a byte; and with at most nine bits, the code that the table lacks does not come
again when it is full. -/
def Proper (s : State) : Prop :=
  ∀ code, s.reads = some code →
    match s.oldcode with
    | none => code < 256
    | some oldcode => maxbits < 10 → code = s.freeEnt → ¬(code = clear ∧ blockMode) → oldcode < s.freeEnt

end Runs

/-! ### One walk -/

variable {codetab : Nat → Nat} {codes : List Nat}

theorem walk_walks (walks : Walks codetab code codes) (stackp : Nat) (htab : Memory)
    (room : codes.length ≤ stackp + 1) :
    ∃ final htab', walk codetab stackp code htab = some (stackp + 1 - codes.length,final,htab') ∧
      ∀ i, i < stackp + 1 - codes.length ∨ stackp ≤ i → htab' i = htab i := by
  induction walks generalizing stackp htab with
  | @byte code low =>
    refine ⟨code,htab,?_,fun _ _ => rfl⟩
    unfold walk
    simp [not_le.mpr low]
  | @entry code codes high rest ih =>
    have positive : 0 < codes.length := by cases rest <;> simp
    rw [length_cons] at room ⊢
    obtain ⟨stackp,rfl⟩ := exists_eq_succ_of_ne_zero (show stackp ≠ 0 by omega)
    obtain ⟨final,htab',walked,outside⟩ := ih stackp (update htab stackp (htab code)) (by omega)
    refine ⟨final,htab',?_,?_⟩
    · unfold walk
      simpa [high] using walked
    · intro i out
      rw [outside i (by omega),update_of_ne (by omega)]

theorem walks_push {start : Nat} (walks : Walks codetab start codes) (stackp : Nat)
    (htab : Memory) (room : codes.length ≤ stackp) :
    ∃ htab' finchar, (do
        let (stackp,code,htab) ← walk codetab stackp start htab
        let finchar := htab code
        let (stackp,htab) ← push stackp finchar htab
        return (stackp,htab,finchar)) = some (stackp - codes.length,htab',finchar) ∧
      ∀ i, i < stackp - codes.length ∨ stackp ≤ i → htab' i = htab i := by
  have positive : 0 < codes.length := by cases walks <;> simp
  obtain ⟨final,htab',walked,outside⟩ := walk_walks walks stackp htab (by omega)
  have top : stackp + 1 - codes.length = stackp - codes.length + 1 := by omega
  refine ⟨update htab' (stackp - codes.length) (htab' final),htab' final,?_,?_⟩
  · simp [walked,top,push]
  · intro i out
    rw [update_of_ne (by omega),outside i (by omega)]

theorem spell_walks (walks : Walks s.codetab (walkStart s code oldcode) codes) (short : codes.length < 65535) :
    ∃ stackp htab finchar, spell s code oldcode = some (stackp,htab,finchar) ∧ 65536 ≤ stackp ∧
      ∀ i, i < stackp ∨ deStack ≤ i → htab i = s.htab i := by
  have stack : deStack = 131070 + 1 := rfl
  by_cases newest : code ≥ s.freeEnt
  · obtain ⟨htab,finchar,made,outside⟩ := walks_push walks 131070 (update s.htab 131070 s.finchar) (by omega)
    refine ⟨131070 - codes.length,htab,finchar,?_,by omega,fun i out => ?_⟩
    · simpa [spell,walkStart,newest,push,stack] using made
    · rw [outside i (by omega),update_of_ne (by omega)]
  · obtain ⟨htab,finchar,made,outside⟩ := walks_push walks deStack s.htab (by omega)
    refine ⟨deStack - codes.length,htab,finchar,?_,by omega,outside⟩
    simpa [spell,walkStart,newest] using made

/-! ### The table -/

/-- A code that stands for bytes: a byte, or a written entry other than that of `CLEAR`. -/
def Live (blockMode : Bool) (written : List Nat) (code : Nat) : Prop :=
  code < 256 ∨ code ∈ written ∧ ¬(code = clear ∧ blockMode = true)

/-- What holds of the table, for any input. -/
structure Entered (maxbits : Nat) (blockMode : Bool) (written : List Nat) (s : State) : Prop where
  base : 256 ≤ s.freeEnt
  free : s.freeEnt ≤ 2 ^ maxbits ∨ s.freeEnt ≤ first
  inside : ∀ code ∈ written, 256 ≤ code ∧ code < s.freeEnt
  all : ∀ code, 256 ≤ code → code < s.freeEnt → code ∈ written ∨ code = clear ∧ blockMode = true
  down : ∀ code ∈ written, ¬(code = clear ∧ blockMode = true) →
    s.codetab code < code ∧ Live blockMode written (s.codetab code)
  /-- The old code is in the table, unless this is full or was just cleared. -/
  old : ∀ oldcode, s.oldcode = some oldcode → ¬(oldcode = clear ∧ blockMode = true) ∧
    (oldcode < s.freeEnt ∨ 2 ^ maxbits ≤ s.freeEnt ∨ s.freeEnt = clear ∧ blockMode = true)
  /-- With ten bits or more the codes are never longer than that. -/
  wide : 10 ≤ maxbits → s.nBits ≤ maxbits ∧ s.maxcode = if s.nBits = maxbits then 2 ^ maxbits else 2 ^ s.nBits - 1

section Table

variable {maxbits : Nat} {blockMode : Bool} {written : List Nat} {s : State}

variable {next : State}

theorem reads_lt (reads : s.reads = some code) : code < 2 ^ s.nBits := by
  unfold State.reads at reads
  split at reads
  · cases reads
  split at reads
  · cases reads
    exact Nat.mod_lt _ (Nat.two_pow_pos _)
  · cases reads

theorem Live.more (live : Live blockMode written code) (entry : Nat) : Live blockMode (entry :: written) code :=
  live.imp_right fun known => ⟨mem_cons_of_mem entry known.1,known.2⟩

section

variable (entered : Entered maxbits blockMode written s)

include entered

theorem Entered.live (known : code < s.freeEnt)
    (ordinary : ¬(code = clear ∧ blockMode = true)) : Live blockMode written code := by
  by_cases low : code < 256
  · exact .inl low
  · exact .inr ⟨(entered.all code (by omega) known).resolve_right ordinary,ordinary⟩

theorem Entered.walks (live : Live blockMode written code) :
    ∃ codes, Walks s.codetab code codes ∧ codes.Pairwise (· > ·) ∧ codes.length ≤ code - 255 + 1 ∧
      (∀ visited ∈ codes, visited ≤ code) ∧ ∀ visited ∈ codes, visited < 256 ∨ visited ∈ written := by
  induction code using Nat.strongRecOn with
  | ind code ih =>
    by_cases low : code < 256
    · exact ⟨[code],.byte low,by simp,by simp,by simp,by simp [low]⟩
    obtain ⟨listed,ordinary⟩ := live.resolve_left low
    obtain ⟨less,next⟩ := entered.down code listed ordinary
    obtain ⟨codes,walks,decreasing,short,below,known⟩ := ih _ less next
    refine ⟨code :: codes,.entry (by omega) walks,?_,?_,?_,?_⟩
    · exact pairwise_cons.mpr ⟨fun visited there => lt_of_le_of_lt (below visited there) less,decreasing⟩
    · rw [length_cons]
      omega
    · exact forall_mem_cons.mpr ⟨le_rfl,fun visited later => le_of_lt (lt_of_le_of_lt (below visited later) less)⟩
    · exact forall_mem_cons.mpr ⟨.inr listed,known⟩

theorem Entered.start_live (proper : Proper maxbits blockMode s) (reads : s.reads = some code)
    (old : s.oldcode = some oldcode) (ordinary : ¬(code = clear ∧ blockMode = true)) (known : code ≤ s.freeEnt) :
    Live blockMode written (walkStart s code oldcode) := by
  rw [walkStart]
  split
  · have newest : code = s.freeEnt := by omega
    obtain ⟨notClear,cases⟩ := entered.old oldcode old
    have meets := proper code reads
    rw [old] at meets
    refine entered.live ?_ notClear
    rcases cases with inside | full | ⟨cleared,block⟩
    · exact inside
    · by_cases narrow : maxbits < 10
      · exact meets narrow newest ordinary
      have short := reads_lt reads
      have width : 2 ^ s.nBits ≤ 2 ^ maxbits := Nat.pow_le_pow_right (by decide) (entered.wide (not_lt.mp narrow)).1
      omega
    · exact absurd ⟨newest.trans cleared,block⟩ ordinary
  · exact entered.live (by omega) ordinary

theorem Entered.walksWell (bits : maxbits ≤ 16)
    (proper : Proper maxbits blockMode s) : WalksWell blockMode s written := by
  intro code oldcode reads old ordinary known
  have live := entered.start_live proper reads old ordinary known
  obtain ⟨codes,walks,decreasing,short,_,listed⟩ := entered.walks live
  have small : walkStart s code oldcode < 65536 := by
    have limit : 2 ^ maxbits ≤ 2 ^ 16 := Nat.pow_le_pow_right (by decide) bits
    have free := entered.free
    have firstEntry : first = 257 := rfl
    rcases live with low | ⟨there,_⟩
    · omega
    · have := entered.inside _ there
      omega
  exact ⟨codes,walks,decreasing,by omega,listed,spell_walks walks (by omega)⟩

theorem Entered.keep (codetab : next.codetab = s.codetab)
    (freeEnt : next.freeEnt = s.freeEnt) (oldcode : next.oldcode = s.oldcode)
    (wide : 10 ≤ maxbits → next.nBits ≤ maxbits ∧
      next.maxcode = if next.nBits = maxbits then 2 ^ maxbits else 2 ^ next.nBits - 1) :
    Entered maxbits blockMode written next where
  base := freeEnt ▸ entered.base
  free := freeEnt ▸ entered.free
  inside := freeEnt ▸ entered.inside
  all := freeEnt ▸ entered.all
  down := codetab ▸ entered.down
  old := by
    rw [oldcode,freeEnt]
    exact entered.old
  wide

theorem Entered.widen (more : s.freeEnt > s.maxcode) :
    Entered maxbits blockMode written (widen maxbits s) := by
  refine entered.keep rfl rfl rfl fun large => ⟨?_,rfl⟩
  obtain ⟨bound,limit⟩ := entered.wide large
  have free := entered.free
  have thousand : 2 ^ 10 ≤ 2 ^ maxbits := Nat.pow_le_pow_right (by decide) large
  have firstEntry : first = 257 := rfl
  by_cases same : s.nBits = maxbits
  · rw [if_pos same] at limit
    omega
  · show s.nBits + 1 ≤ maxbits
    omega

theorem Entered.clearTable (block : blockMode = true) :
    Entered maxbits blockMode [] (clearTable s) where
  base := le_rfl
  free := .inr (show first - 1 ≤ first by decide)
  inside := by simp
  all code high low := absurd low (not_lt.mpr high)
  down := by simp
  old oldcode same := ⟨(entered.old oldcode same).1,.inr (.inr ⟨rfl,block⟩)⟩
  wide large := ⟨le_trans (show initBits ≤ 10 by decide) large,by
    have other : initBits ≠ maxbits := by
      rintro rfl
      exact absurd large (by decide)
    rw [if_neg (show (Uncompress.clearTable s).nBits ≠ maxbits from other)]
    rfl⟩

theorem Entered.newEntry (bits : maxbits ≤ 16) (old : s.oldcode = some oldcode)
    (ordinary : ¬(code = clear ∧ blockMode = true)) (known : code ≤ s.freeEnt) :
    Entered maxbits blockMode (if s.freeEnt < 2 ^ maxbits then s.freeEnt :: written else written)
      (newEntry maxbits oldcode (putPhrase code stackp htab finchar s)) := by
  have base := entered.base
  change Entered _ _ _ (if s.freeEnt < 2 ^ maxbits then _ else _)
  split_ifs with room
  · have limit : 2 ^ maxbits ≤ 2 ^ 16 := Nat.pow_le_pow_right (by decide) bits
    refine ⟨?_,.inl room,?_,?_,?_,?_,entered.wide⟩
    · exact le_succ_of_le base
    · intro entry listed
      change _ ∧ _ < s.freeEnt + 1
      rcases mem_cons.mp listed with rfl | earlier
      · omega
      · have := entered.inside entry earlier
        omega
    · intro entry high below
      change _ < s.freeEnt + 1 at below
      by_cases same : entry = s.freeEnt
      · exact .inl (same ▸ (.head _))
      · exact (entered.all entry high (by omega)).imp_left (mem_cons_of_mem _)
    · intro entry listed notClear
      change update s.codetab s.freeEnt (oldcode % 2 ^ 16) entry < entry ∧
        Live _ _ (update s.codetab s.freeEnt (oldcode % 2 ^ 16) entry)
      rcases mem_cons.mp listed with rfl | earlier
      · obtain ⟨oldOrdinary,cases⟩ := entered.old oldcode old
        have below : oldcode < s.freeEnt := by
          rcases cases with inside | full | cleared
          · exact inside
          · omega
          · exact absurd cleared notClear
        rw [update_self,mod_eq_of_lt (by omega)]
        exact ⟨below,(entered.live below oldOrdinary).more _⟩
      · have inside := entered.inside entry earlier
        rw [update_of_ne (by omega)]
        obtain ⟨less,live⟩ := entered.down entry earlier notClear
        exact ⟨less,live.more _⟩
    · rintro _ ⟨⟩
      exact ⟨ordinary,.inl (lt_succ_of_le known)⟩
  · refine ⟨base,entered.free,entered.inside,entered.all,entered.down,?_,entered.wide⟩
    rintro _ ⟨⟩
    exact ⟨ordinary,.inr (.inl (not_lt.mp room))⟩

theorem Entered.firstCode (low : code < 256) :
    Entered maxbits blockMode written (firstCode code s) := by
  refine ⟨entered.base,entered.free,entered.inside,entered.all,entered.down,?_,entered.wide⟩
  rintro _ ⟨⟩
  have clearCode : clear = 256 := rfl
  have base := entered.base
  exact ⟨by omega,.inl (lt_of_lt_of_le low base)⟩

theorem Entered.nextCode (bits : maxbits ≤ 16)
    (proper : Proper maxbits blockMode s) (reads : s.reads = some (codeAt s.inbuf s.posbits s.nBits))
    (goes : nextCode maxbits blockMode s = .inl next) :
    Entered maxbits blockMode (record maxbits blockMode s written) next := by
  have moved (oldcode : Option Nat) (same : oldcode = s.oldcode) :
      Entered maxbits blockMode written { s with posbits := s.posbits + s.nBits, oldcode } :=
    entered.keep rfl rfl same entered.wide
  have meets := proper _ reads
  rw [Uncompress.nextCode] at goes
  rw [record,reads]
  generalize codeAt s.inbuf s.posbits s.nBits = code at *
  cases old : s.oldcode with
  | none =>
    rw [old] at goes meets
    cases goes
    exact (moved _ old.symm).firstCode meets
  | some oldcode =>
    rw [old] at goes
    dsimp only at goes ⊢
    by_cases cleared : code = clear ∧ blockMode = true
    · rw [if_pos cleared] at goes ⊢
      cases goes
      exact (moved _ old.symm).clearTable cleared.2
    · rw [if_neg cleared,putCode] at goes
      rw [if_neg cleared]
      split at goes
      · cases goes
      rename_i known
      split at goes
      · cases goes
      · cases goes
        exact (moved _ old.symm).newEntry bits rfl cleared (not_lt.mp known)

theorem Entered.step (bits : maxbits ≤ 16)
    (proper : Proper maxbits blockMode s) (goes : step maxbits blockMode s = .inl next) :
    Entered maxbits blockMode (record maxbits blockMode s written) next := by
  rw [Uncompress.step] at goes
  cases phase : s.phase with
  | resetbuf =>
    rw [phase] at goes
    cases goes
    have quiet : s.reads = none := by simp [State.reads,phase]
    rw [record,quiet]
    exact entered.keep rfl rfl rfl entered.wide
  | codes inbits =>
    rw [phase] at goes
    dsimp only at goes
    by_cases left : inbits > s.posbits
    · rw [if_pos left] at goes
      by_cases more : s.freeEnt > s.maxcode
      · cases (if_pos more).symm.trans goes
        have quiet : s.reads = none := by simp [State.reads,phase,more]
        rw [record,quiet]
        exact entered.widen more
      · rw [if_neg more] at goes
        exact entered.nextCode bits proper (by rw [State.reads,phase]; exact if_pos ⟨left,more⟩) goes
    · rw [if_neg left] at goes
      split at goes
      · cases goes
        have quiet : s.reads = none := by simp [State.reads,phase,left]
        rw [record,quiet]
        exact entered.keep rfl rfl rfl entered.wide
      · cases goes

end

theorem Entered.start (fdIn : List Chunk) (htab : Memory) (codetab : Nat → Nat) :
    Entered maxbits blockMode [] (start blockMode fdIn htab codetab) where
  base := show 256 ≤ if blockMode then first else 256 by cases blockMode <;> decide
  free := .inr (show (if blockMode then first else 256) ≤ first by cases blockMode <;> decide)
  inside := by simp
  all code high low := by
    cases blockMode with
    | false => exact absurd low (not_lt.mpr high)
    | true =>
      change code < 257 at low
      exact .inr ⟨show code = 256 by omega,rfl⟩
  down := by simp
  old oldcode same := by cases same
  wide large := by
    have other : initBits ≠ maxbits := by
      rintro rfl
      exact absurd large (by decide)
    exact ⟨le_trans (show initBits ≤ 10 by decide) large,(if_neg other).symm⟩

theorem Run.entered (bits : maxbits ≤ 16)
    (run : Run maxbits blockMode (Proper maxbits blockMode) (start blockMode fdIn htab codetab) s written) :
    Entered maxbits blockMode written s := by
  induction run with
  | origin => exact Entered.start fdIn htab codetab
  | step _ meets goes ih => exact ih.step bits meets goes

end Table

/-- Take allowed steps, and keep a record of the entries. -/
def advance (maxbits : Nat) (blockMode : Bool) (allowed : State → Prop) [DecidablePred allowed] :
    Nat → State × List Nat → Option (State × List Nat)
  | 0,here => some here
  | n + 1,(s,written) =>
    match step maxbits blockMode s with
    | .inl next =>
      if allowed s then advance maxbits blockMode allowed n (next,record maxbits blockMode s written) else none
    | .inr _ => none

theorem advance_run [DecidablePred allowed] (before : Run maxbits blockMode allowed origin s written)
    (done : advance maxbits blockMode allowed n (s,written) = some last) :
    Run maxbits blockMode allowed origin last.1 last.2 := by
  induction n generalizing s written with
  | zero =>
    cases done
    exact before
  | succ n ih =>
    rw [advance] at done
    split at done
    · rename_i goes
      split at done
      · rename_i meets
        exact ih (.step before meets goes) done
      · cases done
    · cases done

instance (s : State) : Decidable (Proper maxbits blockMode s) := by
  unfold Proper
  cases s.reads with
  | none => exact .isTrue nofun
  | some code =>
    cases s.oldcode <;>
      exact decidable_of_iff _ ⟨fun here _ same => Option.some.inj same ▸ here,fun all => all code rfl⟩

/-- Every walk in a run of proper steps ends at a byte. -/
theorem walks_terminate (header : UInt8) (accepted : maxbitsOf header ≤ 16) (fdIn : List Chunk) (htab : Memory)
    (codetab : Nat → Nat) (s : State) (written : List Nat)
    (run : Run (maxbitsOf header) (blockModeOf header) (Proper (maxbitsOf header) (blockModeOf header))
      (start (blockModeOf header) fdIn htab codetab) s written)
    (proper : Proper (maxbitsOf header) (blockModeOf header) s) : WalksWell (blockModeOf header) s written :=
  (run.entered accepted).walksWell accepted proper

/-- Two letters, then three phrases; the table lacks the last two of them when they come. -/
def phrases : State := start true [⟨[97,196,4,28,72,16],by simp,by simp [ibufsiz]⟩] (fun _ => 0) fun _ => 0

theorem walks_terminate_phrases : ∃ s written, Run 16 true (Proper 16 true) phrases s written ∧
    s.reads = some 260 ∧ walkStart s 260 259 = 259 ∧ written = [259,258,257] ∧ WalksWell true s written := by
  let result := (advance 16 true (Proper 16 true) 7 (phrases,[])).get (by decide +kernel)
  have run : Run 16 true (Proper 16 true) phrases result.1 result.2 :=
    advance_run (n := 7) .origin (Option.some_get _).symm
  exact ⟨result.1,result.2,run,by decide +kernel,by decide +kernel,by decide +kernel,
    walks_terminate 144 (by decide) _ _ _ _ _ run (by decide +kernel)⟩

/-- A first code of no byte is taken: the walk of the next one starts at entry 300, which was never written. -/
theorem firstCode_unwritten : ∃ s, Run 16 true (fun _ => True)
    (start true [⟨[44,3,2],by simp,by simp [ibufsiz]⟩] (fun _ => 0) fun _ => 0) s [] ∧ ¬WalksWell true s [] := by
  let result := (advance 16 true (fun _ => True) 4
    (start true [⟨[44,3,2],by simp,by simp [ibufsiz]⟩] (fun _ => 0) fun _ => 0,[])).get (by decide +kernel)
  have none : result.2 = [] := by decide +kernel
  have run : Run 16 true (fun _ => True) _ result.1 result.2 := advance_run (n := 4) .origin (Option.some_get _).symm
  refine ⟨result.1,none ▸ run,fun well => ?_⟩
  obtain ⟨codes,walks,_,_,known,_⟩ := well 257 300 (by decide +kernel) (by decide +kernel) (by decide)
    (by decide +kernel)
  have listed : 300 ∈ codes := by
    rw [show walkStart result.1 257 300 = 300 by decide +kernel] at walks
    cases walks <;> exact .head _
  simpa using known 300 listed

end Stablebox.Uncompress
