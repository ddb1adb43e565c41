import Stablebox.Lib.Runs
import Stablebox.Shell.LocalsReturn

/-! Quoting in ash.c: `single_quote`, and the lists of variables that `export` and `readonly`
print in a form that the shell can read again. -/
namespace Stablebox.Ash.Variables

open Libbb Faulty List Option
open Stablebox.Runs (runs first behind first_behind runs_eq length_behind)

/-- One turn of the loop of `single_quote`: a piece without a quote, then the quotes behind it. -/
def quoteRun : List UInt8 × List UInt8 → List UInt8
  | (piece,[]) => 39 :: piece ++ [39]
  | (piece,quotes) => 39 :: piece ++ 39 :: 34 :: quotes ++ [34]

def singleQuote (s : List UInt8) : List UInt8 :=
  if s = [] then quoteRun ([],[]) else (runs (· == 39) s).flatMap quoteRun

def State.listvars (st : State) (on : Flags → Bool) : List (List UInt8) :=
  ((range 39).flatMap st.vartab).filterMap fun vp => do
    let v ← st.vars vp
    let t ← st.texts v.text
    if on v.flags then some t.text else none

/-- `vpcmp` compares the names as signed characters, with the null behind them. -/
def vpkey (s : List UInt8) : List Int := (nameOf s ++ [0]).map fun c : UInt8 => c.toInt8.toInt

def varLine (sepPrefix ep : List UInt8) : List UInt8 :=
  sepPrefix ++ (if sepPrefix ≠ [] then [32] else []) ++ nameOf ep ++
    (match ep.dropWhile (· ≠ 61) with | [] => [] | _ :: value => 61 :: singleQuote value) ++ [10]

def State.sorted (st : State) (on : Flags → Bool) : List (List UInt8) :=
  (st.listvars on).insertionSort fun a b => vpkey a ≤ vpkey b

def State.showvars (st : State) (sepPrefix : List UInt8) (on : Flags → Bool) : List UInt8 :=
  (st.sorted on).flatMap (varLine sepPrefix)

def commandName (readonly : Bool) : List UInt8 := if readonly then text "readonly" else text "export"

def commandFlag (readonly : Bool) : Flags := { readonly, exported := !readonly }

def hasFlag (readonly : Bool) (flags : Flags) : Bool := if readonly then flags.readonly else flags.exported

/-- One turn of the loop of `exportcmd`, for any word. -/
def exportWord (flag : Flags) (name : List UInt8) : Sh Unit :=
  match name.dropWhile (· ≠ 61) with
  | _ :: p => setvar name (some p) flag []
  | [] => do
    match ← reading (·.findvar name) with
    | some vp =>
      let v ← reading (·.vars vp)
      modify (·.setVar vp { v with flags := { v.flags with
        exported := v.flags.exported || flag.exported
        readonly := v.flags.readonly || flag.readonly } })
    | none => setvar name none flag []

/-- The environment as the shell takes it over: no name is looked at. -/
def importEnviron (environ : List (List UInt8)) : Sh Unit :=
  forEach (fun envp => if 61 ∈ envp then setvareq ⟨envp,[]⟩ { exported := true, textfixed := true } else pure ())
    environ

/-! ### Reading -/

def marks : List UInt8 := text "'\" \t\n|&;<>()$\\*?[#~" ++ [96]

/-- What a byte starts between double quotes but not between single ones. -/
def expands (quote c : UInt8) : Bool := quote == 34 && (c == 36 || c == 96 || c == 92)

/-- The commands of a text, each a list of words, by the quoting rules of the shell. There is no
result where the text has more than quotes to it. -/
def readCommands : Option UInt8 → Option (List UInt8) → List (List UInt8) → List UInt8 →
    Option (List (List (List UInt8)))
  | none,word,words,[] => if words ++ word.toList = [] then some [] else some [words ++ word.toList]
  | some _,_,_,[] => none
  | none,word,words,c :: s =>
    if c ∉ marks then readCommands none (some (word.getD [] ++ [c])) words s
    else if c = 39 ∨ c = 34 then readCommands (some c) (some (word.getD [])) words s
    else if c = 10 then (readCommands none none [] s).map ((words ++ word.toList) :: ·)
    else if c = 32 ∨ c = 9 then readCommands none none (words ++ word.toList) s
    else none
  | some quote,word,words,c :: s =>
    if c = quote then readCommands none word words s
    else if expands quote c then none
    else readCommands (some quote) (word.map (· ++ [c])) words s

def command : List (List UInt8) → Sh Unit
  | [] => pure ()
  | argv0 :: words =>
    if argv0 = commandName true then forEach (exportWord (commandFlag true)) words
    else if argv0 = commandName false then forEach (exportWord (commandFlag false)) words
    else raise (argv0 ++ text ": not found")

def execute (commands : List (List (List UInt8))) : Sh Unit := forEach command commands

/-- A word as it is written, and its value. -/
inductive Quoted : List UInt8 → List UInt8 → Prop
  | nil : Quoted [] []
  | plain {c : UInt8} {q v : List UInt8} : c ∉ marks → Quoted q v → Quoted (c :: q) (c :: v)
  | piece {quote : UInt8} {a q v : List UInt8} : quote = 39 ∨ quote = 34 →
      (∀ c ∈ a, c ≠ quote ∧ expands quote c = false) → Quoted q v → Quoted (quote :: a ++ quote :: q) (a ++ v)

theorem runs_quoted (s : List UInt8) : Quoted ((runs (· == 39) s).flatMap quoteRun) s := by
  induction size : s.length using Nat.strongRecOn generalizing s with
  | ind n ih =>
    by_cases empty : s = []
    · subst empty
      exact .nil
    have tail := ih _ (size ▸ length_behind (· == 39) empty) _ rfl
    have inside : ∀ c ∈ (first (· == 39) s).1, c ≠ 39 ∧ expands 39 c = false :=
      fun c there => ⟨by simpa using mem_takeWhile_imp there,rfl⟩
    have only : ∀ c ∈ (first (· == 39) s).2, c ≠ 34 ∧ expands 34 c = false := fun c there => by
      obtain rfl : c = 39 := by simpa using mem_takeWhile_imp there
      decide
    have whole := first_behind (· == (39 : UInt8)) s
    rw [runs_eq empty,flatMap_cons]
    generalize first (· == 39) s = run,behind (· == 39) s = rest at inside only whole tail ⊢
    subst whole
    obtain ⟨piece,quotes⟩ := run
    cases quotes with
    | nil => simpa [quoteRun] using Quoted.piece (.inl rfl) inside tail
    | cons c quotes => simpa [quoteRun] using Quoted.piece (.inl rfl) inside (.piece (.inr rfl) only tail)

theorem singleQuote_quoted (s : List UInt8) : Quoted (singleQuote s) s := by
  unfold singleQuote
  split
  · rename_i empty
    subst empty
    exact .piece (a := []) (.inl rfl) (by simp) .nil
  · exact runs_quoted s

theorem Quoted.plains (ordinary : ∀ c ∈ a, c ∉ marks) (quoted : Quoted q v) :
    Quoted (a ++ q) (a ++ v) := by
  induction a with
  | nil => exact quoted
  | cons c a ih =>
    obtain ⟨here,later⟩ := forall_mem_cons.mp ordinary
    exact .plain here (ih later)

section Reading

theorem read_inside (inside : ∀ c ∈ a, c ≠ quote ∧ expands quote c = false) :
    readCommands (some quote) (some w) words (a ++ quote :: s) = readCommands none (some (w ++ a)) words s := by
  induction a generalizing w with
  | nil => simp [readCommands]
  | cons c a ih =>
    obtain ⟨⟨other,kept⟩,later⟩ := forall_mem_cons.mp inside
    rw [cons_append,readCommands,if_neg other,kept,if_neg (by decide),map_some,ih later]
    simp

theorem read_quoted (quoted : Quoted q v) :
    readCommands none (some w) words (q ++ s) = readCommands none (some (w ++ v)) words s := by
  induction quoted generalizing w with
  | nil => simp
  | plain ordinary _ ih =>
    rw [cons_append,readCommands,if_pos ordinary,ih]
    simp
  | @piece quote a q v quotes inside _ ih =>
    have mark : ¬ quote ∉ marks := by rcases quotes with rfl | rfl <;> decide
    simp only [cons_append,append_assoc]
    rw [readCommands,if_neg mark,if_pos quotes,getD_some,read_inside inside,ih,append_assoc]

theorem read_word (quoted : Quoted q v) (some : q ≠ []) :
    readCommands none none words (q ++ s) = readCommands none (.some v) words s := by
  have begun : readCommands none none words (q ++ s) = readCommands none (.some []) words (q ++ s) := by
    cases quoted with
    | nil => exact absurd rfl some
    | plain ordinary _ =>
      rw [cons_append,readCommands,readCommands,if_pos ordinary,if_pos ordinary]
      rfl
    | piece quotes _ _ =>
      simp only [cons_append]
      rw [readCommands,readCommands,if_pos quotes,if_pos quotes]
      rfl
  rw [begun,read_quoted quoted,nil_append]

theorem Name.ordinary (name : Name) : ∀ c ∈ name.bytes, c ∉ marks := by
  have apart : ∀ c ∈ marks, Variables.inName c = false := by decide +kernel
  intro c listed mark
  cases (apart c mark).symm.trans (name.inName listed)

theorem Name.word_cases (name : Name) (value : Option (List UInt8)) :
    (name.word value).dropWhile (· ≠ 61) = match value with | none => [] | some value => 61 :: value := by
  cases value with
  | none => exact dropWhile_eq_nil_iff.mpr name.no_equals
  | some value =>
    rw [Name.word,dropWhile_append_of_pos name.no_equals]
    simp

theorem read_line (readonly : Bool) (name : Name) (value : Option (List UInt8)) :
    readCommands none none [] (varLine (commandName readonly) (name.word value) ++ s) =
      (readCommands none none [] s).map ([commandName readonly,name.word value] :: ·) := by
  have nonempty : commandName readonly ≠ [] := by cases readonly <;> decide
  have plain : ∀ c ∈ commandName readonly, c ∉ marks := by cases readonly <;> decide +kernel
  have first := Quoted.plains plain .nil
  obtain ⟨q,shape,second,some⟩ : ∃ q, varLine (commandName readonly) (name.word value) =
      commandName readonly ++ [] ++ 32 :: (q ++ [10]) ∧ Quoted q (name.word value) ∧ q ≠ [] := by
    refine ⟨name.bytes ++ match value with | none => [] | some value => 61 :: singleQuote value,?_,?_,?_⟩
    · simp only [varLine,nameOf_word,name.word_cases,if_pos nonempty]
      cases value <;> simp
    · cases value with
      | none => simpa [Name.word] using Quoted.plains name.ordinary .nil
      | some value => exact Quoted.plains name.ordinary (.plain (by decide +kernel) (singleQuote_quoted value))
    · simp [name.valid.1]
  rw [shape,append_assoc,read_word first (by simpa using nonempty),cons_append,readCommands,if_neg (by decide),
    if_neg (by decide),if_neg (by decide),if_pos (by decide),append_assoc,read_word second some,
    singleton_append,readCommands,if_neg (by decide),if_neg (by decide),if_pos rfl]
  simp

theorem read_singleQuote (s : List UInt8) : readCommands none none [] (singleQuote s) = some [[s]] := by
  have nonempty : singleQuote s ≠ [] := by
    intro empty
    have quoted := singleQuote_quoted s
    rw [empty] at quoted
    cases quoted
    cases empty
  rw [← append_nil (singleQuote s),read_word (singleQuote_quoted s) nonempty]
  rfl

theorem read_lines (readonly : Bool) {texts : List (List UInt8)}
    (named : ∀ t ∈ texts, ∃ (name : Name) (value : Option (List UInt8)), t = name.word value) :
    readCommands none none [] (texts.flatMap (varLine (commandName readonly))) =
      some (texts.map fun t => [commandName readonly,t]) := by
  induction texts with
  | nil => rfl
  | cons t texts ih =>
    obtain ⟨name,value,rfl⟩ := named t (mem_cons_self ..)
    rw [flatMap_cons,read_line,ih (forall_mem_cons.mp named).2]
    rfl

end Reading

section Executing

variable {st : State}

def emptyShell : State := ⟨fun _ => [],fun _ => none,fun _ => none,0,0,[],[],fun _ => false,false,true,false,0,false⟩

def State.madeFlags (st : State) (readonly : Bool) (value : Option (List UInt8)) : Flags :=
  st.allexport { commandFlag readonly with unset := value.isNone, nosave := true }

theorem exportWord_missing (valid : Valid st) (readonly : Bool) {name : Name} (value : Option (List UInt8))
    (nowhere : ∀ vp v u, Holds st vp v u → nameOf u.text ≠ name.bytes) :
    (exportWord (commandFlag readonly) (name.word value)).run st =
      some (.ok (),st.add (st.madeFlags readonly value) none ⟨name.word value,[]⟩) := by
  have stored : (setvar (name.word value) value (commandFlag readonly) []).run st =
      some (.ok (),st.add (st.madeFlags readonly value) none ⟨name.word value,[]⟩) := by
    rw [setvar_named (nameOf_word name value)]
    exact setvareq_missing valid rfl (nameOf_word name value) nowhere
  cases value with
  | none =>
    have front : (name.word none).dropWhile (· ≠ 61) = [] := name.word_cases none
    simp only [exportWord,front,run_bind,run_reading,valid.findvar_missing (nameOf_word name none) nowhere,map_some]
    exact stored
  | some p =>
    have front : (name.word (some p)).dropWhile (· ≠ 61) = 61 :: p := name.word_cases (some p)
    simp only [exportWord,front]
    exact stored

theorem command_word (readonly : Bool) (word : List UInt8) :
    command [commandName readonly,word] = forEach (exportWord (commandFlag readonly)) [word] := by
  cases readonly <;> rfl

theorem allexport_unset (st : State) (flags : Flags) : (st.allexport flags).unset = flags.unset := by
  unfold State.allexport
  split <;> rfl

theorem equals_mem_word (name : Name) (value : Option (List UInt8)) : value.isNone = true ↔ 61 ∉ name.word value := by
  cases value with
  | none => simpa [Name.word] using fun there => absurd (name.no_equals 61 there) (by decide)
  | some value => simp [Name.word]

theorem execute_run (readonly : Bool) {texts : List (List UInt8)} (valid : Valid st)
    (named : ∀ t ∈ texts, ∃ (name : Name) (value : Option (List UInt8)), t = name.word value)
    (distinct : texts.Pairwise (nameOf · ≠ nameOf ·))
    (nowhere : ∀ t ∈ texts, ∀ vp v u, Holds st vp v u → nameOf u.text ≠ nameOf t) :
    ∃ next, (execute (texts.map fun t => [commandName readonly,t])).run st = some (.ok (),next) ∧
      Valid next ∧ (∀ vp v u, Holds st vp v u → Holds next vp v u) ∧
      ∀ t ∈ texts, ∃ vp v, Holds next vp v ⟨t,[]⟩ ∧ (v.flags.unset = true ↔ 61 ∉ t) := by
  induction texts generalizing st with
  | nil => exact ⟨st,rfl,valid,fun _ _ _ here => here,by simp⟩
  | cons t texts ih =>
    obtain ⟨name,value,rfl⟩ := named t (mem_cons_self ..)
    obtain ⟨others,rest⟩ := pairwise_cons.mp distinct
    have free := nowhere _ (mem_cons_self ..)
    rw [nameOf_word] at free
    let flags := st.madeFlags readonly value
    have added := valid.add (t := ⟨name.word value,[]⟩) flags none ((nameOf_word name value).symm ▸ free)
      (fun some => absurd rfl some)
    obtain ⟨next,ran,validNext,kept,made⟩ := ih added (forall_mem_cons.mp named).2 rest
      (fun u later vp v w here => by
        rcases valid.add_cases here with ⟨_,rfl,_⟩ | old
        · exact others u later
        · exact nowhere u (.tail _ later) vp v w old)
    refine ⟨next,?_,validNext,fun vp v u here => kept vp v u (valid.holds_add flags none _ here),?_⟩
    · have one : (command [commandName readonly,name.word value]).run st =
          some (.ok (),st.add flags none ⟨name.word value,[]⟩) := by
        rw [command_word,forEach,bind_ok (exportWord_missing valid readonly value free)]
        rfl
      rw [map_cons,execute,forEach,bind_ok one]
      exact ran
    · intro u listed
      rcases mem_cons.mp listed with rfl | later
      · refine ⟨_,_,kept _ _ _ (add_new st flags none _),?_⟩
        simp only [flags,State.madeFlags,allexport_unset]
        exact equals_mem_word name value
      · exact made u later

end Executing

section Listing

theorem Valid.mem_listvars (valid : Valid st) :
    s ∈ st.listvars on ↔ ∃ vp v t, Holds st vp v t ∧ on v.flags = true ∧ t.text = s := by
  simp only [State.listvars,mem_filterMap,mem_flatMap,mem_range,bind_eq_bind,
    bind_eq_some_iff,ite_none_right_eq_some,some.injEq]
  constructor
  · rintro ⟨vp,_,v,there,t,text,listed,same⟩
    exact ⟨vp,v,t,⟨there,text⟩,listed,same⟩
  · rintro ⟨vp,v,t,holds,listed,same⟩
    obtain ⟨u,text,bucket⟩ := valid.live vp v holds.1
    exact ⟨vp,⟨_,Nat.mod_lt _ (by decide),bucket⟩,v,holds.1,t,holds.2,listed,same⟩

theorem Valid.listvars_distinct (valid : Valid st) (on : Flags → Bool) :
    (st.listvars on).Pairwise (nameOf · ≠ nameOf ·) := by
  have nodup : ((range 39).flatMap st.vartab).Nodup := by
    refine nodup_flatMap.mpr ⟨fun b _ => valid.nodup b,nodup_range.imp fun {a b} apart vp left right => ?_⟩
    obtain ⟨v,t,holds,hash⟩ := valid.listed a vp left
    obtain ⟨w,u,same,hash'⟩ := valid.listed b vp right
    obtain rfl := mem_unique holds.textOf same.textOf
    exact apart (hash.symm.trans hash')
  refine List.Pairwise.filterMap _ (fun vp vq apart s here s' there same => apart ?_) nodup
  simp only [bind_eq_bind,bind_eq_some_iff,ite_none_right_eq_some,some.injEq] at here there
  obtain ⟨v,var,t,text,_,rfl⟩ := here
  obtain ⟨w,var',u,text',_,rfl⟩ := there
  exact valid.names vp vq v w t u ⟨var,text⟩ ⟨var',text'⟩ same

end Listing

theorem endofname_name (some : endofname s ≠ 0) : ∃ name : Name, name.bytes = s.take (endofname s) := by
  cases s with
  | nil => exact absurd rfl some
  | cons c rest =>
    have front := prefix_iff_eq_take.mp (List.takeWhile_prefix inName (l := rest))
    have starts : startsName c := by
      by_contra other
      simp [endofname,other] at some
    have length : endofname (c :: rest) = (rest.takeWhile inName).length + 1 := by simp [endofname,starts,Nat.add_comm]
    refine ⟨⟨c :: rest.takeWhile inName,by simp,?_⟩,by rw [length,take_succ_cons,← front]⟩
    simp [endofname,starts,takeWhile_idem,Nat.add_comm]

theorem setvar_ok {st next : State} {behind : List UInt8}
    (ran : (setvar word val flags behind).run st = some (.ok (),next)) : ∃ name : Name, nameOf word = name.bytes := by
  unfold setvar at ran
  dsimp only at ran
  split at ran
  · cases ran
  rename_i good
  push Not at good
  obtain ⟨name,front⟩ := endofname_name (good.2 ▸ good.1)
  have stop : nameOf (word.drop (endofname word)) = [] := length_eq_zero_iff.mp (by omega)
  refine ⟨name,?_⟩
  rw [← take_append_drop (endofname word) word,← front,nameOf,takeWhile_append_of_pos name.no_equals]
  exact (congrArg _ stop).trans (append_nil _)

/-! ### Stores -/

section Stores

def Fits (unset : Bool) (s : List UInt8) : Prop :=
  (unset = true ↔ 61 ∉ s) ∧ (unset = true → ∃ name : Name, nameOf s = name.bytes)

/-- A variable that is not set has no `=` in its text, and a name that `setvar` accepts. -/
structure Tidy (st : State) : Prop where
  valid : Valid st
  fits : ∀ vp v t, Holds st vp v t → Fits v.flags.unset t.text

variable {st : State} {flags : Flags}

theorem fits_word (name : Name) (value : Option (List UInt8)) : Fits value.isNone (name.word value) :=
  ⟨equals_mem_word name value,fun _ => ⟨name,nameOf_word name value⟩⟩

theorem store_cases (valid : Valid st) (holds : Holds ((st.released old).store vp flags func s) i v t) :
    v.flags = flags ∧ t = s ∨ Holds st i v t := by
  have same : (st.released old).vars = st.vars ∧ (st.released old).nextText = st.nextText ∧
      ∀ p t, (st.released old).texts p = some t → st.texts p = some t := by
    unfold State.released
    split
    · refine ⟨rfl,rfl,fun p t there => ?_⟩
      by_cases freed : p = old.text
      · simp [State.freed,freed] at there
      · exact (Function.update_of_ne freed _ _).symm.trans there
    · exact ⟨rfl,rfl,fun _ _ => id⟩
  obtain ⟨var,text⟩ := holds
  simp only [State.store,same] at var text
  by_cases here : i = vp
  · rw [here,Function.update_self] at var
    cases var
    rw [Function.update_self] at text
    exact .inl ⟨rfl,(some.inj text).symm⟩
  · rw [Function.update_of_ne here] at var
    rw [Function.update_of_ne (valid.text_low var).ne] at text
    exact .inr ⟨var,same.2.2 _ _ text⟩

theorem Tidy.fits_add (tidy : Tidy st) (fits : Fits flags.unset t.text) (holds : Holds (st.add flags none t) vp v u) :
    Fits v.flags.unset u.text := by
  rcases tidy.valid.add_cases holds with ⟨_,rfl,rfl⟩ | old
  · exact fits
  · exact tidy.fits vp v u old

theorem Tidy.add (tidy : Tidy st) (fits : Fits flags.unset t.text)
    (nowhere : ∀ vp v u, Holds st vp v u → nameOf u.text ≠ nameOf t.text) : Tidy (st.add flags none t) :=
  ⟨tidy.valid.add flags none nowhere (absurd rfl),fun _ _ _ => tidy.fits_add fits⟩

theorem setvareq_tidy (set : flags.noset = false) (calls : flags.nofunc = false) (name : Name)
    (value : Option (List UInt8)) (unset : flags.unset = value.isNone) :
    Runs Tidy (fun _ _ => True) (setvareq ⟨name.word value,[]⟩ flags) := by
  intro st tidy
  obtain ⟨r,next,ran,valid,_,how⟩ := setvareq_cases (s := ⟨name.word value,[]⟩) tidy.valid set calls
    (nameOf_word name value)
  have fits := fits_word name value
  rw [← unset,← allexport_unset st] at fits
  refine ⟨r,next,ran,⟨valid,fun vp v t holds => ?_⟩,trivial⟩
  rcases how with rfl | ⟨_,_,_,_,rfl⟩ | rfl
  · exact tidy.fits vp v t holds
  · rcases store_cases tidy.valid holds with ⟨same,rfl⟩ | old
    · rw [same]
      exact fits
    · exact tidy.fits vp v t old
  · exact tidy.fits_add fits holds

theorem exportcmd_tidy (readonly : Bool) (list : List (Name × Option (List UInt8))) :
    Runs Tidy (fun _ _ => True) (exportcmd (commandFlag readonly) list) := by
  have set (name : Name) (value : Option (List UInt8)) :
      Runs Tidy (fun _ _ => True) (setvar (name.word value) value (commandFlag readonly) []) := by
    rw [setvar_named (nameOf_word name value)]
    exact setvareq_tidy rfl rfl name value rfl
  refine Runs.bind (fun _ _ _ _ _ => trivial) (Runs.forEach (fun _ => trivial) (fun _ _ _ _ _ => trivial) ?_ list)
    fun _ => Runs.pure (fun _ => trivial) 0
  rintro ⟨name,value⟩
  cases value with
  | some p => exact set name (some p)
  | none =>
    intro st tidy
    rcases tidy.valid.found_or_missing name with ⟨vp,v,t,holds,own⟩ | nowhere
    · have changes := remark_changes tidy.valid holds { v.flags with
        exported := v.flags.exported || (commandFlag readonly).exported
        readonly := v.flags.readonly || (commandFlag readonly).readonly } id id
      simp only [run_bind,run_reading,tidy.valid.findvar_found holds own (nameOf_word name none),map_some,holds.1]
      refine ⟨_,_,rfl,⟨tidy.valid.change changes,fun i w u here => ?_⟩,trivial⟩
      rcases changes.var_cases here.1 with ⟨_,rfl⟩ | ⟨_,there⟩
      · exact tidy.fits vp v u ⟨holds.1,here.2⟩
      · exact tidy.fits i w u ⟨there,here.2⟩
    · simp only [run_bind,run_reading,tidy.valid.findvar_missing (nameOf_word name none) nowhere,map_some]
      exact set name none st tidy

theorem listsetvar_tidy (list : List (Name × List UInt8)) : Runs Tidy (fun _ _ => True) (listsetvar list {}) := by
  refine Runs.forEach (fun _ => trivial) (fun _ _ _ _ _ => trivial) (fun lp => ?_) list
  exact setvareq_tidy rfl rfl lp.1 (some lp.2) rfl

theorem initvar_holds (holds : Holds initvar vp v t) :
    (v.flags.unset = true ↔ 61 ∉ t.text) ∧ nameOf t.text ∈ varinit.map (·.1.bytes) := by
  have all : ∀ vp < 8, (initvar.vars vp).all fun v => (initvar.texts v.text).all fun t =>
      (v.flags.unset = true ↔ 61 ∉ t.text) ∧ nameOf t.text ∈ varinit.map (·.1.bytes) := by decide +kernel
  have here := all vp (initvar_valid.lt_nextVar holds.1)
  rwa [holds.1,Option.all_some,holds.2,Option.all_some,decide_eq_true_eq] at here

theorem initvar_tidy : Tidy initvar := by
  refine ⟨initvar_valid,fun vp v t holds => ?_⟩
  obtain ⟨agree,listed⟩ := initvar_holds holds
  obtain ⟨init,_,same⟩ := mem_map.mp listed
  exact ⟨agree,fun _ => ⟨init.1,same.symm⟩⟩

end Stores

/-- The lines are read as commands with the text of a variable each; and executed in a shell without
variables, they make each variable of the list again, with its value or without one. -/
def Restored (st : State) (readonly : Bool) : Prop :=
  let commands := (st.sorted (hasFlag readonly)).map fun t => [commandName readonly,t]
  readCommands none none [] (st.showvars (commandName readonly) (hasFlag readonly)) = some commands ∧
    ∃ next, (execute commands).run emptyShell = some (.ok (),next) ∧
      ∀ vp v t, Holds st vp v t → hasFlag readonly v.flags = true →
        ∃ vq w u, Holds next vq w u ∧ nameOf u.text = nameOf t.text ∧ (w.flags.view u).value = (v.flags.view t).value

theorem view_value {flags flags' : Flags} (same : t.text = u.text) (first : flags.unset = true ↔ 61 ∉ t.text)
    (second : flags'.unset = true ↔ 61 ∉ u.text) :
    (flags.view t).value = (flags'.view u).value := by
  have alike : flags.unset = flags'.unset := Bool.eq_iff_iff.mpr (by rw [first,second,same])
  unfold Flags.view
  rw [alike]
  by_cases unset : flags'.unset
  · simp [unset]
  have equals : 61 ∈ u.text := not_not.mp fun none => unset (second.mpr none)
  simp only [if_neg unset,argument,same]
  split
  · rename_i none
    exact absurd (dropWhile_eq_nil_iff.mp none 61 equals) (by decide)
  · rfl

/-- Every string is quoted as one word with that string as its value; and the variables that
`export` and `readonly` print are restored by what they print, exactly if each of them has a name
that the shell accepts, which the environment need not give them. -/
theorem showvars_restores_iff (st : State) (tidy : Tidy st) (readonly : Bool) :
    ((∀ s, Quoted (singleQuote s) s ∧ readCommands none none [] (singleQuote s) = some [[s]]) ∧
      Restored st readonly) ↔
    ∀ vp v t, Holds st vp v t → hasFlag readonly v.flags = true → ∃ name : Name, nameOf t.text = name.bytes := by
  obtain ⟨valid,fits⟩ := tidy
  let texts := st.sorted (hasFlag readonly)
  have mem {s : List UInt8} : s ∈ texts ↔ _ := (perm_insertionSort _ _).mem_iff.trans valid.mem_listvars
  constructor
  · rintro ⟨_,_,next,ran,_⟩ vp v t holds flag
    by_cases equals : 61 ∈ t.text
    · obtain ⟨s,s',one⟩ := forEach_inv ran _ (mem_map.mpr ⟨t.text,mem.mpr ⟨vp,v,t,holds,flag,rfl⟩,rfl⟩)
      rw [command_word] at one
      obtain ⟨_,_,set,_⟩ := bind_inv one
      unfold exportWord at set
      split at set
      · exact setvar_ok set
      · rename_i none
        exact absurd (dropWhile_eq_nil_iff.mp none 61 equals) (by decide)
    · exact (fits vp v t holds).2 ((fits vp v t holds).1.mpr equals)
  · intro named
    have words : ∀ t ∈ texts, ∃ (name : Name) (value : Option (List UInt8)), t = name.word value := by
      intro s listed
      obtain ⟨vp,v,t,holds,flag,rfl⟩ := mem.mp listed
      obtain ⟨name,own⟩ := named vp v t holds flag
      obtain ⟨rest,shape,rfl | ⟨value,rfl⟩⟩ := named_split own
      · exact ⟨name,none,by rw [shape,append_nil]; rfl⟩
      · exact ⟨name,some value,shape⟩
    have distinct : texts.Pairwise (nameOf · ≠ nameOf ·) :=
      ((perm_insertionSort _ _).pairwise_iff Ne.symm).mpr (valid.listvars_distinct _)
    obtain ⟨next,ran,made⟩ := execute_run readonly empty_valid words distinct
      fun t _ vp v u never => by cases never.1
    refine ⟨fun s => ⟨singleQuote_quoted s,read_singleQuote s⟩,read_lines readonly words,next,ran,?_⟩
    intro vp v t holds flag
    obtain ⟨vq,w,new,unset⟩ := made.2.2 t.text (mem.mpr ⟨vp,v,t,holds,flag,rfl⟩)
    exact ⟨vq,w,_,new,rfl,view_value rfl unset (fits vp v t holds).1⟩

/-- A value with a quote, and a variable that is exported before it has one. -/
def twoExports : List (Name × Option (List UInt8)) :=
  [(⟨text "HOME",by decide⟩,some (text "it's")),(⟨text "TERM",by decide⟩,none)]

theorem showvars_restores_two : ∃ r st, (exportcmd (commandFlag false) twoExports).run initvar = some (r,st) ∧
    Tidy st ∧ st.showvars (commandName false) (hasFlag false) = text "export HOME='it'\"'\"'s'\nexport TERM\n" ∧
    Restored st false := by
  let result := ((exportcmd (commandFlag false) twoExports).run initvar).get (by decide +kernel)
  have tidy : Tidy result.2 := by
    obtain ⟨r,next,ran,tidy,_⟩ := exportcmd_tidy false twoExports initvar initvar_tidy
    rwa [show result = (r,next) from Option.get_of_eq_some _ ran]
  have all : ∀ vp < 10, (result.2.vars vp).all fun v => (result.2.texts v.text).all fun t =>
      hasFlag false v.flags → nameOf t.text ∈ [text "HOME",text "TERM"] := by decide +kernel
  refine ⟨_,_,(some_get (by decide +kernel)).symm,tidy,by decide +kernel,
    ((showvars_restores_iff _ tidy false).mpr ?_).2⟩
  intro vp v t holds flag
  have here := all vp (tidy.valid.lt_nextVar holds.1)
  rw [holds.1,Option.all_some,holds.2,Option.all_some,decide_eq_true_eq] at here
  rcases mem_pair.mp (here flag) with own | own
  · exact ⟨⟨_,by decide⟩,own⟩
  · exact ⟨⟨_,by decide⟩,own⟩

/-- A variable `A.B` of the environment is printed as a command that fails. -/
theorem export_bad_name : ∃ st, (importEnviron [text "A.B=1"]).run initvar = some (.ok (),st) ∧ Tidy st ∧
    st.showvars (commandName false) (hasFlag false) = text "export A.B='1'\n" ∧
    (execute [[text "export",text "A.B=1"]]).run emptyShell =
      some (.error (text "A.B: bad variable name"),emptyShell) ∧ ¬ Restored st false := by
  have printed : (initvar.add { exported := true, textfixed := true } none ⟨text "A.B=1",[]⟩).showvars
      (commandName false) (hasFlag false) = text "export A.B='1'\n" := by
    decide +kernel
  have tidy : Tidy (initvar.add { exported := true, textfixed := true } none ⟨text "A.B=1",[]⟩) :=
    initvar_tidy.add ⟨by decide,nofun⟩ fun vp v u holds same => by
      have listed := (initvar_holds holds).2
      rw [same] at listed
      exact absurd listed (by decide)
  refine ⟨_,rfl,tidy,printed,rfl,fun restored => ?_⟩
  obtain ⟨next,ran,_⟩ := restored.2
  cases ran

end Stablebox.Ash.Variables
