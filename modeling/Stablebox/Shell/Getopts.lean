import Mathlib.Data.List.Basic

/-! `getopts` of ash.c: one option of an argument list for each call, with the place in the list
kept between the calls. `OPTARG`, `OPTIND` and the variable that is set are not read-only. -/
namespace Stablebox.Ash.Getopts

open List

def colon : UInt8 := 58
def minus : UInt8 := 45
def question : UInt8 := 63

/-- The argument `optnext` points to, and the place in the one before it while a cluster is not
finished. -/
structure Position where
  next : Nat
  optoff : Option Nat
  deriving DecidableEq

def Position.optind (pos : Position) : Nat := pos.next + 1

inductive Optarg where
  | set (value : List UInt8)
  | unset
  | kept
  deriving DecidableEq

/-- What a call returns, the letter it puts into the variable, and what it writes to stderr. -/
structure Report where
  done : Bool
  var : UInt8
  optarg : Optarg
  message : Option (String × UInt8)
  deriving DecidableEq

def find (c : UInt8) : List UInt8 → Option (List UInt8)
  | [] => none
  | q :: rest =>
    if q = c then some rest
    else
      match rest with
      | [] => none
      | d :: more => if d = colon then find c more else find c (d :: more)

section Source

variable (optstr : List UInt8) (args : List (List UInt8))

def current (pos : Position) : List UInt8 :=
  match pos.optoff with
  | none => []
  | some off =>
    let word := args.getD (pos.next - 1) []
    if pos.next = 0 ∨ word.length < off then [] else word.drop off

/-- The position with `p` at the end of the word before `next`. -/
def inside (p : List UInt8) (next : Nat) : Position := ⟨next,some ((args.getD (next - 1) []).length - p.length)⟩

def unknown (c : UInt8) : Report :=
  if optstr.head? = some colon then ⟨false,question,.set [c],none⟩
  else ⟨false,question,.unset,some ("Illegal option -%c\n",c)⟩

def noArg (c : UInt8) : Report :=
  if optstr.head? = some colon then ⟨false,colon,.set [c],none⟩
  else ⟨false,question,.unset,some ("No arg for -%c option\n",c)⟩

def option (c : UInt8) (p : List UInt8) (next : Nat) : Report × Position :=
  match find c optstr with
  | none => (unknown optstr c,inside args p next)
  | some q =>
    if q.head? = some colon then
      if p ≠ [] then (⟨false,c,.set p,none⟩,⟨next,none⟩)
      else
        match args[next]? with
        | none => (noArg optstr c,⟨next,none⟩)
        | some word => (⟨false,c,.set word,none⟩,⟨next + 1,none⟩)
    else (⟨false,c,.set [],none⟩,inside args p next)

def atend (next : Nat) : Report × Position := (⟨true,question,.kept,none⟩,⟨next,none⟩)

def getopts (pos : Position) : Report × Position :=
  match current args pos with
  | c :: p => option optstr args c p pos.next
  | [] =>
    match args[pos.next]? with
    | some (sign :: c :: p) =>
      if sign ≠ minus then atend pos.next
      else if c = minus ∧ p = [] then atend (pos.next + 1)
      else option optstr args c p (pos.next + 1)
    | _ => atend pos.next

def getoptscmd (pos : Position) : Report × Position :=
  getopts optstr args (if pos.optind > args.length + 1 then ⟨0,none⟩ else pos)

def calls : (fuel : Nat) → Position → Option (List Report × Position)
  | 0,_ => none
  | fuel + 1,pos =>
    let (report,pos) := getoptscmd optstr args pos
    if report.done then some ([report],pos)
    else (calls fuel pos).map fun (reports,last) => (report :: reports,last)

end Source

/-! ### The option syntax -/

/-- The letters, with those that take an argument, and whether errors are left to the caller. -/
structure OptionString where
  silent : Bool
  letters : List (UInt8 × Bool)
  plain : ∀ letter ∈ letters, letter.1 ≠ colon

def lettersText (letters : List (UInt8 × Bool)) : List UInt8 :=
  letters.flatMap fun letter => letter.1 :: if letter.2 then [colon] else []

def OptionString.text (options : OptionString) : List UInt8 :=
  (if options.silent then [colon] else []) ++ lettersText options.letters

def taken (letters : List (UInt8 × Bool)) (c : UInt8) : Option Bool := (letters.find? (·.1 = c)).map (·.2)

inductive Event where
  | option (c : UInt8) (argument : Option (List UInt8))
  | unknown (c : UInt8)
  | missing (c : UInt8)
  deriving DecidableEq

/-- The options of a cluster, and the last one if its argument is not in the same word. -/
def cluster (takes : UInt8 → Option Bool) : List UInt8 → List Event × Option UInt8
  | [] => ([],none)
  | c :: p =>
    match takes c with
    | none => (.unknown c :: (cluster takes p).1,(cluster takes p).2)
    | some false => (.option c none :: (cluster takes p).1,(cluster takes p).2)
    | some true => if p = [] then ([],some c) else ([.option c (some p)],none)

/-- The options of an argument list, and the arguments that are none. -/
def parse (takes : UInt8 → Option Bool) : List (List UInt8) → List Event × List (List UInt8)
  | (sign :: c :: p) :: args =>
    if sign ≠ minus then ([],(sign :: c :: p) :: args)
    else if c = minus ∧ p = [] then ([],args)
    else
      match (cluster takes (c :: p)).2, args with
      | none,args => ((cluster takes (c :: p)).1 ++ (parse takes args).1,(parse takes args).2)
      | some last,[] => ((cluster takes (c :: p)).1 ++ [.missing last],[])
      | some last,argument :: args =>
        ((cluster takes (c :: p)).1 ++ .option last (some argument) :: (parse takes args).1,(parse takes args).2)
  | args => ([],args)

def OptionString.report (options : OptionString) : Event → Report
  | .option c argument => ⟨false,c,.set (argument.getD []),none⟩
  | .unknown c => unknown options.text c
  | .missing c => noArg options.text c

/-- The letters as the scan finds them: it stops at a colon in front of them, too. -/
def OptionString.accepts (options : OptionString) (c : UInt8) : Option Bool :=
  if options.silent ∧ c = colon then some false else taken options.letters c

/-! ### The scan of the option string -/

theorem letters_head (plain : ∀ letter ∈ letters, letter.1 ≠ colon) :
    (lettersText letters).head? ≠ some colon := by
  cases letters with
  | nil => simp [lettersText]
  | cons letter letters => simpa [lettersText] using plain letter (mem_cons_self ..)

theorem find_here (c : UInt8) (rest : List UInt8) : find c (c :: rest) = some rest := by
  cases rest <;> simp [find]

theorem find_next (other : q ≠ c) (head : rest.head? ≠ some colon) :
    find c (q :: rest) = find c rest := by
  cases rest with
  | nil => simp [find,other]
  | cons d more =>
    rw [find,if_neg other]
    exact if_neg (by simpa using head)

theorem find_letters (plain : ∀ letter ∈ letters, letter.1 ≠ colon) (c : UInt8) :
    (find c (lettersText letters)).map (fun q => decide (q.head? = some colon)) = taken letters c := by
  induction letters with
  | nil => rfl
  | cons letter letters ih =>
    obtain ⟨d,argument⟩ := letter
    have others := (forall_mem_cons.mp plain).2
    have head := letters_head others
    have shape : lettersText ((d,argument) :: letters) =
        d :: ((if argument then [colon] else []) ++ lettersText letters) := by simp [lettersText]
    rw [shape,taken]
    by_cases same : d = c
    · rw [← same,find_here,find?_cons_of_pos (by simp)]
      cases argument
      · simpa using head
      · simp
    · rw [find?_cons_of_neg (by simpa using same),← taken,← ih others]
      cases argument
      · rw [if_neg (by simp),nil_append,find_next same head]
      · simp [find,same]

theorem find_text (options : OptionString) (c : UInt8) :
    (find c options.text).map (fun q => decide (q.head? = some colon)) = options.accepts c := by
  have head := letters_head options.plain
  unfold OptionString.text OptionString.accepts
  cases options.silent with
  | false => simpa using find_letters options.plain c
  | true =>
    by_cases same : c = colon
    · simp [same,find_here,head]
    simp only [same,if_true,and_false,if_false,singleton_append]
    rw [find_next (Ne.symm same) head]
    exact find_letters options.plain c

/-! ### One call and the rest -/

section Runs

variable {options : OptionString} {args : List (List UInt8)}

def Runs (options : OptionString) (args : List (List UInt8)) (pos : Position) (reports : List Report)
    (last : Position) :
    Prop := ∃ fuel, calls options.text args fuel pos = some (reports,last)

structure At (args : List (List UInt8)) (p : List UInt8) (next : Nat) (pos : Position) : Prop where
  place : pos.next = next
  bound : next ≤ args.length
  text : current args pos = p

variable {next : Nat}

theorem At.done (bound : next ≤ args.length) : At args [] next ⟨next,none⟩ := ⟨rfl,bound,rfl⟩

theorem At.inside (positive : 0 < next) (bound : next ≤ args.length) (suffix : p <:+ args.getD (next - 1) []) :
    At args p next (inside args p next) := by
  have within : ¬ (next = 0 ∨ (args.getD (next - 1) []).length <
      (args.getD (next - 1) []).length - p.length) := by omega
  exact ⟨rfl,bound,(if_neg within).trans (suffix_iff_eq_drop.mp suffix).symm⟩

theorem Runs.more {pos next last : Position} (bound : pos.next ≤ args.length)
    (call : getopts options.text args pos = (report,next)) (again : report.done = false)
    (rest : Runs options args next reports last) : Runs options args pos (report :: reports) last := by
  obtain ⟨fuel,rest⟩ := rest
  refine ⟨fuel + 1,?_⟩
  rw [calls,getoptscmd,if_neg (by rw [Position.optind]; omega),call]
  simp [again,rest]

theorem Runs.ends (bound : pos.next ≤ args.length) (call : getopts options.text args pos = (report,last))
    (done : report.done = true) :
    Runs options args pos [report] last := by
  refine ⟨1,?_⟩
  rw [calls,getoptscmd,if_neg (by rw [Position.optind]; omega),call]
  simp [done]

theorem unknown_again (c : UInt8) : (unknown options.text c).done = false := by
  unfold unknown
  split <;> rfl

theorem noArg_again (c : UInt8) : (noArg options.text c).done = false := by
  unfold noArg
  split <;> rfl

theorem option_eq (c : UInt8) (p : List UInt8) (next : Nat) : option options.text args c p next =
    match options.accepts c with
    | none => (unknown options.text c,inside args p next)
    | some false => (⟨false,c,.set [],none⟩,inside args p next)
    | some true =>
      if p ≠ [] then (⟨false,c,.set p,none⟩,⟨next,none⟩)
      else
        match args[next]? with
        | none => (noArg options.text c,⟨next,none⟩)
        | some word => (⟨false,c,.set word,none⟩,⟨next + 1,none⟩) := by
  rw [option,← find_text options c]
  cases find c options.text with
  | none => rfl
  | some q => by_cases argument : q.head? = some colon <;> simp [argument]

theorem getopts_at (here : At args (c :: p) next pos) :
    getopts options.text args pos = option options.text args c p next := by
  rw [getopts,here.text,here.place]

/-- A cluster is reported up to its end, or up to an option that wants the next argument. -/
theorem cluster_runs (here : At args p next pos) (positive : 0 < next) (suffix : p <:+ args.getD (next - 1) [])
    (rest : ∀ pos, At args (cluster options.accepts p).2.toList next pos → Runs options args pos reports last) :
    Runs options args pos ((cluster options.accepts p).1.map options.report ++ reports) last := by
  induction p generalizing pos with
  | nil => exact rest pos here
  | cons c p ih =>
    have bound : pos.next ≤ args.length := here.place ▸ here.bound
    have call : getopts options.text args pos = _ := getopts_at here
    have behind : p <:+ args.getD (next - 1) [] := (suffix_cons c p).trans suffix
    have inner := At.inside positive here.bound behind
    rw [option_eq] at call
    rw [cluster] at rest ⊢
    cases accepts : options.accepts c with
    | none =>
      rw [accepts] at call
      simp only [accepts] at rest
      exact .more bound call (unknown_again c) (ih inner behind rest)
    | some argument =>
      rw [accepts] at call
      simp only [accepts] at rest
      cases argument with
      | false => exact .more bound call rfl (ih inner behind rest)
      | true =>
        by_cases alone : p = []
        · subst alone
          exact rest pos here
        · simp only [alone,if_false] at rest ⊢
          rw [if_pos alone] at call
          exact .more bound call rfl (rest _ (.done here.bound))

theorem cluster_takes (wants : (cluster takes p).2 = some c) :
    takes c = some true := by
  induction p with
  | nil => cases wants
  | cons d p ih =>
    rw [cluster] at wants
    split at wants
    · exact ih wants
    · exact ih wants
    rename_i takesIt
    split at wants
    · cases wants
      exact takesIt
    · cases wants

theorem word_runs (here : At args [] next pos) (word : args[next]? = some (sign :: c :: p)) (dash : ¬ sign ≠ minus)
    (more : ¬ (c = minus ∧ p = []))
    (rest : ∀ pos, At args (cluster options.accepts (c :: p)).2.toList (next + 1) pos →
      Runs options args pos reports last) :
    Runs options args pos ((cluster options.accepts (c :: p)).1.map options.report ++ reports) last := by
  have bound : next < args.length := (List.getElem?_eq_some_iff.mp word).1
  have suffix : c :: p <:+ args.getD (next + 1 - 1) [] := by
    rw [Nat.add_sub_cancel,getD_eq_getElem?_getD,word]
    exact suffix_cons sign _
  have inner : At args (c :: p) (next + 1) (inside args (c :: p) (next + 1)) := .inside (Nat.succ_pos _) bound suffix
  have same : getopts options.text args pos = getopts options.text args (inside args (c :: p) (next + 1)) := by
    rw [getopts_at inner,getopts,here.text,here.place]
    simp only [word]
    rw [if_neg dash,if_neg more]
  obtain ⟨fuel,runs⟩ := cluster_runs inner (Nat.succ_pos _) suffix rest
  refine ⟨fuel,?_⟩
  cases fuel with
  | zero => cases runs
  | succ fuel =>
    rw [calls,getoptscmd,if_neg (by rw [Position.optind,inner.place]; omega)] at runs
    rwa [calls,getoptscmd,if_neg (by rw [Position.optind,here.place]; omega),same]

theorem last_runs (here : At args [c] next pos) (takes : options.accepts c = some true) :
    getopts options.text args pos =
      match args[next]? with
      | none => (noArg options.text c,⟨next,none⟩)
      | some word => (⟨false,c,.set word,none⟩,⟨next + 1,none⟩) := by
  rw [getopts_at here,option_eq,takes]
  rfl

theorem getElem?_behind (shape : before ++ rest = args) (i : Nat) :
    args[before.length + i]? = rest[i]? := by
  rw [← shape,getElem?_append_right (by omega),Nat.add_sub_cancel_left]

theorem length_behind (shape : before ++ rest = args) :
    args.length = before.length + rest.length := by
  rw [← shape,length_append]

theorem At.next_le (here : At args rest next pos) : pos.next ≤ args.length :=
  here.place ▸ here.bound

theorem getopts_stop (shape : before ++ rest = args) (here : At args [] before.length pos)
    (other : ∀ c p args, rest ≠ (minus :: c :: p) :: args) :
    getopts options.text args pos = atend before.length := by
  rw [getopts,here.text,here.place]
  have word := getElem?_behind shape 0
  rw [Nat.add_zero] at word
  simp only [word]
  split
  · rename_i sign c p first
    refine if_pos fun dash => ?_
    obtain ⟨args,rfl⟩ : ∃ args, rest = (sign :: c :: p) :: args := head?_eq_some_iff.mp (head?_eq_getElem?.trans first)
    exact other c p args (by rw [dash])
  · rfl

def lastReport : Report := ⟨true,question,.kept,none⟩

theorem parse_runs (rest before : List (List UInt8)) (shape : before ++ rest = args) {pos : Position}
    (here : At args [] before.length pos) :
    Runs options args pos ((parse options.accepts rest).1.map options.report ++ [lastReport])
      ⟨args.length - (parse options.accepts rest).2.length,none⟩ := by
  fun_induction parse options.accepts rest generalizing before pos with
  | case1 sign c p rest other =>
    rw [length_behind shape,Nat.add_sub_cancel]
    refine .ends here.next_le (getopts_stop shape here fun d q args same => ?_) rfl
    cases same
    exact other rfl
  | case2 sign c p rest dash double =>
    have word := getElem?_behind shape 0
    have call : getopts options.text args pos = atend (before.length + 1) := by
      rw [getopts,here.text,here.place]
      simp only [Nat.add_zero] at word
      simp only [word,getElem?_cons_zero]
      rw [if_neg dash,if_pos double]
    rw [length_behind shape,length_cons,← Nat.add_assoc,Nat.add_right_comm,Nat.add_sub_cancel]
    exact .ends here.next_le call rfl
  | case3 sign c p dash more rest ends ih =>
    rw [map_append,append_assoc]
    refine word_runs here (getElem?_behind shape 0) dash more fun pos there => ?_
    rw [ends] at there
    exact ih (before ++ [sign :: c :: p]) (by simpa using shape) (by simpa using there)
  | case4 sign c p dash more last ends =>
    rw [map_append,append_assoc]
    refine word_runs here (getElem?_behind shape 0) dash more fun pos there => ?_
    rw [ends] at there
    have call := last_runs there (cluster_takes ends)
    rw [getElem?_behind shape 1] at call
    have done : At args [] (before ++ [sign :: c :: p]).length ⟨before.length + 1,none⟩ := by
      simpa using At.done there.bound
    have stop : getopts options.text args ⟨before.length + 1,none⟩ = atend (before.length + 1) := by
      simpa using getopts_stop ((append_nil _).trans shape) done (by simp)
    refine .more there.next_le call (noArg_again last) ?_
    rw [length_behind shape]
    exact .ends there.bound stop rfl
  | case5 sign c p dash more last argument rest ends ih =>
    rw [map_append,append_assoc]
    refine word_runs here (getElem?_behind shape 0) dash more fun pos there => ?_
    rw [ends] at there
    have call := last_runs there (cluster_takes ends)
    rw [getElem?_behind shape 1] at call
    have room : before.length + 2 ≤ args.length := by simp [length_behind shape]
    refine .more there.next_le call rfl ?_
    exact ih (before ++ [sign :: c :: p,argument]) (by simpa using shape) (by simpa using At.done room)
  | case6 rest other =>
    rw [length_behind shape,Nat.add_sub_cancel]
    exact .ends here.next_le (getopts_stop shape here fun c p args => other minus c p args) rfl

theorem calls_unique (left : calls optstr args first pos = some a) (right : calls optstr args second pos = some b) :
    a = b := by
  induction first generalizing second pos a b with
  | zero => cases left
  | succ first ih =>
    cases second with
    | zero => cases right
    | succ second =>
      simp only [calls] at left right
      by_cases done : (getoptscmd optstr args pos).1.done
      · rw [if_pos done] at left right
        exact Option.mem_unique left right
      · rw [if_neg done] at left right
        obtain ⟨rest,first,rfl⟩ := Option.map_eq_some_iff.mp left
        obtain ⟨other,second,rfl⟩ := Option.map_eq_some_iff.mp right
        rw [ih first second]

end Runs

/-! ### The colon in front -/

def OptionString.found (options : OptionString) : Event → Event
  | .unknown c => if options.silent ∧ c = colon then .option c none else .unknown c
  | event => event

theorem taken_colon (options : OptionString) : taken options.letters colon = none := by
  have none : options.letters.find? (·.1 = colon) = none :=
    find?_eq_none.mpr fun letter listed => by simpa using options.plain letter listed
  rw [taken,none]
  rfl

theorem cluster_found (options : OptionString) (p : List UInt8) : cluster options.accepts p =
    ((cluster (taken options.letters) p).1.map options.found,(cluster (taken options.letters) p).2) := by
  induction p with
  | nil => rfl
  | cons c p ih =>
    rw [cluster,cluster,ih,OptionString.accepts]
    by_cases leading : options.silent ∧ c = colon
    · rw [if_pos leading,leading.2,taken_colon]
      simp [OptionString.found,leading.1]
    · rw [if_neg leading]
      cases taken options.letters c with
      | none => simp [OptionString.found,leading]
      | some argument => cases argument <;> by_cases alone : p = [] <;> simp [OptionString.found,alone]

theorem parse_found (options : OptionString) (args : List (List UInt8)) : parse options.accepts args =
    ((parse (taken options.letters) args).1.map options.found,(parse (taken options.letters) args).2) := by
  fun_induction parse (taken options.letters) args with
  | case1 sign c p args other => rw [parse.eq_def]; exact if_pos other
  | case2 sign c p args dash double => rw [parse.eq_def]; exact (if_neg dash).trans (if_pos double)
  | case3 sign c p dash more args ends ih =>
    have ends' : (cluster options.accepts (c :: p)).2 = none := by rw [cluster_found,ends]
    rw [parse.eq_def]
    simp only [dash,more,ends',if_false]
    rw [ih,cluster_found,map_append]
  | case4 sign c p dash more last ends =>
    have ends' : (cluster options.accepts (c :: p)).2 = some last := by rw [cluster_found,ends]
    rw [parse.eq_def]
    simp only [dash,more,ends',if_false]
    rw [cluster_found,map_append]
    rfl
  | case5 sign c p dash more last argument args ends ih =>
    have ends' : (cluster options.accepts (c :: p)).2 = some last := by rw [cluster_found,ends]
    rw [parse.eq_def]
    simp only [dash,more,ends',if_false]
    rw [ih,cluster_found,map_append]
    rfl
  | case6 args other =>
    rw [parse.eq_def]
    split
    · rename_i sign c p args
      exact absurd rfl (other sign c p args)
    · rfl

theorem report_found_iff (options : OptionString) (event : Event) :
    options.report (options.found event) = options.report event ↔
      ¬ (options.silent = true ∧ event = .unknown colon) := by
  cases event with
  | option c argument => simp [OptionString.found]
  | missing c => simp [OptionString.found]
  | unknown c =>
    by_cases leading : options.silent ∧ c = colon
    · obtain ⟨silent,rfl⟩ := leading
      have told : options.report (.unknown colon) = ⟨false,question,.set [colon],none⟩ :=
        if_pos (by simp [OptionString.text,silent])
      rw [told]
      simp [OptionString.found,silent,OptionString.report,colon,question]
    · simp [OptionString.found,leading]

/-- Calls of `getopts` until one returns 1 tell the options, their arguments and the errors, and leave
`OPTIND` at the first argument that is no option, unless a `:` in front of the option string meets a `:`
as an option. -/
theorem getopts_reports_iff (options : OptionString) (args : List (List UInt8)) :
    (∃ fuel, calls options.text args fuel ⟨0,none⟩ =
      some ((parse (taken options.letters) args).1.map options.report ++ [lastReport],
        ⟨args.length - (parse (taken options.letters) args).2.length,none⟩)) ↔
      ¬ (options.silent = true ∧ .unknown colon ∈ (parse (taken options.letters) args).1) := by
  obtain ⟨fuel,runs⟩ : Runs options args _ _ _ := parse_runs args [] rfl (.done (Nat.zero_le args.length))
  rw [parse_found,map_map] at runs
  have same : (∃ fuel, calls options.text args fuel ⟨0,none⟩ =
      some ((parse (taken options.letters) args).1.map options.report ++ [lastReport],
        ⟨args.length - (parse (taken options.letters) args).2.length,none⟩)) ↔
      ∀ event ∈ (parse (taken options.letters) args).1, options.report (options.found event) =
        options.report event := by
    refine ⟨fun ⟨other,wanted⟩ => ?_,fun told => ⟨fuel,runs.trans ?_⟩⟩
    · have reports := congrArg Prod.fst (calls_unique runs wanted)
      exact map_inj_left.mp (append_cancel_right reports)
    · rw [(map_inj_left (f := options.report ∘ options.found)).mpr told]
      rfl
  rw [same]
  simp only [report_found_iff]
  exact ⟨fun none ⟨silent,listed⟩ => none _ listed ⟨silent,rfl⟩,
    fun none event listed ⟨silent,colon⟩ => none ⟨silent,colon ▸ listed⟩⟩

/-- `getopts :a v -:` sets `v` to `:`. -/
theorem getopts_colon_accepted :
    let options : OptionString := ⟨true,[(97,false)],by simp [colon]⟩
    (parse (taken options.letters) [[minus,colon]]).1 = [.unknown colon] ∧
      getoptscmd options.text [[minus,colon]] ⟨0,none⟩ = (⟨false,colon,.set [],none⟩,⟨1,some 2⟩) ∧
      unknown options.text colon = ⟨false,question,.set [colon],none⟩ := by
  decide

end Stablebox.Ash.Getopts
