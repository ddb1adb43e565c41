import Mathlib.Data.List.Destutter
import Stablebox.Lib.Comparison
import Stablebox.Lib.Digits

/-! `sort` (coreutils/sort.c): the keys of a line, their comparison and what is done with it, with and without
FEATURE_SORT_BIG. -/
namespace Stablebox.Sort

open Comparison List
open Digits (isSpace strtol)

abbrev Line := List UInt8

def flagN := 1
def flagU := 8
def flagC := 16
def flagS := 32
def flagB := 128
def flagR := 256
def flagD := 512
def flagF := 1024
def flagI := 2048
def flagBB := 32768

def has (flags flag : Nat) : Bool := flags &&& flag != 0

structure SortKey where
  startWord : Nat
  startChar : Nat
  endWord : Nat
  endChar : Nat
  flags : Nat
  deriving DecidableEq, Repr

structure Options where
  big : Bool
  globalFlags : Nat
  keySeparator : UInt8
  keyList : List SortKey
  deriving DecidableEq, Repr

def isAlnum (c : UInt8) : Bool := (48 ≤ c && c ≤ 57) || (65 ≤ c && c ≤ 90) || (97 ≤ c && c ≤ 122)

def isPrint (c : UInt8) : Bool := 32 ≤ c && c ≤ 126

def toUpper (c : UInt8) : UInt8 := if 97 ≤ c && c ≤ 122 then c - 32 else c

def skipField (separator : UInt8) (str : Line) (pos : Nat) : Nat :=
  let pos := if separator = 0 then pos + ((str.drop pos).takeWhile isSpace).length else pos
  pos + ((str.drop pos).takeWhile fun c => if separator ≠ 0 then c != separator else !isSpace c).length

/-- The two passes of the loop: `j` is 0 for the start of the key and 1 for its end. -/
def fieldBound (separator : UInt8) (str : Line) (word j : Nat) : Nat :=
  if word = 0 then str.length else (skipField separator str)^[word + j - 1] 0

def SortKey.whole (key : SortKey) : Prop :=
  key.startWord = 1 ∧ key.startChar = 0 ∧ key.endWord = 0 ∧ key.endChar = 0

instance (key : SortKey) : Decidable key.whole := inferInstanceAs (Decidable (_ ∧ _))

def getKey (separator : UInt8) (str : Line) (key : SortKey) (flags : Nat) : Line :=
  if key.whole ∧ ¬has flags (flagB &&& flagD &&& flagF &&& flagI &&& flagBB) then str
  else
    let start := fieldBound separator str key.startWord 0
    let fin := fieldBound separator str key.endWord 1
    let start := if separator ≠ 0 ∧ str[start]? = some separator then start + 1 else start
    let start := if has flags flagB then start + ((str.drop start).takeWhile isSpace).length else start
    let fin := if has flags flagBB then fin - (((str.take fin).drop start).reverse.takeWhile isSpace).length else fin
    let fin := if key.endChar ≠ 0 then min (fin + (key.endChar - 1)) str.length else fin
    let start := if key.startChar ≠ 0 then min (start + (key.startChar - 1)) str.length else start
    let str := (str.take fin).drop start
    let str := if has flags flagD then str.filter fun c => isSpace c || isAlnum c else str
    let str := if has flags flagI then str.filter isPrint else str
    -- `flags*FLAG_f`
    if flags * flagF ≠ 0 then str.map toUpper else str

def strcmp (x y : Line) : Int :=
  match compare x y with
  | .lt => -1
  | .eq => 0
  | .gt => 1

def int (value : Int) : Int := value.bmod (2 ^ 32)

def atoi (x : Line) : Int := int (strtol 10 x)

/-- `-g`, `-M` and the `-n` of the large build, and the sort types at which the program ends. -/
abbrev Other := Nat → Line → Line → Int

def compareChunks (other : Other) (big : Bool) (flags : Nat) (x y : Line) : Int :=
  match flags &&& 7 with
  | 0 => strcmp x y
  | 1 => if big then other 1 x y else int (atoi x - atoi y)
  | kind => other kind x y

namespace Options

def keys (o : Options) : List SortKey := if o.keyList = [] then [⟨1,0,0,0,0⟩] else o.keyList

def flagsOf (o : Options) (key : SortKey) : Nat := if key.flags ≠ 0 then key.flags else o.globalFlags

def settle (o : Options) (x y : Line) (flags : Nat) (retval : Int) : Int :=
  let retval := if retval = 0 ∧ ¬has o.globalFlags flagS then strcmp x y else retval
  if has flags flagR then int (-retval) else retval

/-- The loop of `compare_keys`; the flags are those of the last key looked at. -/
def keyLoop (o : Options) (other : Other) (x y : Line) : List SortKey → Nat → Int
  | [],flags => o.settle x y flags 0
  | key :: rest,_ =>
    let flags := o.flagsOf key
    let retval := compareChunks other true flags (getKey o.keySeparator x key flags) (getKey o.keySeparator y key flags)
    if retval ≠ 0 then o.settle x y flags retval else keyLoop o other x y rest flags

def compareKeys (o : Options) (other : Other) (x y : Line) : Int :=
  if o.big then o.keyLoop other x y o.keys o.globalFlags
  else o.settle x y o.globalFlags (compareChunks other false o.globalFlags x y)

end Options

/-- The loop of `-u`: a line is kept if the last one kept is not the same. -/
def unique (compares : Line → Line → Int) (lines : List Line) : List Line :=
  lines.destutter fun x y => compares x y ≠ 0

/-- The loop of `-c`: the number of the line it complains of. -/
def disorder (compares : Line → Line → Int) (j : Int) : Nat → List Line → Option Nat
  | i,x :: y :: rest => if j < compares x y then some i else disorder compares j (i + 1) (y :: rest)
  | _,_ => none

structure Outcome where
  status : Nat
  output : List Line
  complaint : Option Nat
  deriving DecidableEq, Repr

/-- `sort_main` on the lines it has read; `left` is the array as `qsort` leaves it. -/
def sortMain (o : Options) (other : Other) (lines left : List Line) : Outcome :=
  let compares := o.compareKeys other
  if o.big ∧ has o.globalFlags flagC then
    match disorder compares (if has o.globalFlags flagU then -1 else 0) 1 lines with
    | some i => ⟨1,[],some i⟩
    | none => ⟨0,[],none⟩
  else ⟨0,if has o.globalFlags flagU then unique compares left else left,none⟩

/-! ### What it is for -/

/-- String comparison, or `-n` in the small build; `-c` is for the run that checks. -/
def Options.Covered (o : Options) : Prop :=
  has o.globalFlags flagC = false ∧
    if o.big then ∀ key ∈ o.keys, o.flagsOf key &&& 7 = 0 else o.globalFlags &&& 7 = 0 ∨ o.globalFlags &&& 7 = flagN

def Options.checking (o : Options) : Options := { o with globalFlags := o.globalFlags ||| flagC }

def Arranges (compares : Line → Line → Int) (once : Bool) (lines output : List Line) : Prop :=
  if once then
    output.Subperm lines ∧ (output.Pairwise fun x y => compares x y < 0) ∧
      ∀ x ∈ lines, ∃ y ∈ output, compares y x = 0
  else output.Perm lines ∧ output.Pairwise fun x y => compares x y ≤ 0

/-- The comparison is an order, and `sort -c` accepts what `sort` puts out. -/
def Sound (o : Options) (other : Other) : Prop :=
  Orders (o.compareKeys other) ∧
    ∀ lines left, Qsort (o.compareKeys other) lines left →
      Arranges (o.compareKeys other) (has o.globalFlags flagU) lines (sortMain o other lines left).output ∧
        ∀ again, (sortMain o.checking other (sortMain o other lines left).output again).status = 0

/-- No `-n` in the small build; in the large one, no key but the whole line is compared without any flag. -/
def Options.Safe (o : Options) : Prop :=
  if o.big then ∀ key ∈ o.keys, o.flagsOf key ≠ 0 ∨ key.whole else o.globalFlags &&& 7 = 0

instance (o : Options) : Decidable o.Covered := inferInstanceAs (Decidable (_ ∧ _))

instance (o : Options) : Decidable o.Safe := inferInstanceAs (Decidable (ite _ _ _))

/-! ### The comparison -/

theorem strcmp_orders : Orders strcmp := by
  have value : ∀ x y, strcmp x y ≤ 0 ↔ (compare x y).isLE := by
    intro x y
    simp only [strcmp]
    cases compare x y <;> simp
  refine ⟨fun x y => ?_,fun x y z first next => ?_⟩
  · simp only [strcmp,Std.OrientedOrd.eq_swap (a := x)]
    cases compare y x <;> simp
  · rw [value] at *
    exact Std.TransOrd.isLE_trans first next

theorem int_strcmp (x y : Line) : int (-strcmp x y) = -strcmp x y := by
  simp only [strcmp]
  cases compare x y <;> rfl

variable {o : Options} {other : Other}

def turned (flags : Nat) (retval : Int) : Int := if has flags flagR then -retval else retval

theorem turned_orders (orders : Orders compares) (flags : Nat) :
    Orders fun x y => turned flags (compares x y) := by
  cases reverse : has flags flagR
  · simpa [turned,reverse] using orders
  · simpa [turned,reverse] using orders.neg

theorem turned_eq_zero_iff (flags : Nat) (retval : Int) : turned flags retval = 0 ↔ retval = 0 := by
  unfold turned
  split <;> omega

theorem settle_zero_orders (o : Options) (flags : Nat) : Orders fun x y => o.settle x y flags 0 := by
  have fallback : ∀ x y, o.settle x y flags 0 = turned flags (if has o.globalFlags flagS then 0 else strcmp x y) := by
    intro x y
    cases stable : has o.globalFlags flagS
    · simp [Options.settle,turned,stable,int_strcmp]
    · simp [Options.settle,turned,stable,int]
  simp only [fallback]
  cases has o.globalFlags flagS
  · exact turned_orders strcmp_orders flags
  · exact turned_orders Orders.zero flags

/-- The keys that are left, each with the sense of its own flags, then the whole line with those of the last one. -/
theorem keyLoop_orders (other : Other) {keys : List SortKey} (strings : ∀ key ∈ keys, o.flagsOf key &&& 7 = 0)
    (flags : Nat) :
    Orders fun x y => o.keyLoop other x y keys flags := by
  induction keys generalizing flags with
  | nil => exact settle_zero_orders o flags
  | cons key rest ih =>
    have first := turned_orders (strcmp_orders.comap (getKey o.keySeparator · key (o.flagsOf key))) (o.flagsOf key)
    have next := ih (forall_mem_cons.mp strings).2 (o.flagsOf key)
    convert first.orElse next using 3 with x y
    simp only [Options.keyLoop,compareChunks,strings key (.head _),ne_eq,turned_eq_zero_iff]
    split_ifs with zero
    · rfl
    · simp [Options.settle,turned,zero,int_strcmp]

theorem getKey_whole (whole : key.whole) (separator : UInt8) (str : Line) (flags : Nat) :
    getKey separator str key flags = str := by
  rw [getKey,if_pos ⟨whole,by simp [has,flagB,flagD]⟩]

theorem compareKeys_orders (other : Other) (covered : o.Covered) (safe : o.Safe) : Orders (o.compareKeys other) := by
  have strings := covered.2
  cases size : o.big with
  | false =>
    -- As the large build compares with no key given.
    simp only [Options.Safe,size,Bool.false_eq_true,if_false] at safe
    have whole : ∀ key ∈ [⟨1,0,0,0,0⟩], o.flagsOf key &&& 7 = 0 := by simpa [Options.flagsOf]
    convert keyLoop_orders other whole 0 with x y
    have key : ∀ str, getKey o.keySeparator str ⟨1,0,0,0,0⟩ o.globalFlags = str :=
      fun str => getKey_whole (by decide) _ _ _
    by_cases zero : strcmp x y = 0 <;>
      simp [Options.compareKeys,Options.keyLoop,Options.flagsOf,compareChunks,size,safe,key,zero]
  | true =>
    rw [if_pos size] at strings
    convert keyLoop_orders other strings o.globalFlags with x y
    simp [Options.compareKeys,size]

/-! ### The three runs -/

theorem and_checking (flags : Nat) (apart : flagC &&& mask = 0) : (flags ||| flagC) &&& mask = flags &&& mask := by
  rw [Nat.and_or_distrib_right,apart,Nat.or_zero]

theorem has_checking (flags : Nat) (apart : flagC &&& flag = 0) :
    has (flags ||| flagC) flag = has flags flag := by
  rw [has,and_checking flags apart,has]

theorem getKey_checking (cut : flags ≠ 0 ∨ key.whole) (separator : UInt8) (str : Line) :
    getKey separator str key (flags ||| flagC) = getKey separator str key flags := by
  rcases cut with cuts | whole
  · have more : flags ||| flagC ≠ 0 := by simp [flagC]
    have folds : ∀ flags, flags * flagF = 0 ↔ flags = 0 := by simp [flagF]
    simp -zeta (disch := decide) only [getKey,has_checking,ne_eq,folds,more,cuts]
  · rw [getKey_whole whole,getKey_whole whole]

theorem compareChunks_checking (big : Bool) (flags : Nat) (x y : Line) :
    compareChunks other big (flags ||| flagC) x y = compareChunks other big flags x y := by
  rw [compareChunks,and_checking flags rfl,compareChunks]

theorem settle_checking (sense : has flags' flagR = has flags flagR) (x y : Line) (retval : Int) :
    o.checking.settle x y flags' retval = o.settle x y flags retval := by
  simp only [Options.settle,Options.checking,sense,has_checking _ (show flagC &&& flagS = 0 from rfl)]

theorem keyLoop_checking {keys : List SortKey} (safe : ∀ key ∈ keys, o.flagsOf key ≠ 0 ∨ key.whole) (x y : Line)
    {flags flags' : Nat} (sense : has flags' flagR = has flags flagR) :
    o.checking.keyLoop other x y keys flags' = o.keyLoop other x y keys flags := by
  induction keys generalizing flags flags' with
  | nil => exact settle_checking sense x y 0
  | cons key rest ih =>
    have sense : has (o.flagsOf key ||| flagC) flagR = has (o.flagsOf key) flagR := has_checking _ rfl
    have next := @ih (forall_mem_cons.mp safe).2
    simp only [Options.keyLoop,show o.checking.keySeparator = o.keySeparator from rfl]
    by_cases own : key.flags ≠ 0
    · rw [show o.checking.flagsOf key = o.flagsOf key by simp [Options.flagsOf,own]]
      split
      · exact settle_checking rfl x y _
      · exact next rfl
    · rw [show o.checking.flagsOf key = o.flagsOf key ||| flagC by simp [Options.flagsOf,Options.checking,own],
        compareChunks_checking,getKey_checking (safe key (.head _)),getKey_checking (safe key (.head _))]
      split
      · exact settle_checking sense x y _
      · exact next sense

theorem compareKeys_checking (safe : o.Safe) : o.checking.compareKeys other = o.compareKeys other := by
  have sense : has o.checking.globalFlags flagR = has o.globalFlags flagR := has_checking _ rfl
  funext x y
  unfold Options.compareKeys
  by_cases size : o.big
  · rw [Options.Safe,if_pos size] at safe
    rw [if_pos size,if_pos (show o.checking.big from size)]
    exact keyLoop_checking safe x y sense
  · rw [if_neg size,if_neg (show ¬o.checking.big from size),settle_checking sense]
    exact congrArg _ (compareChunks_checking false o.globalFlags x y)

theorem unique_sublist (compares : Line → Line → Int) (lines : List Line) : (unique compares lines).Sublist lines :=
  destutter_sublist (fun x y => compares x y ≠ 0) lines

theorem unique_pairwise (orders : Orders compares) (sorted : lines.Pairwise fun x y => compares x y ≤ 0) :
    (unique compares lines).Pairwise fun x y => compares x y < 0 := by
  have kept := (sorted.sublist (unique_sublist compares lines)).isChain
  have apart : (unique compares lines).IsChain fun x y => compares x y ≠ 0 := isChain_destutter _ lines
  rw [isChain_iff_getElem] at kept apart
  have strict : (unique compares lines).IsChain fun x y => compares x y < 0 :=
    isChain_iff_getElem.mpr fun i inside => lt_of_le_of_ne (kept i inside) (apart i inside)
  have : IsTrans Line fun x y => compares x y < 0 := by
    refine ⟨fun x y z first next => ?_⟩
    have := orders.trans z x y
    have := orders.swap z x
    have := orders.swap z y
    omega
  exact strict.pairwise

theorem unique_classes (orders : Orders compares) (listed : x ∈ lines) :
    ∃ y ∈ unique compares lines, compares y x = 0 := by
  cases lines with
  | nil => cases listed
  | cons last lines =>
    change ∃ y ∈ lines.destutter' _ last,_
    induction lines generalizing last with
    | nil => exact ⟨x,listed,orders.self x⟩
    | cons line rest ih =>
      by_cases same : compares last line = 0
      · rw [destutter'_cons_neg rest (not_not_intro same)]
        rcases mem_cons.mp listed with rfl | behind
        · exact ih x (.head _)
        rcases mem_cons.mp behind with rfl | behind
        · exact ⟨last,mem_destutter' _ _ _,same⟩
        · exact ih last (.tail _ behind)
      · rw [destutter'_cons_pos rest same]
        rcases mem_cons.mp listed with rfl | behind
        · exact ⟨x,.head _,orders.self x⟩
        · obtain ⟨y,kept,same⟩ := ih line behind
          exact ⟨y,.tail _ kept,same⟩

theorem disorder_none (sorted : lines.Pairwise fun x y => compares x y ≤ j) (i : Nat) :
    disorder compares j i lines = none := by
  fun_induction disorder compares j i lines with
  | case1 i x y rest above => exact absurd ((pairwise_cons.mp sorted).1 y (.head _)) (by omega)
  | case2 i x y rest below ih => exact ih (pairwise_cons.mp sorted).2
  | case3 => rfl

def far : Line := 50 :: List.replicate 9 48

/-- Three lines in a circle under `-n`. -/
theorem not_orders (small : o.big = false) (numeric : o.globalFlags &&& 7 = flagN) : ¬Orders (o.compareKeys other) := by
  intro orders
  have value : ∀ x y, int (atoi x - atoi y) ≠ 0 → o.compareKeys other x y =
      if has o.globalFlags flagR then int (-int (atoi x - atoi y)) else int (atoi x - atoi y) := by
    intro x y nonzero
    simp [Options.compareKeys,Options.settle,compareChunks,small,numeric,flagN,nonzero]
  have up := orders.trans (45 :: far) [48] far
  have down := orders.trans far [48] (45 :: far)
  rw [value _ _ (by decide),value _ _ (by decide),value _ _ (by decide)] at up down
  generalize has o.globalFlags flagR = reverse at up down
  cases reverse
  · exact absurd (up (by decide) (by decide)) (by decide)
  · exact absurd (down (by decide) (by decide)) (by decide)

/-- Safe options give an order, and in the small build only they do. -/
theorem sort_sound {o : Options} (other : Other) (covered : o.Covered) :
    (o.Safe → Sound o other) ∧ (o.big = false → Sound o other → o.Safe) := by
  refine ⟨fun safe => ?_,fun small sound => ?_⟩
  · have orders := compareKeys_orders other covered safe
    have once : has o.checking.globalFlags flagU = has o.globalFlags flagU := has_checking _ rfl
    refine ⟨orders,fun lines left sorts => ?_⟩
    obtain ⟨perm,sorted⟩ := sorts orders
    have strict := unique_pairwise orders sorted
    have puts : (sortMain o other lines left).output =
        if has o.globalFlags flagU then unique (o.compareKeys other) left else left := by
      simp [sortMain,covered.1]
    have bounded : (sortMain o other lines left).output.Pairwise fun x y =>
        o.compareKeys other x y ≤ if has o.globalFlags flagU then -1 else 0 := by
      rw [puts]
      split
      · exact strict.imp Int.le_sub_one_of_lt
      · exact sorted
    constructor
    · rw [puts]
      cases has o.globalFlags flagU
      · exact ⟨perm,sorted⟩
      · exact ⟨(unique_sublist _ left).subperm.trans perm.subperm,strict,
          fun x listed => unique_classes orders (perm.mem_iff.mpr listed)⟩
    · intro again
      rw [sortMain,compareKeys_checking safe,once,disorder_none bounded]
      split <;> rfl
  · have kinds := covered.2
    simp only [small,Bool.false_eq_true,if_false] at kinds
    rw [Options.Safe,small,if_neg Bool.false_ne_true]
    exact kinds.resolve_right fun numeric => not_orders small numeric sound.1

/-- `sort -r -k2`. -/
theorem sort_reversed_sound : Sound ⟨true,256,0,[⟨2,0,0,0,0⟩]⟩ (fun _ _ _ => 0) :=
  (sort_sound _ (by decide)).1 (by decide)

/-- `sort -k2` puts "a B" in front of "a a", and `sort -c -k2` compares "B" with "A". -/
theorem sort_check_complains : ¬Sound ⟨true,0,0,[⟨2,0,0,0,0⟩]⟩ (fun _ _ _ => 0) ∧
    ¬Sound ⟨false,1,0,[]⟩ (fun _ _ _ => 0) := by
  refine ⟨fun sound => ?_,fun sound => not_orders rfl rfl sound.1⟩
  have accepted := (sound.2 [[97,32,66],[97,32,97]] [[97,32,66],[97,32,97]] fun _ => ⟨.refl _,by decide⟩).2 []
  exact absurd accepted (by decide)

end Stablebox.Sort
