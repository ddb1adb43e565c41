import Stablebox.Lib.Digits
import Stablebox.Libbb.GetLine

/-! Job names of ash.c: `getjob` finds a slot of the job table for `%1`, `%-`, `%vi` and the like. -/
namespace Stablebox.Ash.Jobs

open List Digits

open Digits (isDigit)

/-- What `getjob` reads of a job; `cmd` is that of its first process. -/
structure Job where
  cmd : List UInt8
  jobctl : Bool
  used : Bool

/-- The slots, and those of the list that starts at `curjob` and goes on through `prev_job`. -/
structure JobTable where
  jobtab : List Job
  listed : List (Fin jobtab.length)

abbrev JobTable.njobs (table : JobTable) : Nat := table.jobtab.length

/-- A slot, the message given to `sh_error`, or what the language leaves open: a slot outside of
the table is read, or `atoi` has a number that is no `int`. -/
inductive Outcome (njobs : Nat) where
  | job (slot : Fin njobs)
  | error (message : String)
  | undefined
  deriving DecidableEq

section Source

variable (table : JobTable) (getctl : Bool)

def strstr (string p : List UInt8) : Bool := string.tails.any p.isPrefixOf

def isNumber (p : List UInt8) : Bool := !p.isEmpty && p.all (isDigit 10)

def IsCurrent (p : List UInt8) : Prop := p = [] ∨ p = [43] ∨ p = [37]

instance (p : List UInt8) : Decidable (IsCurrent p) := by unfold IsCurrent; infer_instance

def gotit (jp : Fin table.njobs) : Outcome table.njobs :=
  if getctl && !(table.jobtab.get jp).jobctl then .error "job %s not created under job control" else .job jp

def check (jp : Option (Fin table.njobs)) (message : String) : Outcome table.njobs :=
  match jp with
  | none => .error message
  | some jp => gotit table getctl jp

/-- The loop over the list. The job that is found is kept, and never returned. -/
def search (fits : List UInt8 → Bool) :
    List (Fin table.njobs) → (found : Option (Fin table.njobs)) → (message : String) → Outcome table.njobs
  | [],_,message => .error message
  | jp :: rest,found,message =>
    if fits (table.jobtab.get jp).cmd then
      if found.isSome then .error message else search fits rest (some jp) "%s: ambiguous"
    else search fits rest found message

/-- The search for a command that begins with the text, or contains what stands behind `?`. -/
def byName (p : List UInt8) : Outcome table.njobs :=
  match p with
  | 63 :: p => search table (strstr · p) table.listed none "No such job: %s"
  | p => search table (p.isPrefixOf ·) table.listed none "No such job: %s"

def bySlot (num : Int) : Outcome table.njobs :=
  if inside : 1 ≤ num ∧ num.toNat - 1 < table.njobs then
    if (table.jobtab.get ⟨num.toNat - 1,inside.2⟩).used then gotit table getctl ⟨num.toNat - 1,inside.2⟩
    else .error "No such job: %s"
  else .undefined

def getjobAt (p : List UInt8) : Outcome table.njobs :=
  if IsCurrent p then check table getctl table.listed.head? "No current job"
  else if p = [45] then check table getctl table.listed[1]? "No previous job"
  else if isNumber p then
    match atoi p with
    | none => .undefined
    | some num => if num < table.njobs then bySlot table getctl num else byName table p
  else byName table p

def getjob : (name : Option (List UInt8)) → Outcome table.njobs
  | none => check table getctl table.listed.head? "No current job"
  | some [] => .error "No such job: %s"
  | some (c :: p) => if c = 37 then getjobAt table getctl p else .error "No such job: %s"

end Source

/-! ### What a job name stands for -/

section Names

variable (table : JobTable) (getctl : Bool)

def only {α : Type} : List α → Option α
  | [a] => some a
  | _ => none

def number (p : List UInt8) : Nat := parse 10 (p.map fun c => c.toNat - 48)

def slotOf (n : Nat) : Option (Fin table.njobs) :=
  if inside : 1 ≤ n ∧ n - 1 < table.njobs then
    some ⟨n - 1,inside.2⟩ |>.filter fun jp => (table.jobtab.get jp).used
  else none

/-- The only listed job with such a command. -/
def theJob (fits : List UInt8 → Bool) : Option (Fin table.njobs) :=
  only (table.listed.filter fun jp => fits (table.jobtab.get jp).cmd)

def namedJob : (p : List UInt8) → Option (Fin table.njobs)
  | 63 :: p => theJob table (strstr · p)
  | p => theJob table (p.isPrefixOf ·)

/-- The job that a name without its percent sign stands for. -/
def prescribedAt (p : List UInt8) : Option (Fin table.njobs) :=
  if IsCurrent p then table.listed.head?
  else if p = [45] then table.listed[1]?
  else if isNumber p then slotOf table (number p)
  else namedJob table p

def prescribed : (name : Option (List UInt8)) → Option (Fin table.njobs)
  | none => table.listed.head?
  | some [] => none
  | some (c :: p) => if c = 37 then prescribedAt table p else none

def granted (jp : Option (Fin table.njobs)) : Option (Fin table.njobs) :=
  jp.filter fun jp => !(getctl && !(table.jobtab.get jp).jobctl)

/-- The outcome is the job that is meant, or an error if there is none. -/
def Answers (outcome : Outcome table.njobs) (meant : Option (Fin table.njobs)) : Prop :=
  match granted table getctl meant with
  | some jp => outcome = .job jp
  | none => ∃ message, outcome = .error message

/-- A number that is an `int`, is not zero, and is not that of the last slot. -/
def SoundNumber (n : Nat) : Prop :=
  n < 2 ^ 31 ∧ (n = 0 → table.njobs = 0) ∧ (n = table.njobs → granted table getctl (slotOf table n) = none)

/-- A text that is no number stands for no job. -/
def SoundAt (p : List UInt8) : Prop :=
  IsCurrent p ∨ p = [45] ∨
    if isNumber p then SoundNumber table getctl (number p) else granted table getctl (namedJob table p) = none

def Sound : (name : Option (List UInt8)) → Prop
  | some (c :: p) => c = 37 → SoundAt table getctl p
  | _ => True

end Names

section Answers

variable {table : JobTable} {getctl : Bool}

theorem answers_error :
    Answers table getctl (.error message) meant ↔ granted table getctl meant = none := by
  unfold Answers
  split
  · simp_all
  · simp_all

theorem not_answers_undefined : ¬ Answers table getctl .undefined meant := by
  unfold Answers
  split <;> simp

theorem gotit_answers (jp : Fin table.njobs) : Answers table getctl (gotit table getctl jp) (some jp) := by
  unfold gotit
  split
  · rename_i refused
    rw [answers_error,granted,Option.filter_some,refused]
    rfl
  · rename_i given
    rw [Bool.not_eq_true] at given
    rw [Answers,granted,Option.filter_some,given]
    rfl

theorem check_answers (jp : Option (Fin table.njobs)) (message : String) :
    Answers table getctl (check table getctl jp message) jp := by
  cases jp with
  | none => exact answers_error.mpr rfl
  | some jp => exact gotit_answers jp

theorem search_error (fits : List UInt8 → Bool) (rest : List (Fin table.njobs)) (found : Option (Fin table.njobs))
    (message : String) : ∃ last, search table fits rest found message = .error last := by
  induction rest generalizing found message with
  | nil => exact ⟨message,rfl⟩
  | cons jp rest ih =>
    rw [search]
    split
    · split
      · exact ⟨message,rfl⟩
      · exact ih _ _
    · exact ih _ _

theorem byName_answers (p : List UInt8) (meant : Option (Fin table.njobs)) :
    Answers table getctl (byName table p) meant ↔ granted table getctl meant = none := by
  obtain ⟨message,error⟩ : ∃ message, byName table p = .error message := by
    unfold byName
    split
    · exact search_error _ _ _ _
    · exact search_error _ _ _ _
  rw [error,answers_error]

theorem bySlot_answers (positive : 1 ≤ n) (small : n < table.njobs) :
    Answers table getctl (bySlot table getctl n) (slotOf table n) := by
  have inside : n - 1 < table.njobs := by omega
  rw [bySlot,dif_pos ⟨by omega,inside⟩,slotOf,dif_pos ⟨positive,inside⟩,Option.filter_some]
  simp only [Int.toNat_natCast]
  split_ifs with used
  · exact gotit_answers _
  · exact answers_error.mpr rfl

theorem bySlot_zero : bySlot table getctl 0 = .undefined := dif_neg (by omega)

theorem atoi_number (digits : isNumber p) :
    atoi p = if number p < 2 ^ 31 then some (number p : Int) else none := by
  simp only [isNumber,Bool.and_eq_true,Bool.not_eq_true',isEmpty_eq_false_iff,all_eq_true] at digits
  obtain ⟨nonempty,every⟩ := digits
  have bounds : ∀ c ∈ p, 48 ≤ c.toNat ∧ c.toNat < 58 := fun c listed => by simpa [isDigit] using every c listed
  have shape : (p.map fun c => c.toNat - 48).map ascii = p := by
    rw [map_map]
    refine (map_congr_left fun c listed => ?_).trans (map_id p)
    obtain ⟨low,_⟩ := bounds c listed
    rw [Function.comp_apply,ascii,Nat.add_sub_of_le low,UInt8.ofNat_toNat]
    rfl
  have small : ∀ digit ∈ p.map (fun c => c.toNat - 48), digit < 10 := by
    intro digit listed
    obtain ⟨c,there,rfl⟩ := mem_map.mp listed
    have := bounds c there
    omega
  have read := atoi_digits (by simpa using nonempty) small [] (by simp)
  rwa [append_nil,shape] at read

theorem number_right_iff (digits : isNumber p) :
    Answers table getctl
        (match atoi p with
        | none => .undefined
        | some num => if num < table.njobs then bySlot table getctl num else byName table p)
        (slotOf table (number p)) ↔ SoundNumber table getctl (number p) := by
  rw [atoi_number digits]
  split_ifs with fits
  · by_cases small : number p < table.njobs
    · simp only [Int.ofNat_lt,if_pos small]
      by_cases zero : number p = 0
      · rw [zero,Int.natCast_zero,bySlot_zero]
        refine iff_of_false not_answers_undefined fun sound => ?_
        have := sound.2.1 rfl
        omega
      · exact iff_of_true (bySlot_answers (by omega) small) ⟨fits,fun same => absurd same zero,fun last => by omega⟩
    · simp only [Int.ofNat_lt,if_neg small]
      rw [byName_answers]
      refine ⟨fun missing => ⟨fits,fun zero => by omega,fun _ => missing⟩,fun sound => ?_⟩
      rcases Nat.lt_or_eq_of_le (Nat.le_of_not_lt small) with beyond | last
      · rw [slotOf,dif_neg (by omega)]
        rfl
      · exact sound.2.2 last.symm
  · exact iff_of_false not_answers_undefined fun sound => fits sound.1

theorem getjobAt_right_iff (p : List UInt8) :
    Answers table getctl (getjobAt table getctl p) (prescribedAt table p) ↔ SoundAt table getctl p := by
  by_cases current : IsCurrent p
  · rw [getjobAt,prescribedAt,if_pos current,if_pos current]
    exact iff_of_true (check_answers _ _) (.inl current)
  by_cases former : p = [45]
  · rw [getjobAt,prescribedAt,if_neg current,if_neg current,if_pos former,if_pos former]
    exact iff_of_true (check_answers _ _) (.inr (.inl former))
  rw [getjobAt,prescribedAt,SoundAt,if_neg current,if_neg current,if_neg former,if_neg former,or_iff_right current,
    or_iff_right former]
  split_ifs with digits
  · exact number_right_iff digits
  · exact byName_answers p _

/-- A job is found as the manual says, exactly if the name is sound for the table. -/
theorem getjob_right_iff (table : JobTable) (getctl : Bool) (name : Option (List UInt8)) :
    Answers table getctl (getjob table getctl name) (prescribed table name) ↔ Sound table getctl name := by
  rcases name with _ | _ | ⟨c,p⟩
  · exact iff_of_true (check_answers _ _) trivial
  · exact iff_of_true (answers_error.mpr rfl) trivial
  by_cases percent : c = 37
  · rw [getjob,prescribed,if_pos percent,if_pos percent,getjobAt_right_iff]
    exact ⟨fun sound _ => sound,fun sound => sound percent⟩
  · rw [getjob,prescribed,if_neg percent,if_neg percent]
    exact iff_of_true (answers_error.mpr rfl) fun same => absurd same percent

def editing : JobTable := ⟨[⟨Libbb.text "vi",true,true⟩],[0]⟩

/-- The only job is not found by its name. -/
theorem getjob_name_missed : prescribed editing (some (Libbb.text "%vi")) = some ⟨0,by decide⟩ ∧
    getjob editing false (some (Libbb.text "%vi")) = .error "%s: ambiguous" := by
  decide +kernel

end Answers

end Stablebox.Ash.Jobs
