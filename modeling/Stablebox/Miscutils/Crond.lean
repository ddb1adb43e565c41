import Mathlib.Data.Fintype.Basic

/-! The main loop of `crond`: the window of minutes a wake-up examines, and the life of a
line's `cl_Pid` through `TestJobs`, `RunJobs` and `CheckJobs`. Local time, the clock and
what the system answers to `fork`, `wait4` and the mail file are arbitrary. -/
namespace Stablebox.Crond

open List

structure Tm where
  min : Fin 60
  hour : Fin 24
  mday : Fin 32
  mon : Fin 12
  wday : Fin 7

structure CronLine where
  /-- The running pid, 0, or armed (-1). -/
  pid : Int
  mailFlag : Bool
  mins : Fin 60 → Bool
  hrs : Fin 24 → Bool
  days : Fin 32 → Bool
  mons : Fin 12 → Bool
  dow : Fin 7 → Bool

structure CronFile where
  lines : List CronLine
  ready : Bool
  running : Bool
  deleted : Bool

structure Answers where
  mailOpens : Bool
  fork : Int
  wait : Int
  mailGrew : Bool
  mailFork : Int

abbrev World := Nat → Nat → Answers

def CronLine.due (line : CronLine) (tp : Tm) : Bool :=
  line.mins tp.min && line.hrs tp.hour && (line.days tp.mday || line.dow tp.wday) && line.mons tp.mon

/-! ### TestJobs -/

/-- The minutes that the loop of `TestJobs` looks at, from `t` on. -/
def minutes (t1 t2 t : Int) : List Int :=
  if t ≤ t2 then (if t > t1 then [t] else []) ++ minutes t1 t2 (t + 60) else []
termination_by (t2 + 1 - t).toNat

def examined (t1 t2 : Int) : List Int := minutes t1 t2 (t1 - t1.tmod 60)

def testLine (tp : Tm) (line : CronLine) : CronLine :=
  if line.due tp then
    if line.pid > 0 then line
    else if line.pid = 0 then { line with pid := -1 }
    else line
  else line

def testFile (tp : Tm) (file : CronFile) : CronFile :=
  if file.deleted then file
  else { file with
    lines := file.lines.map (testLine tp)
    ready := file.ready || file.lines.any fun line => line.due tp && line.pid == 0 }

def testJobs (localtime : Int → Tm) (t1 t2 : Int) (files : List CronFile) : List CronFile :=
  (examined t1 t2).foldl (fun files t => files.map (testFile (localtime t))) files

/-! ### RunJobs -/

/-- `RunJob`, with and without `CONFIG_FEATURE_CROND_CALL_SENDMAIL`. -/
def runJob (sendmail : Bool) (answers : Answers) (line : CronLine) : CronLine :=
  let pid := if answers.fork < 0 then 0 else answers.fork
  if sendmail then { line with pid,mailFlag := answers.mailOpens } else { line with pid }

def runLine (sendmail : Bool) (answers : Answers) (line : CronLine) : CronLine :=
  if line.pid < 0 then runJob sendmail answers line else line

def runFile (sendmail : Bool) (answers : Nat → Answers) (file : CronFile) : CronFile :=
  if file.ready then
    let lines := file.lines.mapIdx fun j line => runLine sendmail (answers j) line
    { file with
      lines
      ready := (file.lines.zip lines).any fun (old,line) => old.pid < 0 && line.pid < 0
      running := file.running || (file.lines.zip lines).any fun (old,line) => old.pid < 0 && line.pid > 0 }
  else file

def runJobs (sendmail : Bool) (world : World) (files : List CronFile) : List CronFile :=
  files.mapIdx fun i file => runFile sendmail (world i) file

def startedJobs (files : List CronFile) : List (Nat × Nat) :=
  (files.mapIdx fun i file =>
    if file.ready then (file.lines.mapIdx fun j line => if line.pid < 0 then [(i,j)] else []).flatten
    else []).flatten

/-! ### CheckJobs -/

def endJob (sendmail : Bool) (answers : Answers) (line : CronLine) : CronLine :=
  if sendmail then
    if line.pid ≤ 0 then { line with pid := 0 }
    else if line.mailFlag then
      { line with
        pid := if answers.mailGrew then (if answers.mailFork < 0 then 0 else answers.mailFork) else 0
        mailFlag := false }
    else { line with pid := 0 }
  else { line with pid := 0 }

def checkLine (sendmail : Bool) (answers : Answers) (line : CronLine) : CronLine × Bool :=
  if line.pid > 0 then
    if answers.wait < 0 ∨ answers.wait = line.pid then
      (endJob sendmail answers line,(endJob sendmail answers line).pid != 0)
    else (line,answers.wait == 0)
  else (line,false)

def checkFile (sendmail : Bool) (answers : Nat → Answers) (file : CronFile) : CronFile :=
  if file.running then
    let checked := file.lines.mapIdx fun j line => checkLine sendmail (answers j) line
    { file with lines := checked.map Prod.fst,running := checked.any Prod.snd }
  else file

def checkJobs (sendmail : Bool) (world : World) (files : List CronFile) : List CronFile :=
  files.mapIdx fun i file => checkFile sendmail (world i) file

/-! ### The loop of crond_main -/

structure Daemon where
  t1 : Int
  files : List CronFile

structure Wake where
  examined : List Int
  started : List (Nat × Nat)

/-- How far the daemon has got after a wake-up at `t2`. -/
def advance (t1 t2 : Int) : Int :=
  if t2 - t1 < -60 * 60 ∨ t2 - t1 > 60 * 60 then t2
  else if t2 - t1 > 0 then t2
  else t1

variable (sendmail : Bool) (localtime : Int → Tm)

def wakeUp (t2 : Int) (world : World) (daemon : Daemon) : Daemon × Wake :=
  let dt := t2 - daemon.t1
  if dt < -60 * 60 ∨ dt > 60 * 60 then ({ daemon with t1 := t2 },⟨[],[]⟩)
  else if dt > 0 then
    let armed := testJobs localtime daemon.t1 t2 daemon.files
    ({ t1 := t2,files := checkJobs sendmail world (runJobs sendmail world armed) },
      ⟨examined daemon.t1 t2,startedJobs armed⟩)
  else (daemon,⟨[],[]⟩)

def after (daemon : Daemon) (wakes : List (Int × World)) : Daemon :=
  wakes.foldl (fun daemon wake => (wakeUp sendmail localtime wake.1 wake.2 daemon).1) daemon

def run (daemon : Daemon) : List (Int × World) → List Wake
  | [] => []
  | (t2,world) :: wakes =>
    (wakeUp sendmail localtime t2 world daemon).2 ::
      run (wakeUp sendmail localtime t2 world daemon).1 wakes

def timesExamined (m : Int) (wakes : List Wake) : Nat := (wakes.flatMap Wake.examined).count m

/-- No wake-up comes more than an hour before the time the daemon has got to. -/
def Steady : Int → List Int → Prop
  | _,[] => True
  | t1,t2 :: times => t1 - 60 * 60 ≤ t2 ∧ Steady (advance t1 t2) times

def Disarmed (files : List CronFile) : Prop := ∀ file ∈ files, ∀ line ∈ file.lines, 0 ≤ line.pid

/-! ### The minutes -/

theorem mem_minutes (t1 t2 m : Int) (whole : 60 ∣ t) :
    m ∈ minutes t1 t2 t ↔ 60 ∣ m ∧ t ≤ m ∧ t1 < m ∧ m ≤ t2 := by
  fun_induction minutes t1 t2 t with
  | case1 t inside ih =>
    have next := ih (by omega)
    rw [mem_append,next]
    by_cases later : t > t1
    · simp only [later,if_true,mem_singleton]
      omega
    · simp only [later,if_false,not_mem_nil,false_or]
      omega
  | case2 t outside =>
    simp only [not_mem_nil,false_iff]
    omega

theorem minutes_nodup (t1 t2 : Int) (whole : 60 ∣ t) : (minutes t1 t2 t).Nodup := by
  fun_induction minutes t1 t2 t with
  | case1 t inside ih =>
    have next := ih (by omega)
    by_cases later : t > t1
    · simp only [later,if_true]
      rw [singleton_append,nodup_cons]
      refine ⟨fun again => ?_,next⟩
      have bound := (mem_minutes t1 t2 t (by omega)).mp again
      omega
    · simpa only [later,if_false,nil_append] using next
  | case2 t outside => exact nodup_nil

theorem mem_examined (t1 t2 m : Int) : m ∈ examined t1 t2 ↔ 60 ∣ m ∧ t1 < m ∧ m ≤ t2 := by
  have whole : (60 : Int) ∣ t1 - t1.tmod 60 := Int.dvd_self_sub_tmod
  rw [examined,mem_minutes _ _ _ whole]
  constructor
  · intro ⟨divides,_,inside⟩
    exact ⟨divides,inside⟩
  intro ⟨divides,later,inside⟩
  refine ⟨divides,?_,later,inside⟩
  have bound : t1 - t1.tmod 60 < t1 + 60 := by
    have := Int.lt_tmod_of_pos t1 (show (0 : Int) < 60 by decide)
    omega
  omega

theorem count_examined (t1 t2 m : Int) : (examined t1 t2).count m = if 60 ∣ m ∧ t1 < m ∧ m ≤ t2 then 1 else 0 := by
  have nodup : (examined t1 t2).Nodup := minutes_nodup _ _ Int.dvd_self_sub_tmod
  rw [List.Nodup.count nodup]
  simp only [mem_examined]

variable {daemon : Daemon} {sendmail localtime}

theorem wakeUp_forward (world : World) (near : 0 < t2 - daemon.t1 ∧ t2 - daemon.t1 ≤ 60 * 60) :
    wakeUp sendmail localtime t2 world daemon =
      ({ t1 := t2,files := checkJobs sendmail world (runJobs sendmail world
          (testJobs localtime daemon.t1 t2 daemon.files)) },
        ⟨examined daemon.t1 t2,startedJobs (testJobs localtime daemon.t1 t2 daemon.files)⟩) := by
  simp only [wakeUp]
  rw [if_neg (by omega),if_pos near.1]

theorem wakeUp_quiet (world : World) (quiet : ¬ (0 < t2 - daemon.t1 ∧ t2 - daemon.t1 ≤ 60 * 60)) :
    wakeUp sendmail localtime t2 world daemon = ({ daemon with t1 := advance daemon.t1 t2 },⟨[],[]⟩) := by
  simp only [wakeUp,advance]
  by_cases far : t2 - daemon.t1 < -60 * 60 ∨ t2 - daemon.t1 > 60 * 60
  · rw [if_pos far,if_pos far]
  · rw [if_neg far,if_neg far,if_neg (by omega),if_neg (by omega)]

theorem count_wakeUp (t2 m : Int) (world : World) (daemon : Daemon) :
    (wakeUp sendmail localtime t2 world daemon).2.examined.count m =
      if 60 ∣ m ∧ daemon.t1 < m ∧ m ≤ t2 ∧ t2 - daemon.t1 ≤ 60 * 60 then 1 else 0 := by
  by_cases near : 0 < t2 - daemon.t1 ∧ t2 - daemon.t1 ≤ 60 * 60
  · rw [wakeUp_forward world near,count_examined]
    simp only [near.2,and_true]
  · rw [wakeUp_quiet world near,count_nil,if_neg (by omega)]

variable (sendmail localtime) in
theorem wakeUp_t1 (t2 : Int) (world : World) (daemon : Daemon) :
    (wakeUp sendmail localtime t2 world daemon).1.t1 = advance daemon.t1 t2 := by
  by_cases near : 0 < t2 - daemon.t1 ∧ t2 - daemon.t1 ≤ 60 * 60
  · rw [wakeUp_forward world near,advance,if_neg (by omega),if_pos near.1]
  · rw [wakeUp_quiet world near]

theorem advance_cases (t1 t2 : Int) : advance t1 t2 = t2 ∨ (advance t1 t2 = t1 ∧ t2 ≤ t1) := by
  unfold advance
  split
  · exact .inl rfl
  split
  · exact .inl rfl
  · exact .inr ⟨rfl,by omega⟩

theorem timesExamined_cons (m t2 : Int) (world : World) (daemon : Daemon) (wakes : List (Int × World)) :
    timesExamined m (run sendmail localtime daemon ((t2,world) :: wakes)) =
      (wakeUp sendmail localtime t2 world daemon).2.examined.count m +
        timesExamined m (run sendmail localtime (wakeUp sendmail localtime t2 world daemon).1 wakes) := by
  simp [timesExamined,run,count_append]

theorem passed_minute (m : Int) (wakes : List (Int × World)) (daemon : Daemon)
    (steady : Steady daemon.t1 (wakes.map Prod.fst)) (passed : m ≤ daemon.t1) :
    timesExamined m (run sendmail localtime daemon wakes) = 0 := by
  induction wakes generalizing daemon with
  | nil => rfl
  | cons wake wakes ih =>
    obtain ⟨t2,world⟩ := wake
    obtain ⟨near,steady⟩ := steady
    have still : m ≤ advance daemon.t1 t2 := by
      unfold advance
      split
      · omega
      · split <;> omega
    rw [← wakeUp_t1 sendmail localtime t2 world daemon] at steady still
    rw [timesExamined_cons,count_wakeUp,ih _ steady still,if_neg (by omega)]

theorem examined_at_most_once (m : Int) (wakes : List (Int × World)) (daemon : Daemon)
    (steady : Steady daemon.t1 (wakes.map Prod.fst)) : timesExamined m (run sendmail localtime daemon wakes) ≤ 1 := by
  induction wakes generalizing daemon with
  | nil => exact Nat.zero_le _
  | cons wake wakes ih =>
    obtain ⟨t2,world⟩ := wake
    obtain ⟨near,steady⟩ := steady
    rw [← wakeUp_t1 sendmail localtime t2 world daemon] at steady
    rw [timesExamined_cons,count_wakeUp]
    by_cases now : 60 ∣ m ∧ daemon.t1 < m ∧ m ≤ t2 ∧ t2 - daemon.t1 ≤ 60 * 60
    · have reached : (wakeUp sendmail localtime t2 world daemon).1.t1 = t2 := by
        have cases := advance_cases daemon.t1 t2
        rw [wakeUp_t1]
        omega
      rw [if_pos now,passed_minute m wakes _ steady (by omega)]
    · rw [if_neg now,Nat.zero_add]
      exact ih _ steady

theorem examined_at_least_once (m : Int) (whole : 60 ∣ m) (wakes : List (Int × World)) (daemon : Daemon) (last : Int)
    (behind : last ≤ daemon.t1) (before : daemon.t1 < m) (reached : ∃ t ∈ wakes.map Prod.fst, m ≤ t)
    (close : (last :: wakes.map Prod.fst).IsChain fun a b => a < m → m ≤ b → b - a ≤ 60 * 60) :
    1 ≤ timesExamined m (run sendmail localtime daemon wakes) := by
  induction wakes generalizing daemon last with
  | nil => simp at reached
  | cons wake wakes ih =>
    obtain ⟨t2,world⟩ := wake
    rw [map_cons,isChain_cons_cons] at close
    rw [timesExamined_cons,count_wakeUp]
    by_cases now : m ≤ t2
    · have near := close.1 (by omega) now
      rw [if_pos ⟨whole,before,now,by simp only at near; omega⟩]
      exact Nat.le_add_right _ _
    · obtain ⟨t,listed,late⟩ := reached
      have rest : t ∈ wakes.map Prod.fst := by
        rcases mem_cons.mp listed with rfl | rest
        · exact absurd late now
        · exact rest
      have cases := advance_cases daemon.t1 t2
      rw [← wakeUp_t1 sendmail localtime t2 world daemon] at cases
      have step := ih (wakeUp sendmail localtime t2 world daemon).1 t2 (by omega) (by omega) ⟨t,rest,late⟩ close.2
      exact Nat.le_trans step (Nat.le_add_left _ _)

/-! ### The jobs -/

def testLines (times : List Tm) (line : CronLine) : CronLine :=
  times.foldl (fun line tp => testLine tp line) line

def testFiles (times : List Tm) (file : CronFile) : CronFile :=
  times.foldl (fun file tp => testFile tp file) file

theorem testLines_nil : testLines [] = id := rfl

theorem testFiles_nil : testFiles [] = id := rfl

theorem testLines_cons (tp : Tm) (times : List Tm) (line : CronLine) :
    testLines (tp :: times) line = testLines times (testLine tp line) := rfl

theorem testFiles_cons (tp : Tm) (times : List Tm) (file : CronFile) :
    testFiles (tp :: times) file = testFiles times (testFile tp file) := rfl

theorem testJobs_eq (t1 t2 : Int) (files : List CronFile) :
    testJobs localtime t1 t2 files = files.map (testFiles ((examined t1 t2).map localtime)) := by
  rw [testJobs]
  induction examined t1 t2 generalizing files with
  | nil => rw [map_nil,testFiles_nil,map_id,foldl_nil]
  | cons t times ih =>
    rw [foldl_cons,ih,map_map]
    rfl

theorem testLines_pid (times : List Tm) (line : CronLine) (idle : line.pid = 0) :
    (testLines times line).pid < 0 ↔ ∃ tp ∈ times, line.due tp := by
  induction times generalizing line with
  | nil => simp [testLines_nil,idle]
  | cons tp times ih =>
    by_cases now : line.due tp
    · have armed : testLine tp line = { line with pid := -1 } := by simp [testLine,now,idle]
      have stays : ∀ rest : List Tm, testLines rest { line with pid := -1 } = { line with pid := -1 } := by
        intro rest
        induction rest with
        | nil => rfl
        | cons tp rest ih =>
          rw [testLines_cons]
          simpa [testLine] using ih
      rw [testLines_cons,armed]
      simpa [now] using congrArg CronLine.pid (stays times) ▸ (show (-1 : Int) < 0 by decide)
    · have same : testLine tp line = line := by simp [testLine,now]
      rw [testLines_cons,same]
      simpa [now] using ih line idle

theorem testFiles_spec (times : List Tm) (file : CronFile) (kept : file.deleted = false)
    (ready : ∀ line ∈ file.lines, line.pid < 0 → file.ready = true) :
    (testFiles times file).lines = file.lines.map (testLines times) ∧
    ∀ line ∈ (testFiles times file).lines, line.pid < 0 → (testFiles times file).ready = true := by
  induction times generalizing file with
  | nil => exact ⟨by rw [testLines_nil,map_id]; rfl,ready⟩
  | cons tp times ih =>
    have step : testFile tp file = { file with
        lines := file.lines.map (testLine tp)
        ready := file.ready || file.lines.any fun line => line.due tp && line.pid == 0 } := by
      simp [testFile,kept]
    have marked : ∀ line ∈ (testFile tp file).lines, line.pid < 0 → (testFile tp file).ready = true := by
      rw [step]
      intro line listed armed
      obtain ⟨old,member,rfl⟩ := mem_map.mp listed
      simp only [Bool.or_eq_true,any_eq_true,Bool.and_eq_true,beq_iff_eq]
      by_cases before : old.pid < 0
      · exact .inl (ready old member before)
      refine .inr ⟨old,member,?_⟩
      unfold testLine at armed
      split at armed
      · rename_i due
        split at armed
        · omega
        split at armed
        · exact ⟨due,by assumption⟩
        · omega
      · omega
    have rest := ih (testFile tp file) (by rw [step]; exact kept) marked
    refine ⟨?_,rest.2⟩
    have lines : (testFile tp file).lines = file.lines.map (testLine tp) := by rw [step]
    rw [testFiles_cons,rest.1,lines,map_map]
    rfl

variable {file : CronFile}

theorem testFiles_deleted (times : List Tm) (gone : file.deleted = true) : testFiles times file = file := by
  induction times with
  | nil => rfl
  | cons tp times ih =>
    have same : testFile tp file = file := by simp [testFile,gone]
    rw [testFiles_cons,same,ih]

theorem mem_startedJobs (files : List CronFile) (i j : Nat) :
    (i,j) ∈ startedJobs files ↔
      ∃ file line, files[i]? = some file ∧ file.ready = true ∧ file.lines[j]? = some line ∧ line.pid < 0 := by
  simp only [startedJobs,mem_flatten,mem_mapIdx]
  constructor
  · rintro ⟨_,⟨i',bound,rfl⟩,listed⟩
    split at listed
    · rename_i ready
      obtain ⟨_,inner,member⟩ := mem_flatten.mp listed
      obtain ⟨j',bound',rfl⟩ := mem_mapIdx.mp inner
      split at member
      · rename_i armed
        obtain ⟨rfl,rfl⟩ := Prod.mk.inj (mem_singleton.mp member)
        exact ⟨_,_,getElem?_eq_getElem bound,ready,getElem?_eq_getElem bound',armed⟩
      · simp at member
    · simp at listed
  · rintro ⟨file,line,here,ready,there,armed⟩
    obtain ⟨bound,rfl⟩ := List.getElem?_eq_some_iff.mp here
    obtain ⟨bound',rfl⟩ := List.getElem?_eq_some_iff.mp there
    refine ⟨_,⟨i,bound,rfl⟩,?_⟩
    rw [if_pos ready]
    refine mem_flatten.mpr ⟨_,mem_mapIdx.mpr ⟨j,bound',rfl⟩,?_⟩
    rw [if_pos armed]
    exact mem_singleton.mpr rfl

theorem endJob_pid (answers : Answers) (line : CronLine) : 0 ≤ (endJob sendmail answers line).pid := by
  unfold endJob
  split
  · split
    · exact Int.le_refl 0
    split
    · simp only
      split
      · split <;> omega
      · exact Int.le_refl 0
    · exact Int.le_refl 0
  · exact Int.le_refl 0

theorem checkLine_pid (answers : Answers) (disarmed : 0 ≤ line.pid) :
    0 ≤ (checkLine sendmail answers line).1.pid := by
  unfold checkLine
  split
  · split
    · exact endJob_pid answers line
    · exact disarmed
  · exact disarmed

theorem runLine_pid (answers : Answers) (line : CronLine) : 0 ≤ (runLine sendmail answers line).pid := by
  unfold runLine
  split
  · simp only [runJob]
    have pid : 0 ≤ if answers.fork < 0 then 0 else answers.fork := by split <;> omega
    split <;> exact pid
  · omega

theorem runFile_disarmed (marked : ∀ line ∈ file.lines, line.pid < 0 → file.ready = true) :
    ∀ line ∈ (runFile sendmail answers file).lines, 0 ≤ line.pid := by
  unfold runFile
  by_cases ready : file.ready
  · simp only [ready,if_true]
    intro line listed
    obtain ⟨j,bound,rfl⟩ := mem_mapIdx.mp listed
    exact runLine_pid _ _
  · simp only [ready]
    intro line listed
    by_contra armed
    exact ready (marked line listed (by omega))

theorem checkFile_disarmed (disarmed : ∀ line ∈ file.lines, 0 ≤ line.pid) :
    ∀ line ∈ (checkFile sendmail answers file).lines, 0 ≤ line.pid := by
  unfold checkFile
  by_cases running : file.running
  · simp only [running,if_true]
    intro line listed
    obtain ⟨checked,inner,rfl⟩ := mem_map.mp listed
    obtain ⟨j,bound,rfl⟩ := mem_mapIdx.mp inner
    exact checkLine_pid _ (disarmed _ (getElem_mem bound))
  · rw [if_neg running]
    exact disarmed

theorem testFiles_marked (disarmed : ∀ line ∈ file.lines, 0 ≤ line.pid) :
    ∀ line ∈ (testFiles times file).lines, line.pid < 0 → (testFiles times file).ready = true := by
  have idle : ∀ line ∈ file.lines, line.pid < 0 → file.ready = true := fun line listed armed =>
    absurd armed (Int.not_lt.mpr (disarmed line listed))
  cases gone : file.deleted with
  | false => exact (testFiles_spec times file gone idle).2
  | true =>
    rw [testFiles_deleted times gone]
    exact idle

theorem wakeUp_disarmed (t2 : Int) (world : World) (daemon : Daemon) (disarmed : Disarmed daemon.files) :
    Disarmed (wakeUp sendmail localtime t2 world daemon).1.files := by
  by_cases near : 0 < t2 - daemon.t1 ∧ t2 - daemon.t1 ≤ 60 * 60
  · rw [wakeUp_forward world near]
    intro file listed
    obtain ⟨i,bound,rfl⟩ := mem_mapIdx.mp listed
    apply checkFile_disarmed
    simp only [runJobs,testJobs_eq,getElem_mapIdx,getElem_map]
    apply runFile_disarmed
    apply testFiles_marked
    exact disarmed _ (getElem_mem _)
  · rw [wakeUp_quiet world near]
    exact disarmed

theorem after_disarmed (wakes : List (Int × World)) (daemon : Daemon) (disarmed : Disarmed daemon.files) :
    Disarmed (after sendmail localtime daemon wakes).files := by
  induction wakes generalizing daemon with
  | nil => exact disarmed
  | cons wake wakes ih => exact ih _ (wakeUp_disarmed wake.1 wake.2 daemon disarmed)

/-- An idle line of a file that is kept is started exactly when it is due at a minute examined. -/
theorem wakeUp_starts (t2 : Int) (world : World) (disarmed : Disarmed daemon.files)
    (here : daemon.files[i]? = some file) (kept : file.deleted = false) (there : file.lines[j]? = some line)
    (idle : line.pid ≤ 0) :
    (i,j) ∈ (wakeUp sendmail localtime t2 world daemon).2.started ↔
      ∃ t ∈ (wakeUp sendmail localtime t2 world daemon).2.examined, line.due (localtime t) := by
  by_cases near : 0 < t2 - daemon.t1 ∧ t2 - daemon.t1 ≤ 60 * 60
  · rw [wakeUp_forward world near]
    have all := disarmed file (mem_of_getElem? here)
    have zero : line.pid = 0 := Int.le_antisymm idle (all line (mem_of_getElem? there))
    have spec := testFiles_spec ((examined daemon.t1 t2).map localtime) file kept fun line listed armed =>
      absurd armed (Int.not_lt.mpr (all line listed))
    have place : (testFiles ((examined daemon.t1 t2).map localtime) file).lines[j]?
        = some (testLines ((examined daemon.t1 t2).map localtime) line) := by
      rw [spec.1,getElem?_map,there,Option.map_some]
    have armed := testLines_pid ((examined daemon.t1 t2).map localtime) line zero
    simp only [mem_map,exists_exists_and_eq_and] at armed
    rw [mem_startedJobs,testJobs_eq,getElem?_map,here,Option.map_some,← armed]
    constructor
    · rintro ⟨_,found,same,_,listed,negative⟩
      cases same
      cases place.symm.trans listed
      exact negative
    · intro negative
      exact ⟨_,_,rfl,spec.2 _ (mem_of_getElem? place) negative,place,negative⟩
  · rw [wakeUp_quiet world near]
    simp

variable (sendmail localtime)

/-- Over any run a minute is examined at most once unless the clock is set back by more than an hour below the
time reached, at least once if it is passed by wake-ups at most an hour apart, and at each wake-up the
lines that are started are those due at a minute examined then. -/
theorem crond_runs_due_jobs (daemon : Daemon) (disarmed : Disarmed daemon.files) (wakes : List (Int × World)) :
    (∀ m, Steady daemon.t1 (wakes.map Prod.fst) →
      timesExamined m (run sendmail localtime daemon wakes) ≤ 1) ∧
    (∀ m, 60 ∣ m → daemon.t1 < m → (∃ t ∈ wakes.map Prod.fst, m ≤ t) →
      ((daemon.t1 :: wakes.map Prod.fst).IsChain fun a b => a < m → m ≤ b → b - a ≤ 60 * 60) →
      1 ≤ timesExamined m (run sendmail localtime daemon wakes)) ∧
    ∀ (t2 : Int) (world : World) (i j : Nat) (file : CronFile) (line : CronLine),
      (after sendmail localtime daemon wakes).files[i]? = some file → file.deleted = false →
      file.lines[j]? = some line → line.pid ≤ 0 →
      ((i,j) ∈ (wakeUp sendmail localtime t2 world (after sendmail localtime daemon wakes)).2.started ↔
        ∃ t ∈ (wakeUp sendmail localtime t2 world (after sendmail localtime daemon wakes)).2.examined,
          line.due (localtime t)) := by
  refine ⟨fun m steady => examined_at_most_once m wakes daemon steady,?_,?_⟩
  · intro m whole before reached close
    exact examined_at_least_once m whole wakes daemon daemon.t1 (Int.le_refl _) before reached close
  · intro t2 world i j file line here kept there idle
    exact wakeUp_starts t2 world (after_disarmed wakes daemon disarmed) here kept there idle

def idleWorld : World := fun _ _ => ⟨false,1,0,false,1⟩

def everyMinute : CronLine :=
  ⟨0,false,fun _ => true,fun _ => true,fun _ => true,fun _ => true,fun _ => true⟩

def oneLine : Daemon := { t1 := 30,files := [⟨[everyMinute],false,false,false⟩] }

def stopped : Int → Tm := fun _ => ⟨0,0,1,0,4⟩

/-- Two wake-ups, the clock set back a little between them. -/
theorem crond_runs_due_jobs_everyMinute :
    timesExamined 60 (run false stopped oneLine [(90,idleWorld),(80,idleWorld)]) ≤ 1 ∧
    1 ≤ timesExamined 60 (run false stopped oneLine [(90,idleWorld),(80,idleWorld)]) ∧
    ((0,0) ∈ (wakeUp false stopped 90 idleWorld oneLine).2.started ↔
      ∃ t ∈ (wakeUp false stopped 90 idleWorld oneLine).2.examined, everyMinute.due (stopped t)) := by
  have disarmed : Disarmed oneLine.files := by
    intro file listed line member
    simp only [oneLine,mem_singleton] at listed
    subst listed
    simp only [mem_singleton] at member
    subst member
    decide
  have runs := crond_runs_due_jobs false stopped oneLine disarmed [(90,idleWorld),(80,idleWorld)]
  have starts := (crond_runs_due_jobs false stopped oneLine disarmed []).2.2 90 idleWorld 0 0 _ everyMinute
    rfl rfl rfl (by decide)
  exact ⟨runs.1 60 (by simp [Steady,oneLine,advance]),runs.2.1 60 (by decide) (by decide) (by simp) (by simp [oneLine]),
    starts⟩

def creeping : List (Int × World) :=
  [(3600,idleWorld),(7200,idleWorld),(5400,idleWorld),(3500,idleWorld),(7000,idleWorld)]

theorem minute_examined_twice :
    ((0 :: creeping.map Prod.fst).IsChain fun a b => b - a ≤ 60 * 60 ∧ a - b ≤ 60 * 60) ∧
    timesExamined 4200 (run false stopped { t1 := 0,files := [] } creeping) = 2 := by
  refine ⟨by simp [creeping],?_⟩
  simp only [creeping,timesExamined_cons,count_wakeUp,wakeUp_t1]
  decide

end Stablebox.Crond
