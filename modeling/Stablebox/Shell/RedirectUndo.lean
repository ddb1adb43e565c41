import Stablebox.Shell.Redirect
import Stablebox.Lib.Simulates

/-! What `popredir` undoes. The redirection table of a command says what the descriptors
will be after the command: each redirection changes that only where it opens a descriptor
that was closed. -/
namespace Stablebox.Ash

open Descriptors List Function Option

variable {α : Type}

def Redirection.opens : Redirection α → Prop
  | file _ _ _ _ => True
  | here _ _ => True
  | dup fd dupfd => dupfd ≠ none ∧ dupfd ≠ some fd.val

/-- The saved descriptors are open, lie behind the ten of the user and are not shared. -/
structure Saved (renamed : Fin 10 → Option Nat) (files : Nat → Option α) : Prop where
  high : ∀ i saved, renamed i = some saved → 10 ≤ saved
  opened : ∀ i saved, renamed i = some saved → (files saved).isSome
  apart : ∀ i j saved, renamed i = some saved → renamed j = some saved → i = j

def undo (renamed : Fin 10 → Option Nat) (files : Nat → Option α) (fd : Nat) : Option α :=
  if low : fd < 10 then
    match renamed ⟨fd,low⟩ with
    | some saved => files saved
    | none => files fd
  else if ∃ i, renamed i = some fd then none else files fd

variable {renamed : Fin 10 → Option Nat} {i : Fin 10}

variable {files : Nat → Option α} {saved : Nat}

theorem undo_renamed (there : renamed i = some saved) : undo renamed files i = files saved := by
  simp [undo,there]

theorem undo_kept (there : renamed i = none) : undo renamed files i = files i := by
  simp [undo,there]

theorem undo_high (high : 10 ≤ fd) :
    undo renamed files fd = if ∃ i, renamed i = some fd then none else files fd := by
  simp [undo,Nat.not_lt.mpr high]

theorem files_ext {before after : Nat → Option α} (low : ∀ i : Fin 10, before i = after i)
    (high : ∀ fd, 10 ≤ fd → before fd = after fd) : before = after := by
  funext fd
  rcases Nat.lt_or_ge fd 10 with inside | outside
  · exact low ⟨fd,inside⟩
  · exact high fd outside

theorem undo_empty (files : Nat → Option α) : undo (fun _ => none) files = files := by
  funext fd
  simp [undo]

/-- Descriptors that were open stay as they were, and of the closed ones just the targets
have been opened. -/
structure Leaks (targets : Fin 10 → Prop) (before after : Nat → Option α) : Prop where
  kept : ∀ fd, (before fd).isSome ∨ 10 ≤ fd → after fd = before fd
  opened : ∀ i : Fin 10, before i = none → ((after i).isSome ↔ targets i)

theorem Leaks.refl (files : Nat → Option α) : Leaks (fun _ => False) files files :=
  ⟨fun _ _ => rfl,fun i closed => by simp [closed]⟩

theorem Leaks.trans (left : Leaks first a b) (right : Leaks second b c) : Leaks (fun i => first i ∨ second i) a c := by
  constructor
  · intro fd known
    have same := left.kept fd known
    rw [← same] at known ⊢
    exact right.kept fd known
  · intro i closed
    have opened := left.opened i closed
    cases middle : b i with
    | none => simp [← opened,middle,right.opened i middle]
    | some file =>
      have same := right.kept i (Or.inl (by simp [middle]))
      simp [← opened,middle,same]

variable {targets : Fin 10 → Prop}

theorem Leaks.congr (leaks : Leaks targets a b) (same : ∀ i, targets i ↔ others i) : Leaks others a b :=
  ⟨leaks.kept,fun i closed => (leaks.opened i closed).trans (same i)⟩

variable {fd : Fin 10}

theorem leaks_update (closed : files fd = none) (file : Option α) :
    Leaks (fun i => file.isSome ∧ fd = i) files (Function.update files fd file) := by
  constructor
  · intro other known
    apply update_of_ne
    rintro rfl
    rcases known with live | high
    · simp [closed] at live
    · exact absurd fd.isLt (Nat.not_lt.mpr high)
  · intro i closedI
    by_cases same : fd = i
    · subst same
      simp
    · have apart : (i : Nat) ≠ fd := fun eq => same (Fin.ext eq.symm)
      simp [update_of_ne apart,closedI,same]

/-- Once a descriptor is saved, what happens to it does not matter. -/
theorem undo_update_renamed (saves : Saved renamed files) (there : renamed fd = some saved) (file : Option α) :
    undo renamed (Function.update files fd file) = undo renamed files := by
  refine files_ext (fun i => ?_) fun other high => ?_
  · cases here : renamed i with
    | some place =>
      have high := saves.high i place here
      rw [undo_renamed here,undo_renamed here,update_of_ne (by omega)]
    | none =>
      have apart : (i : Nat) ≠ fd := by
        intro eq
        rw [Fin.ext eq,there] at here
        cases here
      rw [undo_kept here,undo_kept here,update_of_ne apart]
  · rw [undo_high high,undo_high high,update_of_ne (by omega)]

theorem undo_update_kept (saves : Saved renamed files) (there : renamed fd = none) (file : Option α) :
    undo renamed (Function.update files fd file) = Function.update (undo renamed files) fd file := by
  refine files_ext (fun i => ?_) fun other high => ?_
  · cases here : renamed i with
    | some place =>
      have high := saves.high i place here
      have apart : (i : Nat) ≠ fd := by
        intro eq
        rw [Fin.ext eq,there] at here
        cases here
      rw [update_of_ne apart,undo_renamed here,undo_renamed here,update_of_ne (by omega)]
    | none => simp only [undo_kept here,update_apply]
  · rw [undo_high high,update_of_ne (by omega),update_of_ne (by omega),undo_high high]

theorem Saved.update (saves : Saved renamed files)
    (fd : Fin 10) (file : Option α) : Saved renamed (Function.update files fd file) := by
  refine ⟨saves.high,?_,saves.apart⟩
  intro i saved there
  have high := saves.high i saved there
  rw [update_of_ne (by omega)]
  exact saves.opened i saved there

theorem Saved.drop (saves : Saved renamed files) (there : renamed i = some saved) (file : Option α) :
    Saved (Function.update renamed i none) (Function.update (Function.update files i file) saved none) := by
  have others : ∀ {j place}, Function.update renamed i none j = some place → j ≠ i ∧ renamed j = some place := by
    intro j place here
    by_cases own : j = i
    · simp [own] at here
    · exact ⟨own,by rwa [update_of_ne own] at here⟩
  refine ⟨fun j place here => saves.high j place (others here).2,?_,
    fun j k place hereJ hereK => saves.apart j k place (others hereJ).2 (others hereK).2⟩
  intro j place here
  obtain ⟨own,here⟩ := others here
  have apart : place ≠ saved := by
    rintro rfl
    exact own (saves.apart j i place here there)
  rw [update_of_ne apart]
  exact (saves.update i file).opened j place here

theorem undo_save (saves : Saved renamed files) (empty : renamed fd = none) (there : files fd = some old)
    (high : 10 ≤ place) (free : files place = none) :
    Saved (Function.update renamed fd (some place)) (Function.update files place (some old)) ∧
      undo (Function.update renamed fd (some place)) (Function.update files place (some old)) =
        undo renamed files := by
  have unused : ∀ i, renamed i ≠ some place := by
    intro i used
    simpa [free] using saves.opened i place used
  have who : ∀ i saved, Function.update renamed fd (some place) i = some saved ↔
      i = fd ∧ saved = place ∨ renamed i = some saved := by
    intro i saved
    by_cases own : i = fd
    · simp [own,empty,eq_comm]
    · simp [own]
  constructor
  · refine ⟨fun i saved here => ?_,fun i saved here => ?_,fun i j saved hereI hereJ => ?_⟩
    · rcases (who i saved).mp here with ⟨_,rfl⟩ | here
      · exact high
      · exact saves.high i saved here
    · rcases (who i saved).mp here with ⟨_,rfl⟩ | here
      · simp
      · have apart : saved ≠ place := fun same => unused i (same ▸ here)
        rw [update_of_ne apart]
        exact saves.opened i saved here
    · rcases (who i saved).mp hereI with ⟨ownI,rfl⟩ | hereI <;> rcases (who j _).mp hereJ with ⟨ownJ,same⟩ | hereJ
      · exact ownI.trans ownJ.symm
      · exact absurd hereJ (unused j)
      · exact absurd (same ▸ hereI) (unused i)
      · exact saves.apart i j saved hereI hereJ
  · refine files_ext (fun i => ?_) fun other high => ?_
    · by_cases own : i = fd
      · subst own
        rw [undo_renamed (update_self ..),undo_kept empty,update_self,there]
      have same : Function.update renamed fd (some place) i = renamed i := update_of_ne own ..
      cases here : renamed i with
      | some saved =>
        have apart : saved ≠ place := fun eq => unused i (eq ▸ here)
        rw [undo_renamed (same.trans here),undo_renamed here,update_of_ne apart]
      | none => rw [undo_kept (same.trans here),undo_kept here,update_of_ne (by omega)]
    · rw [undo_high high,undo_high high]
      by_cases same : other = place
      · subst same
        rw [if_pos ⟨fd,update_self ..⟩,if_neg (by simpa using unused),free]
      rw [update_of_ne same]
      simp only [who,same,and_false,false_or]

/-- All that a redirection of `fd` can do: `new` is what it refers to afterwards. -/
inductive Moves (renamed : Fin 10 → Option Nat) (files : Nat → Option α) (fd : Fin 10) (new : Option α) :
    (Fin 10 → Option Nat) → (Nat → Option α) → Prop
  | saved (old : α) (place : Nat) (empty : renamed fd = none) (there : files fd = some old) (high : 10 ≤ place)
      (free : files place = none) :
      Moves renamed files fd new (Function.update renamed fd (some place))
        (Function.update (Function.update files place (some old)) fd new)
  | closed (empty : renamed fd = none) (there : files fd = none) :
      Moves renamed files fd new renamed (Function.update files fd new)
  | again (saved : Nat) (full : renamed fd = some saved) :
      Moves renamed files fd new renamed (Function.update files fd new)

theorem leaks_of_same (live : (files fd).isSome) (new : Option α) :
    Leaks (fun i => new.isSome ∧ fd = i) files files := by
  refine ⟨fun _ _ => rfl,?_⟩
  intro i closed
  have apart : fd ≠ i := by
    rintro rfl
    simp [closed] at live
  simp [closed,apart]

variable {after : Fin 10 → Option Nat}

theorem Moves.undone {next : Nat → Option α}
    (moves : Moves renamed files fd new after next) (saves : Saved renamed files) :
    Saved after next ∧ Leaks (fun i => new.isSome ∧ fd = i) (undo renamed files) (undo after next) := by
  cases moves with
  | saved old place empty there high free =>
    obtain ⟨savesNext,same⟩ := undo_save saves empty there high free
    refine ⟨savesNext.update fd new,?_⟩
    rw [undo_update_renamed savesNext (update_self ..) new,same]
    exact leaks_of_same (by simp [undo_kept empty,there]) new
  | closed empty there =>
    refine ⟨saves.update fd new,?_⟩
    rw [undo_update_kept saves empty]
    exact leaks_update (by rw [undo_kept empty,there]) new
  | again saved full =>
    refine ⟨saves.update fd new,?_⟩
    rw [undo_update_renamed saves full]
    exact leaks_of_same (by rw [undo_renamed full]; exact saves.opened fd saved full) new

variable {redir : Redirection α}

variable {t next : Table α}

theorem openredirect_spec (opened : openredirect redir t = .ok (newfd,next)) :
    (∃ fd dupfd, redir = .dup fd dupfd ∧ newfd = none ∧ next = t) ∨
      ∃ f file, (∀ fd dupfd, redir ≠ .dup fd dupfd) ∧ newfd = some f ∧ t.files f = none ∧
        next.files = Function.update t.files f (some file) := by
  cases redir with
  | dup fd dupfd =>
    cases opened
    exact Or.inl ⟨fd,dupfd,rfl,rfl,rfl⟩
  | file kind fname fd file =>
    right
    simp only [openredirect] at opened
    split at opened
    · cases opened
    rename_i f later found
    cases opened
    obtain ⟨file,rfl,allocated⟩ := bind_eq_some_iff.mp found
    obtain ⟨_,free,shape,_⟩ := Table.allocate_spec allocated
    exact ⟨f,file,by simp,rfl,free,shape⟩
  | here fd ends =>
    right
    cases ends with
    | none => cases opened
    | some ends =>
      obtain ⟨reading,writing⟩ := ends
      simp only [openredirect,openhere] at opened
      cases first : t.allocate 0 reading with
      | none => simp [first,bind,Except.bind] at opened
      | some made =>
        obtain ⟨input,middle⟩ := made
        cases second : middle.allocate 0 writing with
        | none => simp [first,second,bind,Except.bind] at opened
        | some made =>
          obtain ⟨_,free,shape,_⟩ := Table.allocate_spec first
          obtain ⟨_,freeOutput,shapeOutput,_⟩ := Table.allocate_spec second
          simp only [first,second] at opened
          cases opened
          refine ⟨input,reading,by simp,rfl,free,?_⟩
          rw [Table.close_files,shapeOutput,update_idem,← shape,update_eq_self_iff,freeOutput]

theorem copyfd_spec (copied : copyfd source target t = .ok next) (free : t.files target = none) :
    ∃ file, t.files source = some file ∧ next.files = Function.update t.files target (some file) := by
  unfold copyfd at copied
  cases there : t.files source with
  | none => simp [Table.duplicate,there] at copied
  | some file =>
    by_cases inside : target < t.limit
    · obtain ⟨after,duplicated,shape,_⟩ := Table.duplicate_free there inside free
      rw [duplicated] at copied
      cases copied
      exact ⟨file,rfl,shape⟩
    · simp [Table.duplicate,there,inside] at copied

theorem save_moves (done : save renamed fd t = .ok (after,next)) : Moves renamed t.files fd none after next.files := by
  unfold save at done
  split at done
  · rename_i empty
    split at done
    · rename_i place middle duplicated
      obtain ⟨old,there,high,free,shape,_⟩ := Table.duplicate_spec duplicated
      cases done
      rw [Table.close_files,shape]
      exact .saved old place empty there high free
    · rename_i bad
      cases done
      have closed : t.files fd = none := by
        cases there : t.files fd with
        | none => rfl
        | some file =>
          simp only [Table.duplicate,there] at bad
          split at bad
          · split at bad <;> cases bad
          · cases bad
      have same : Function.update t.files fd none = t.files := by
        rw [update_eq_self_iff,closed]
      have moves : Moves renamed t.files fd none renamed (Function.update t.files fd none) := .closed empty closed
      rwa [same] at moves
    · cases done
  · rename_i full
    cases done
    obtain ⟨saved,there⟩ := ne_none_iff_exists'.mp full
    exact .again saved there

theorem Moves.fill {next : Nat → Option α} (moves : Moves renamed files fd none after next) (new : Option α) :
    Moves renamed files fd new after (Function.update next fd new) := by
  cases moves with
  | saved old place empty there high free =>
    rw [update_idem]
    exact .saved old place empty there high free
  | closed empty there =>
    rw [update_idem]
    exact .closed empty there
  | again saved full =>
    rw [update_idem]
    exact .again saved full

theorem Moves.target {next : Nat → Option α} (moves : Moves renamed files fd new after next) : next fd = new := by
  cases moves <;> simp

theorem Moves.temporary {next : Nat → Option α} {f : Nat} (apart : f ≠ fd) (free : files f = none)
    (moves : Moves renamed (Function.update files f (some file)) fd new after next) :
    next f = some file ∧ Moves renamed files fd new after (Function.update next f none) := by
  have back : Function.update files f none = files := by rw [update_eq_self_iff,free]
  cases moves with
  | saved old place empty there high freePlace =>
    have placeApart : place ≠ f := by
      rintro rfl
      simp at freePlace
    rw [update_of_ne apart.symm] at there
    rw [update_of_ne placeApart] at freePlace
    refine ⟨by simp [update_of_ne apart,update_of_ne placeApart.symm],?_⟩
    rw [update_comm apart.symm,update_comm placeApart,update_idem,back]
    exact .saved old place empty there high freePlace
  | closed empty there =>
    rw [update_of_ne apart.symm] at there
    refine ⟨by simp [update_of_ne apart],?_⟩
    rw [update_comm apart.symm,update_idem,back]
    exact .closed empty there
  | again saved full =>
    refine ⟨by simp [update_of_ne apart],?_⟩
    rw [update_comm apart.symm,update_idem,back]
    exact .again saved full

theorem redirectOne_moves (distinct : redir.same = false) (done : redirectOne redir renamed t = .ok (after,next))
    (saves : Saved renamed t.files) :
    ∃ new, (new.isSome ↔ redir.opens) ∧ Moves renamed t.files redir.fd new after next.files := by
  simp only [redirectOne,distinct,Bool.false_eq_true,if_false] at done
  obtain ⟨⟨newfd,middle⟩,opened,goes⟩ := bind_eq_ok done
  rcases openredirect_spec opened with ⟨fd,dupfd,rfl,rfl,rfl⟩ | ⟨f,file,other,rfl,free,shape⟩
  · obtain ⟨⟨kept,later⟩,saved,goes⟩ := bind_eq_ok goes
    obtain ⟨final,copied,goes⟩ := bind_eq_ok goes
    cases goes
    have moves := save_moves saved
    cases dupfd with
    | none =>
      cases copied
      exact ⟨none,by simp [Redirection.opens],moves⟩
    | some source =>
      obtain ⟨file,_,shape⟩ := copyfd_spec copied moves.target
      simp only [Redirection.same,decide_eq_false_iff_not] at distinct
      refine ⟨some file,by simpa [Redirection.opens] using distinct,?_⟩
      rw [shape]
      exact moves.fill (some file)
  · have opens : redir.opens := by
      cases redir with
      | dup fd dupfd => exact absurd rfl (other fd dupfd)
      | file => trivial
      | here => trivial
    refine ⟨some file,by simp [opens],?_⟩
    by_cases own : f = redir.fd
    · cases (if_pos (congrArg some own)).symm.trans goes
      subst own
      rw [shape]
      cases place : renamed redir.fd with
      | none => exact .closed place free
      | some saved => exact .again saved place
    · rw [if_neg (by simpa using own)] at goes
      obtain ⟨⟨kept,later⟩,saved,goes⟩ := bind_eq_ok goes
      obtain ⟨final,moved,goes⟩ := bind_eq_ok goes
      cases goes
      have moves := save_moves saved
      rw [shape] at moves
      obtain ⟨live,moves'⟩ := moves.temporary own free
      have step : dupredirect redir (some f) later = copyfd f redir.fd later >>= fun t => .ok (t.close f) := by
        cases redir with
        | dup fd dupfd => exact absurd rfl (other fd dupfd)
        | file => simp only [dupredirect,own,if_false]; rfl
        | here => simp only [dupredirect,own,if_false]; rfl
      obtain ⟨last,copied,closed⟩ := bind_eq_ok (step.symm.trans moved)
      cases closed
      obtain ⟨there,thereIs,result⟩ := copyfd_spec copied moves.target
      obtain rfl : there = file := mem_unique thereIs live
      rw [Table.close_files,result,update_comm (Ne.symm own)]
      exact moves'.fill (some there)

theorem redirectOne_leaks (done : redirectOne redir renamed t = .ok (after,next)) (saves : Saved renamed t.files) :
    Saved after next.files ∧
      Leaks (fun i => redir.opens ∧ redir.fd = i) (undo renamed t.files) (undo after next.files) := by
  cases distinct : redir.same with
  | true =>
    simp only [redirectOne,distinct,if_true,Except.ok.injEq,Prod.mk.injEq] at done
    obtain ⟨rfl,rfl⟩ := done
    have idle : ¬ redir.opens := by
      cases redir with
      | dup fd dupfd =>
        simp only [Redirection.same,decide_eq_true_eq] at distinct
        simp [Redirection.opens,distinct]
      | file => cases distinct
      | here => cases distinct
    exact ⟨saves,(Leaks.refl _).congr fun i => by simp [idle]⟩
  | false =>
    obtain ⟨new,opens,moves⟩ := redirectOne_moves distinct done saves
    obtain ⟨savesNext,leaks⟩ := moves.undone saves
    exact ⟨savesNext,leaks.congr fun i => by rw [opens]⟩

def Targets (list : List (Redirection α)) (i : Fin 10) : Prop := ∃ redir ∈ list, redir.opens ∧ redir.fd = i

variable {list : List (Redirection α)}

theorem redirectLoop_leaks (done : redirectLoop list renamed t = .ok (after,next)) (saves : Saved renamed t.files) :
    Saved after next.files ∧ Leaks (Targets list) (undo renamed t.files) (undo after next.files) := by
  induction list generalizing renamed t with
  | nil =>
    cases done
    exact ⟨saves,(Leaks.refl _).congr fun i => by simp [Targets]⟩
  | cons redir list ih =>
    obtain ⟨⟨kept,middle⟩,turn,done⟩ := bind_eq_ok done
    obtain ⟨savesNext,first⟩ := redirectOne_leaks turn saves
    obtain ⟨savesLast,others⟩ := ih done savesNext
    exact ⟨savesLast,(first.trans others).congr fun i => by simp [Targets]⟩

theorem restore_spec (saves : Saved renamed t.files) (i : Fin 10) :
    ∃ next, restore false renamed t i = .ok next ∧ Saved (Function.update renamed i none) next.files ∧
      undo (Function.update renamed i none) next.files = undo renamed t.files := by
  cases there : renamed i with
  | none =>
    have same : Function.update renamed i none = renamed := by rw [update_eq_self_iff,there]
    exact ⟨t,by simp [restore,there],by rwa [same],by rw [same]⟩
  | some saved =>
    have high := saves.high i saved there
    obtain ⟨file,live⟩ := isSome_iff_exists.mp (saves.opened i saved there)
    have inside : (i : Nat) < (t.close i).limit := by
      have := Table.lt_limit live
      rw [Table.close_limit]
      omega
    have there' : (t.close i).files saved = some file := by
      rw [Table.close_files,update_of_ne (by omega),live]
    have free : (t.close i).files i = none := by rw [Table.close_files,update_self]
    obtain ⟨middle,duplicated,shape,_⟩ := Table.duplicate_free there' inside free
    have files : (middle.close saved).files = Function.update (Function.update t.files i (some file)) saved none := by
      rw [Table.close_files,shape,Table.close_files,update_idem]
    have savesNext := saves.drop there (some file)
    rw [← files] at savesNext
    have apart : (i : Nat) ≠ saved := by omega
    have source : (middle.close saved).files i = some file := by
      rw [files,update_of_ne apart,update_self]
    have empty : (middle.close saved).files saved = none := by rw [files,update_self]
    -- saving the descriptor once more leads back
    obtain ⟨_,same⟩ := undo_save savesNext (update_self ..) source high empty
    refine ⟨middle.close saved,?_,savesNext,?_⟩
    · simp [restore,there,copyfd,duplicated,bind,Except.bind,pure,Except.pure]
    have kept : Function.update t.files i (some file) saved = some file := by
      rw [update_of_ne apart.symm,live]
    rw [← same,files,update_idem,update_eq_self_iff.mpr there.symm,update_idem,
      update_eq_self_iff.mpr kept.symm,undo_update_renamed saves there]

/-- The descriptors that are still to be put back when the loop is at `list`. -/
def remaining (list : List (Fin 10)) (renamed : Fin 10 → Option Nat) (i : Fin 10) : Option Nat :=
  if i ∈ list then renamed i else none

theorem restore_all {list : List (Fin 10)} (distinct : list.Nodup) (saves : Saved (remaining list renamed) t.files) :
    ∃ next, list.foldlM (restore false renamed) t = .ok next ∧ next.files = undo (remaining list renamed) t.files := by
  induction list generalizing t with
  | nil =>
    have empty : remaining [] renamed = fun _ => none := by
      funext i
      simp [remaining]
    exact ⟨t,rfl,by rw [empty,undo_empty]⟩
  | cons i list ih =>
    obtain ⟨fresh,distinct⟩ := nodup_cons.mp distinct
    obtain ⟨middle,done,savesNext,same⟩ := restore_spec saves i
    have here : restore false renamed t i = .ok middle := by
      rw [← done]
      simp [restore,remaining]
    have shrinks : Function.update (remaining (i :: list) renamed) i none = remaining list renamed := by
      funext j
      by_cases own : j = i
      · simp [own,remaining,fresh]
      · simp [own,remaining]
    rw [shrinks] at savesNext same
    obtain ⟨next,rest,files⟩ := ih distinct savesNext
    refine ⟨next,?_,files.trans same⟩
    simp [foldlM_cons,here,rest,bind,Except.bind]

variable {shell : Shell α}

theorem popredir_restores (real : shell.nullredirs = 0) (top : shell.redirlist = rp :: rest)
    (saves : Saved rp.renamed shell.fds.files) :
    ∃ t, popredir false shell = .ok (some ⟨t,rest,rp.nullredirs⟩) ∧ t.files = undo rp.renamed shell.fds.files := by
  have everything : remaining (List.finRange 10) rp.renamed = rp.renamed := by
    funext i
    simp [remaining]
  obtain ⟨t,done,files⟩ := restore_all (nodup_finRange 10) (everything ▸ saves)
  rw [everything] at files
  refine ⟨t,?_,files⟩
  simp only [popredir,real,top,done,bind,Except.bind,pure,Except.pure]

/-- Properly nested pairs of `redirect` and `popredir`, one after the other. -/
inductive Pairs (α : Type) where
  | nil
  | pair (list : List (Redirection α)) (inside rest : Pairs α)

def Pairs.run : Pairs α → Shell α → Except String (Option (Shell α))
  | nil,shell => .ok (some shell)
  | pair list inside rest,shell => do
    let shell ← redirect list shell
    let some shell ← inside.run shell | return none
    let some shell ← popredir false shell | return none
    rest.run shell

def Pairs.redirections : Pairs α → List (Redirection α)
  | nil => []
  | pair list inside rest => list ++ inside.redirections ++ rest.redirections

theorem Targets.append :
    Targets (first ++ second) i ↔ Targets first i ∨ Targets second i := by
  simp only [Targets,mem_append,or_and_right,exists_or]

/-- What happens to the open descriptors and to closed ones between the two calls does not
depend on how the saved ones are put back. -/
theorem Leaks.undo {next : Nat → Option α} (leaks : Leaks targets files next) (saves : Saved renamed files) :
    Saved renamed next ∧ Leaks targets (Ash.undo renamed files) (Ash.undo renamed next) := by
  have same : ∀ i saved, renamed i = some saved → next saved = files saved := fun i saved there =>
    leaks.kept saved (Or.inl (saves.opened i saved there))
  refine ⟨⟨saves.high,?_,saves.apart⟩,?_,?_⟩
  · intro i saved there
    rw [same i saved there]
    exact saves.opened i saved there
  · intro fd known
    by_cases low : fd < 10
    · obtain ⟨i,rfl⟩ : ∃ i : Fin 10, fd = i := ⟨⟨fd,low⟩,rfl⟩
      cases there : renamed i with
      | some saved => rw [undo_renamed there,undo_renamed there,same i saved there]
      | none =>
        rw [undo_kept there] at known ⊢
        rw [undo_kept there]
        exact leaks.kept i known
    · have high : 10 ≤ fd := by omega
      rw [undo_high high,undo_high high,leaks.kept fd (Or.inr high)]
  · intro i closed
    cases there : renamed i with
    | some saved =>
      rw [undo_renamed there] at closed
      simpa [closed] using saves.opened i saved there
    | none =>
      rw [undo_kept there] at closed ⊢
      exact leaks.opened i closed

/-- What a state keeps of another around nested pairs. -/
structure Around (targets : Fin 10 → Prop) (before after : Shell α) : Prop where
  files : Leaks targets before.fds.files after.fds.files
  redirlist : after.redirlist = before.redirlist
  nullredirs : after.nullredirs = before.nullredirs

theorem pair_around {pushed inner : Shell α}
    (succeeds : redirect list shell = .ok pushed) (between : Around targets pushed inner) :
    ∃ final, popredir false inner = .ok (some final) ∧
      Around (fun i => Targets list i ∨ targets i) shell final := by
  cases list with
  | nil =>
    cases succeeds
    obtain ⟨fds,redirlist,nullredirs⟩ := inner
    obtain rfl : redirlist = shell.redirlist := between.redirlist
    obtain rfl : nullredirs = shell.nullredirs + 1 := between.nullredirs
    refine ⟨⟨fds,shell.redirlist,shell.nullredirs⟩,rfl,?_,rfl,rfl⟩
    exact between.files.congr fun i => by simp [Targets]
  | cons redir list =>
    obtain ⟨⟨renamed,t⟩,loop,succeeds⟩ := bind_eq_ok succeeds
    cases succeeds
    have fresh : Saved (fun _ => none) shell.fds.files := ⟨by simp,by simp,by simp⟩
    obtain ⟨saves,leaks⟩ := redirectLoop_leaks loop fresh
    rw [undo_empty] at leaks
    obtain ⟨savesInner,leaksInner⟩ := between.files.undo saves
    obtain ⟨last,done,files⟩ := popredir_restores between.nullredirs between.redirlist savesInner
    exact ⟨_,done,by rw [files]; exact leaks.trans leaksInner,rfl,rfl⟩

theorem run_around {pairs : Pairs α} (ran : pairs.run shell = .ok (some final)) :
    Around (Targets pairs.redirections) shell final := by
  induction pairs generalizing shell final with
  | nil =>
    cases ran
    exact ⟨(Leaks.refl _).congr fun i => by simp [Targets,Pairs.redirections],rfl,rfl⟩
  | pair list inside rest ihInside ihRest =>
    obtain ⟨pushed,succeeds,ran⟩ := bind_eq_ok ran
    obtain ⟨inner,middle,ran⟩ := bind_eq_ok ran
    cases inner with
    | none => cases ran
    | some inner =>
      obtain ⟨closed,popped,pair⟩ := pair_around succeeds (ihInside middle)
      simp only [popped] at ran
      have others := ihRest ran
      refine ⟨?_,others.redirlist.trans pair.redirlist,others.nullredirs.trans pair.nullredirs⟩
      refine (pair.files.trans others.files).congr fun i => ?_
      simp only [Pairs.redirections,Targets.append]

/-- A pair of `redirect` and `popredir` with anything properly nested between them undoes
all of its redirections just if none of them, nor of the nested ones, opens a descriptor that
was closed. -/
theorem redirections_undone (list : List (Redirection α)) (inside : Pairs α) (shell pushed inner : Shell α)
    (succeeds : redirect list shell = .ok pushed) (nested : inside.run pushed = .ok (some inner)) :
    ∃ final, popredir false inner = .ok (some final) ∧
      (((∀ fd : Fin 10, final.fds.files fd = shell.fds.files fd) ∧
          ∀ fd, 10 ≤ fd → final.fds.files fd = shell.fds.files fd) ↔
        ∀ redir ∈ list ++ inside.redirections, redir.opens → (shell.fds.files redir.fd).isSome) := by
  obtain ⟨final,popped,around⟩ := pair_around succeeds (run_around nested)
  have leaks := around.files.congr fun i =>
    (Targets.append : Targets (list ++ inside.redirections) i ↔ _).symm
  refine ⟨final,popped,?_,?_⟩
  · rintro ⟨low,_⟩ redir listed opens
    by_contra closed
    rw [not_isSome_iff_eq_none] at closed
    have opened := (leaks.opened redir.fd closed).mpr ⟨redir,listed,opens,rfl⟩
    simp [low,closed] at opened
  · intro targets
    refine ⟨?_,fun fd high => leaks.kept fd (Or.inr high)⟩
    intro fd
    cases before : shell.fds.files fd with
    | some file =>
      rw [← before]
      exact leaks.kept fd (Or.inl (by simp [before]))
    | none =>
      rw [← not_isSome_iff_eq_none,leaks.opened fd before]
      rintro ⟨redir,listed,opens,rfl⟩
      simpa [before] using targets redir listed opens

def sampleShell : Shell Nat :=
  ⟨⟨fun fd => if fd < 3 then some fd else none,64,by intro fd far; simp; omega⟩,[],0⟩

def sampleList : List (Redirection Nat) := [.file .nto "out" 1 (some 7),.dup 2 (some 1)]

def sampleInside : Pairs Nat := .pair [.file .nfrom "in" 0 (some 8)] .nil .nil

def samplePushed : Shell Nat := (redirect sampleList sampleShell).toOption.getD sampleShell

def sampleInner : Shell Nat := ((sampleInside.run samplePushed).toOption.getD none).getD sampleShell

theorem redirections_undone_sample :
    samplePushed.fds.files 2 = some 7 ∧
      ∃ final, popredir false sampleInner = .ok (some final) ∧
        ∀ fd : Fin 10, final.fds.files fd = sampleShell.fds.files fd := by
  refine ⟨rfl,?_⟩
  obtain ⟨final,popped,restores⟩ :=
    redirections_undone sampleList sampleInside sampleShell samplePushed sampleInner rfl rfl
  refine ⟨final,popped,(restores.mpr ?_).1⟩
  simp [sampleList,sampleInside,Pairs.redirections,Redirection.fd,sampleShell]

/-- `3>out` with descriptor 3 closed: `popredir` leaves it open. -/
theorem closed_descriptor_leaks :
    ∃ pushed final, redirect [.file .nto "out" 3 (some 7)] sampleShell = .ok pushed ∧
      popredir false pushed = .ok (some final) ∧ sampleShell.fds.files 3 = none ∧ final.fds.files 3 = some 7 :=
  ⟨_,_,rfl,rfl,rfl,rfl⟩

end Stablebox.Ash
