import Stablebox.Networking.Httpd
import Stablebox.Lib.Runs

/-! What the authorisation of httpd lets through. The list of lines against the lines of the
configuration files, and `checkPerm` against the longest path that covers the request. -/
namespace Stablebox.Httpd

open Libbb List

def Higher (a b : Htaccess) : Prop := a.beforeColon.length ≥ b.beforeColon.length

instance : DecidableRel Higher := fun a b => inferInstanceAs (Decidable (a.beforeColon.length ≥ b.beforeColon.length))

instance : Std.Total Higher := ⟨fun _ _ => Nat.le_total _ _⟩

instance : IsTrans Htaccess Higher := ⟨fun _ _ _ first second => Nat.le_trans second first⟩

theorem insertIdx_found (cur : Htaccess) (list : List Htaccess) (i : Nat)
    (found : list.findIdx? (fun hti => cur.beforeColon.length ≥ hti.beforeColon.length) = some i) :
    list.insertIdx i cur = list.orderedInsert Higher cur := by
  induction list generalizing i with
  | nil => simp at found
  | cons hti list ih =>
    rw [findIdx?_cons] at found
    by_cases here : cur.beforeColon.length ≥ hti.beforeColon.length
    · simp only [here,decide_true,if_true,Option.some.injEq] at found
      subst found
      simp [Higher,here]
    · simp only [here,decide_false,Bool.false_eq_true,if_false,Option.map_eq_some_iff] at found
      obtain ⟨j,later,rfl⟩ := found
      simp [Higher,here,ih j later]

/-- All that inserting a line can do to the list. -/
inductive Inserts (cur : Htaccess) (auth : Auth) : Auth → Prop
  | first (empty : auth.prev = none) : Inserts cur auth ⟨[cur],some 0⟩
  | sorted (prev i : Nat) (place : auth.prev = some prev)
      (found : auth.list.findIdx? (fun hti => cur.beforeColon.length ≥ hti.beforeColon.length) = some i) :
      Inserts cur auth ⟨auth.list.insertIdx i cur,some (if i ≤ prev then prev + 1 else prev)⟩
  | bottom (prev : Nat) (place : auth.prev = some prev)
      (shorter : ∀ hti ∈ auth.list, cur.beforeColon.length < hti.beforeColon.length) :
      Inserts cur auth ⟨auth.list.take (prev + 1) ++ [cur],some (prev + 1)⟩

theorem insert_inserts (cur : Htaccess) (auth : Auth) : Inserts cur auth (auth.insert cur) := by
  unfold Auth.insert
  split
  · rename_i empty
    exact .first empty
  rename_i prev place
  split
  · rename_i i found
    exact .sorted prev i place found
  rename_i missing
  refine .bottom prev place ?_
  intro hti listed
  have not := findIdx?_eq_none_iff.mp missing hti listed
  simpa using not

variable {auth : Auth}

variable {next : Auth}

theorem Inserts.sorted_list (inserts : Inserts cur auth next)
    (ordered : auth.list.Pairwise Higher) : next.list.Pairwise Higher := by
  cases inserts with
  | first => simp
  | sorted prev i place found =>
    rw [insertIdx_found cur auth.list i found]
    exact List.Pairwise.orderedInsert cur auth.list ordered
  | bottom prev place shorter =>
    rw [pairwise_append]
    refine ⟨ordered.sublist (take_sublist _ _),by simp,?_⟩
    intro hti listed other last
    obtain rfl := mem_singleton.mp last
    exact Nat.le_of_lt (shorter hti (mem_of_mem_take listed))

def Auth.Placed (auth : Auth) : Prop :=
  (auth.prev = none ∧ auth.list = []) ∨ ∃ prev, auth.prev = some prev ∧ prev < auth.list.length

def Auth.Tail (auth : Auth) : Prop :=
  (auth.prev = none ∧ auth.list = []) ∨ auth.prev = some (auth.list.length - 1) ∧ auth.list ≠ []

variable {list : List Htaccess}

theorem found_lt (found : list.findIdx? (fun hti => cur.beforeColon.length ≥ hti.beforeColon.length) = some i) :
    i < list.length ∧ (list.insertIdx i cur).length = list.length + 1 := by
  have inside := (findIdx?_eq_some_iff_getElem.mp found).1
  exact ⟨inside,by rw [length_insertIdx,if_pos (by omega)]⟩

theorem Inserts.of_tail (inserts : Inserts cur auth next) (tail : auth.Tail) :
    next.list.Perm (cur :: auth.list) ∧ next.Tail := by
  cases inserts with
  | first empty =>
    have nothing : auth.list = [] := by
      rcases tail with ⟨_,nothing⟩ | ⟨place,_⟩
      · exact nothing
      · cases empty.symm.trans place
    exact ⟨by rw [nothing],Or.inr ⟨rfl,by simp⟩⟩
  | sorted prev i place found =>
    obtain ⟨inside,length⟩ := found_lt found
    have last : prev = auth.list.length - 1 := by
      rcases tail with ⟨empty,_⟩ | ⟨there,_⟩
      · cases place.symm.trans empty
      · exact Option.mem_unique place there
    refine ⟨perm_insertIdx cur auth.list (by omega),Or.inr ⟨?_,?_⟩⟩
    · have shape : (if i ≤ prev then prev + 1 else prev) = (auth.list.insertIdx i cur).length - 1 := by
        rw [length,if_pos (by omega)]
        omega
      exact congrArg some shape
    · rw [Ne,← length_eq_zero_iff,length]
      omega
  | bottom prev place shorter =>
    have last : prev + 1 = auth.list.length := by
      rcases tail with ⟨empty,_⟩ | ⟨there,more⟩
      · cases place.symm.trans empty
      have := Option.mem_unique place there
      have := length_pos_iff.mpr more
      omega
    rw [last,take_length]
    refine ⟨perm_append_singleton cur auth.list,Or.inr ⟨?_,by simp⟩⟩
    simp

variable {prev : Nat}

theorem Inserts.of_inner (inserts : Inserts cur auth next)
    (place : auth.prev = some prev) (inner : prev + 1 < auth.list.length)
    (higher : ∃ hti ∈ auth.list, hti.beforeColon.length ≤ cur.beforeColon.length) :
    next.list.Perm (cur :: auth.list) ∧ ∃ later, next.prev = some later ∧ later + 1 < next.list.length := by
  cases inserts with
  | first empty =>
    cases place.symm.trans empty
  | sorted before i there found =>
    obtain ⟨inside,length⟩ := found_lt found
    obtain rfl : before = prev := Option.mem_unique there place
    refine ⟨perm_insertIdx cur auth.list (by omega),_,rfl,?_⟩
    rw [length]
    split <;> omega
  | bottom before there shorter =>
    obtain ⟨hti,listed,low⟩ := higher
    have := shorter hti listed
    omega

/-- A line that is shorter than all cuts off what is behind `prev`. -/
theorem Inserts.of_lost (inserts : Inserts cur auth next)
    (place : auth.prev = some prev) (inner : prev + 1 < auth.list.length)
    (lowest : ¬ ∃ hti ∈ auth.list, hti.beforeColon.length ≤ cur.beforeColon.length) :
    next.list.length < auth.list.length + 1 := by
  cases inserts with
  | first empty =>
    cases place.symm.trans empty
  | sorted before i there found =>
    obtain ⟨inside,high,_⟩ := findIdx?_eq_some_iff_getElem.mp found
    exact absurd ⟨_,getElem_mem inside,by simpa using high⟩ lowest
  | bottom before there shorter =>
    obtain rfl : before = prev := Option.mem_unique there place
    simp only [length_append,length_take,length_singleton]
    omega

theorem Auth.Placed.prev_lt {prev : Nat} (placed : auth.Placed) (place : auth.prev = some prev) :
    prev < auth.list.length := by
  rcases placed with ⟨empty,_⟩ | ⟨other,there,bound⟩
  · cases place.symm.trans empty
  · rwa [Option.mem_unique place there]

theorem Inserts.placed (inserts : Inserts cur auth next) (placed : auth.Placed) :
    next.Placed ∧ next.list.length ≤ auth.list.length + 1 := by
  cases inserts with
  | first empty => exact ⟨Or.inr ⟨0,rfl,by simp⟩,by simp⟩
  | sorted prev i place found =>
    obtain ⟨inside,length⟩ := found_lt found
    have before := placed.prev_lt place
    refine ⟨Or.inr ⟨_,rfl,?_⟩,by rw [length]⟩
    rw [length]
    split <;> omega
  | bottom prev place shorter =>
    have before := placed.prev_lt place
    refine ⟨Or.inr ⟨_,rfl,?_⟩,?_⟩
    · simp only [length_append,length_take,length_singleton]
      omega
    · simp only [length_append,length_take,length_singleton]
      omega

theorem Inserts.mem (inserts : Inserts cur auth next) (listed : hti ∈ next.list) : hti = cur ∨ hti ∈ auth.list := by
  cases inserts with
  | first => simpa using Or.inl listed
  | sorted prev i place found => exact (mem_insertIdx (Nat.le_of_lt (found_lt found).1)).mp listed
  | bottom prev place shorter =>
    rcases mem_append.mp listed with front | last
    · exact Or.inr (mem_of_mem_take front)
    · exact Or.inl (mem_singleton.mp last)

def Auth.insertAll (auth : Auth) (nodes : List Htaccess) : Auth := nodes.foldl Auth.insert auth

theorem insertAll_cons (auth : Auth) (cur : Htaccess) (nodes : List Htaccess) :
    auth.insertAll (cur :: nodes) = (auth.insert cur).insertAll nodes := rfl

variable (nodes : List Htaccess)

theorem insertAll_sorted (ordered : auth.list.Pairwise Higher) : (auth.insertAll nodes).list.Pairwise Higher := by
  induction nodes generalizing auth with
  | nil => exact ordered
  | cons cur nodes ih => exact ih ((insert_inserts cur auth).sorted_list ordered)

theorem insertAll_mem {nodes : List Htaccess}
    (listed : hti ∈ (auth.insertAll nodes).list) : hti ∈ nodes ∨ hti ∈ auth.list := by
  induction nodes generalizing auth with
  | nil => exact Or.inr listed
  | cons cur nodes ih =>
    rcases ih listed with later | before
    · exact Or.inl (.tail _ later)
    rcases (insert_inserts cur auth).mem before with rfl | before
    · exact Or.inl (mem_cons_self ..)
    · exact Or.inr before

theorem insertAll_length (placed : auth.Placed) :
    (auth.insertAll nodes).list.length ≤ auth.list.length + nodes.length := by
  induction nodes generalizing auth with
  | nil => exact le_rfl
  | cons cur nodes ih =>
    obtain ⟨placedNext,length⟩ := (insert_inserts cur auth).placed placed
    have rest := ih placedNext
    rw [insertAll_cons,length_cons]
    omega

theorem insertAll_tail (tail : auth.Tail) : (auth.insertAll nodes).list.Perm (nodes ++ auth.list) := by
  induction nodes generalizing auth with
  | nil => exact List.Perm.refl _
  | cons cur nodes ih =>
    obtain ⟨same,tailNext⟩ := (insert_inserts cur auth).of_tail tail
    exact (ih tailNext).trans ((same.append_left nodes).trans perm_middle)

/-- Each path of a file is at least as long as one that is stored before it. -/
def Kept : (stored paths : List (List UInt8)) → Prop
  | _,[] => True
  | stored,path :: paths => (∃ other ∈ stored, other.length ≤ path.length) ∧ Kept (path :: stored) paths

theorem Kept.perm (same : first.Perm second) (kept : Kept first paths) : Kept second paths := by
  induction paths generalizing first second with
  | nil => trivial
  | cons path paths ih =>
    obtain ⟨⟨other,listed,low⟩,rest⟩ := kept
    exact ⟨⟨other,same.mem_iff.mp listed,low⟩,ih (same.cons path) rest⟩

theorem insertAll_inner (place : auth.prev = some prev) (inner : prev + 1 < auth.list.length) :
    (Kept (auth.list.map Htaccess.beforeColon) (nodes.map Htaccess.beforeColon) →
        (auth.insertAll nodes).list.Perm (nodes ++ auth.list)) ∧
      (¬ Kept (auth.list.map Htaccess.beforeColon) (nodes.map Htaccess.beforeColon) →
        (auth.insertAll nodes).list.length < auth.list.length + nodes.length) := by
  induction nodes generalizing auth prev with
  | nil => exact ⟨fun _ => List.Perm.refl _,fun lost => absurd trivial lost⟩
  | cons cur nodes ih =>
    have inserts := insert_inserts cur auth
    have stored : (∃ other ∈ auth.list.map Htaccess.beforeColon, other.length ≤ cur.beforeColon.length) ↔
        ∃ hti ∈ auth.list, hti.beforeColon.length ≤ cur.beforeColon.length := by simp
    by_cases higher : ∃ hti ∈ auth.list, hti.beforeColon.length ≤ cur.beforeColon.length
    · obtain ⟨same,later,placeNext,innerNext⟩ := inserts.of_inner place inner higher
      obtain ⟨keeps,loses⟩ := ih placeNext innerNext
      have paths : ((auth.insert cur).list.map Htaccess.beforeColon).Perm
          (cur.beforeColon :: auth.list.map Htaccess.beforeColon) := same.map _
      constructor
      · rintro ⟨_,rest⟩
        exact (keeps (rest.perm paths.symm)).trans ((same.append_left nodes).trans perm_middle)
      intro lost
      have length := loses fun rest => lost ⟨stored.mpr higher,rest.perm paths⟩
      have size := same.length_eq
      rw [insertAll_cons]
      simp only [length_cons] at size ⊢
      omega
    · have placed : auth.Placed := Or.inr ⟨prev,place,by omega⟩
      have length := inserts.of_lost place inner higher
      have rest := insertAll_length nodes (inserts.placed placed).1
      refine ⟨fun kept => absurd (stored.mp kept.1) higher,fun _ => ?_⟩
      rw [insertAll_cons,length_cons]
      omega

def ConfFile.entries (file : ConfFile) : List (List UInt8 × List UInt8) := file.lines.filterMap (parseLine file.path)

def configured (main : List (List UInt8)) (subdirs : List ConfFile) : List (List UInt8 × List UInt8) :=
  main.filterMap (parseLine []) ++ subdirs.flatMap ConfFile.entries

def nodeOf (entry : List UInt8 × List UInt8) : Htaccess := ⟨entry.1,entry.2⟩

theorem splitColon_some {s before after : List UInt8} :
    splitColon s = some (before,after) ↔ s = before ++ 58 :: after ∧ 58 ∉ before := by
  unfold splitColon
  constructor
  · intro split
    have whole := takeWhile_append_dropWhile (p := fun ch : UInt8 => decide (ch ≠ 58)) (l := s)
    have clean := all_takeWhile (p := fun ch : UInt8 => decide (ch ≠ 58)) (l := s)
    have head := head?_dropWhile_not (fun ch : UInt8 => decide (ch ≠ 58)) s
    cases rest : s.dropWhile fun ch => decide (ch ≠ 58) with
    | nil =>
      rw [rest] at split
      cases split
    | cons ch others =>
      rw [rest] at split whole head
      obtain ⟨rfl,rfl⟩ := split
      have colon : ch = 58 := by simpa using head
      rw [colon] at whole
      refine ⟨whole.symm,fun listed => ?_⟩
      simpa using all_eq_true.mp clean 58 listed
  · rintro ⟨rfl,free⟩
    rw [(Runs.until_first free _).1,(Runs.until_first free _).2]

theorem newNode_eq {entry : List UInt8 × List UInt8} (free : 58 ∉ entry.1) : newNode entry = nodeOf entry := by
  have split : splitColon (entry.1 ++ 58 :: entry.2) = some (entry.1,entry.2) := splitColon_some.mpr ⟨rfl,free⟩
  simp [newNode,split,nodeOf]

theorem newNode_free (entry : List UInt8 × List UInt8) : 58 ∉ (newNode entry).beforeColon := by
  unfold newNode
  split
  · simp
  · rename_i before after split
    exact (splitColon_some.mp split).2

theorem parseConf_eq (subdir : Bool) (path : List UInt8) (lines : List (List UInt8)) (list : List Htaccess) :
    parseConf subdir path lines list =
      (Auth.insertAll ⟨if subdir then list else [],
        if (if subdir then list else []).isEmpty then none else some 0⟩
        ((lines.filterMap (parseLine path)).map newNode)).list := by
  simp only [parseConf,Auth.insertAll,foldl_map]

def startAuth (list : List Htaccess) : Auth := ⟨list,if list.isEmpty then none else some 0⟩

theorem startAuth_placed (list : List Htaccess) : (startAuth list).Placed := by
  cases list with
  | nil => exact Or.inl ⟨rfl,rfl⟩
  | cons hti list => exact Or.inr ⟨0,rfl,by simp [startAuth]⟩

theorem startAuth_tail (short : list.length < 2) : (startAuth list).Tail := by
  match list, short with
  | [],_ => exact Or.inl ⟨rfl,rfl⟩
  | [hti],_ => exact Or.inr ⟨rfl,by simp [startAuth]⟩

theorem parseConf_main (lines : List (List UInt8)) (list : List Htaccess) :
    (parseConf false [] lines list).Perm ((lines.filterMap (parseLine [])).map newNode) := by
  rw [parseConf_eq]
  have start : Auth.Tail ⟨[],none⟩ := Or.inl ⟨rfl,rfl⟩
  simpa using insertAll_tail ((lines.filterMap (parseLine [])).map newNode) start

theorem parseConf_subdir (file : ConfFile) (list : List Htaccess) :
    parseConf true file.path file.lines list = ((startAuth list).insertAll (file.entries.map newNode)).list := by
  rw [parseConf_eq]
  rfl

/-- No file of a subdirectory that is read when two or more lines are stored has a path that
is shorter than all before it. -/
def AllKept : (stored : List (List UInt8)) → (files : List (List (List UInt8))) → Prop
  | _,[] => True
  | stored,file :: files => (2 ≤ stored.length → Kept stored file) ∧ AllKept (file ++ stored) files

theorem AllKept.perm (same : first.Perm second) (kept : AllKept first files) : AllKept second files := by
  induction files generalizing first second with
  | nil => trivial
  | cons file files ih =>
    refine ⟨fun many => (kept.1 ?_).perm same,ih (same.append_left file) kept.2⟩
    rwa [same.length_eq]

def parseSubdirs (subdirs : List ConfFile) (list : List Htaccess) : List Htaccess :=
  subdirs.foldl (fun list file => parseConf true file.path file.lines list) list

theorem parseSubdirs_cons (file : ConfFile) (subdirs : List ConfFile) (list : List Htaccess) :
    parseSubdirs (file :: subdirs) list =
      parseSubdirs subdirs ((startAuth list).insertAll (file.entries.map newNode)).list := by
  rw [← parseConf_subdir]
  rfl

theorem parseSubdirs_sorted (subdirs : List ConfFile) (ordered : list.Pairwise Higher) :
    (parseSubdirs subdirs list).Pairwise Higher := by
  induction subdirs generalizing list with
  | nil => exact ordered
  | cons file subdirs ih =>
    rw [parseSubdirs_cons]
    exact ih (insertAll_sorted _ ordered)

theorem parseSubdirs_mem {subdirs : List ConfFile} (listed : hti ∈ parseSubdirs subdirs list) :
    hti ∈ (subdirs.flatMap ConfFile.entries).map newNode ∨ hti ∈ list := by
  induction subdirs generalizing list with
  | nil => exact Or.inr listed
  | cons file subdirs ih =>
    rw [parseSubdirs_cons] at listed
    rw [flatMap_cons,map_append,mem_append]
    rcases ih listed with later | before
    · exact Or.inl (Or.inr later)
    rcases insertAll_mem before with own | before
    · exact Or.inl (Or.inl own)
    · exact Or.inr before

theorem parseSubdirs_length (subdirs : List ConfFile) (list : List Htaccess) :
    (parseSubdirs subdirs list).length ≤ list.length + (subdirs.flatMap ConfFile.entries).length := by
  induction subdirs generalizing list with
  | nil => simp [parseSubdirs]
  | cons file subdirs ih =>
    have rest := ih ((startAuth list).insertAll (file.entries.map newNode)).list
    have here := insertAll_length (file.entries.map newNode) (startAuth_placed list)
    rw [length_map] at here
    rw [parseSubdirs_cons,flatMap_cons,length_append]
    simp only [startAuth] at here rest ⊢
    omega

theorem subdir_kept (list : List Htaccess) :
    ((2 ≤ list.length → Kept (list.map Htaccess.beforeColon) (nodes.map Htaccess.beforeColon)) →
        ((startAuth list).insertAll nodes).list.Perm (nodes ++ list)) ∧
      (¬ (2 ≤ list.length → Kept (list.map Htaccess.beforeColon) (nodes.map Htaccess.beforeColon)) →
        ((startAuth list).insertAll nodes).list.length < list.length + nodes.length) := by
  by_cases many : 2 ≤ list.length
  · have place : (startAuth list).prev = some 0 := by
      cases list with
      | nil => simp at many
      | cons => rfl
    obtain ⟨keeps,loses⟩ := insertAll_inner nodes place (by simp only [startAuth]; omega)
    exact ⟨fun kept => keeps (kept many),fun lost => loses fun kept => lost fun _ => kept⟩
  · exact ⟨fun _ => insertAll_tail nodes (startAuth_tail (by omega)),
      fun lost => absurd (fun many' => absurd many' many) lost⟩

theorem parseSubdirs_kept (subdirs : List ConfFile) (stored : List (List UInt8 × List UInt8)) (list : List Htaccess)
    (same : list.Perm (stored.map nodeOf)) (free : ∀ entry ∈ subdirs.flatMap ConfFile.entries, 58 ∉ entry.1) :
    (AllKept (stored.map Prod.fst) (subdirs.map fun file => file.entries.map Prod.fst) →
        (parseSubdirs subdirs list).Perm ((stored ++ subdirs.flatMap ConfFile.entries).map nodeOf)) ∧
      (¬ AllKept (stored.map Prod.fst) (subdirs.map fun file => file.entries.map Prod.fst) →
        (parseSubdirs subdirs list).length < (stored ++ subdirs.flatMap ConfFile.entries).length) := by
  induction subdirs generalizing stored list with
  | nil => exact ⟨fun _ => by simpa [parseSubdirs] using same,fun lost => absurd trivial lost⟩
  | cons file subdirs ih =>
    have nodes : file.entries.map newNode = file.entries.map nodeOf := by
      apply map_congr_left
      intro entry listed
      exact newNode_eq (free entry (by simp [listed]))
    have laterFree : ∀ entry ∈ subdirs.flatMap ConfFile.entries, 58 ∉ entry.1 := by
      intro entry listed
      exact free entry (by rw [flatMap_cons]; exact mem_append_right _ listed)
    have pathsOf (entries : List (List UInt8 × List UInt8)) :
        (entries.map nodeOf).map Htaccess.beforeColon = entries.map Prod.fst := by
      rw [map_map]
      rfl
    have paths : (list.map Htaccess.beforeColon).Perm (stored.map Prod.fst) := by
      have mapped := same.map Htaccess.beforeColon
      rwa [pathsOf] at mapped
    have size : list.length = stored.length := by simpa using same.length_eq
    obtain ⟨keeps,loses⟩ := subdir_kept (file.entries.map nodeOf) list
    rw [pathsOf] at keeps loses
    have condition : (2 ≤ list.length → Kept (list.map Htaccess.beforeColon) (file.entries.map Prod.fst)) ↔
        (2 ≤ (stored.map Prod.fst).length → Kept (stored.map Prod.fst) (file.entries.map Prod.fst)) := by
      rw [length_map,size]
      exact ⟨fun kept many => (kept many).perm paths,fun kept many => (kept many).perm paths.symm⟩
    rw [condition] at keeps loses
    rw [parseSubdirs_cons,nodes,flatMap_cons,← append_assoc,map_cons]
    by_cases here : 2 ≤ (stored.map Prod.fst).length → Kept (stored.map Prod.fst) (file.entries.map Prod.fst)
    · have sameNext : ((startAuth list).insertAll (file.entries.map nodeOf)).list.Perm
          ((stored ++ file.entries).map nodeOf) := by
        rw [map_append]
        exact (keeps here).trans ((same.append_left _).trans perm_append_comm)
      have swap : ((stored ++ file.entries).map Prod.fst).Perm (file.entries.map Prod.fst ++ stored.map Prod.fst) := by
        rw [map_append]
        exact perm_append_comm
      obtain ⟨keepsLater,losesLater⟩ := ih (stored ++ file.entries) _ sameNext laterFree
      exact ⟨fun kept => keepsLater (kept.2.perm swap.symm),
        fun lost => losesLater fun kept => lost ⟨here,kept.perm swap⟩⟩
    · have short := loses here
      have rest := parseSubdirs_length subdirs ((startAuth list).insertAll (file.entries.map nodeOf)).list
      refine ⟨fun kept => absurd kept.1 here,fun _ => ?_⟩
      rw [length_map] at short
      rw [length_append,length_append]
      omega

end Stablebox.Httpd
