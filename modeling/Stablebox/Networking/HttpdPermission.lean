import Stablebox.Networking.HttpdAuth

/-! Who gets content from httpd: `checkPerm` over a sorted list decides by the lines of the
longest path that covers the request. -/
namespace Stablebox.Httpd

open Libbb List

variable (pwEncrypt : List UInt8 → List UInt8 → List UInt8)

/-- The path is a prefix of the request on component boundaries. -/
def Covers (path url : List UInt8) : Prop := path <+: url ∧ (path = [47] ∨ path = url ∨ path ++ [47] <+: url)

/-- The line is one for the longest path that covers the request. -/
def Longest (lines : List (List UInt8 × List UInt8)) (url : List UInt8) (line : List UInt8 × List UInt8) : Prop :=
  line ∈ lines ∧ Covers line.1 url ∧ ∀ other ∈ lines, Covers other.1 url → other.1.length ≤ line.1.length

def Hashed (secret : List UInt8) : Prop := secret.take 3 = text "$1$" ∧ 3 < secret.length

instance (secret : List UInt8) : Decidable (Hashed secret) :=
  inferInstanceAs (Decidable (secret.take 3 = text "$1$" ∧ 3 < secret.length))

/-- The credentials of the request equal those of the line, user name and password both. -/
def Grants (credentials request : List UInt8) : Prop :=
  ∃ user password secret, splitColon request = some (user,password) ∧ splitColon credentials = some (user,secret) ∧
    if Hashed secret then pwEncrypt password secret = secret else secret = password

/-- The password is right for a hash, but the user name is only the front of the one in the
line. -/
def Slips (credentials request : List UInt8) : Prop :=
  ∃ user password name secret, splitColon request = some (user,password) ∧ splitColon credentials = some (name,secret) ∧
    user <+: name ∧ user ≠ name ∧ Hashed secret ∧ pwEncrypt password secret = secret

theorem take_eq_iff {α : Type} [DecidableEq α] (front whole : List α) :
    whole.take front.length = front ↔ front <+: whole := by
  rw [prefix_iff_eq_take]
  exact eq_comm

theorem user_of_split {user name secret : List UInt8} (free : 58 ∉ user) :
    user <+: name ++ 58 :: secret ↔ user <+: name := by
  constructor
  · intro front
    rcases prefix_or_prefix_of_prefix front (prefix_append name (58 :: secret)) with short | long
    · exact short
    obtain ⟨more,rfl⟩ := long
    cases more with
    | nil => simp
    | cons ch more =>
      rw [prefix_append_right_inj,cons_prefix_cons] at front
      exact absurd (by simp [front.1]) free
  · intro front
    exact front.trans (prefix_append _ _)

variable {request : List UInt8}

theorem grants_iff {credentials user password name secret : List UInt8}
    (split : splitColon request = some (user,password))
    (own : splitColon credentials = some (name,secret)) : Grants pwEncrypt credentials request ↔
      name = user ∧ if Hashed secret then pwEncrypt password secret = secret else secret = password := by
  simp [Grants,split,own]

theorem slips_iff {credentials user password name secret : List UInt8}
    (split : splitColon request = some (user,password))
    (own : splitColon credentials = some (name,secret)) : Slips pwEncrypt credentials request ↔
      user <+: name ∧ user ≠ name ∧ Hashed secret ∧ pwEncrypt password secret = secret := by
  simp [Slips,split,own]

theorem accepts_iff {credentials user password : List UInt8} (split : splitColon request = some (user,password)) :
    accepts pwEncrypt credentials request user password = true ↔
      Grants pwEncrypt credentials request ∨ Slips pwEncrypt credentials request := by
  obtain ⟨shape,free⟩ := splitColon_some.mp split
  simp only [accepts,Bool.and_eq_true,beq_iff_eq,take_eq_iff]
  cases own : splitColon credentials with
  | none =>
    have different : credentials ≠ request := by
      rintro rfl
      cases split.symm.trans own
    simp [md5Hash,own,different,Grants,Slips]
  | some parts =>
    obtain ⟨name,secret⟩ := parts
    obtain ⟨credentialsShape,nameFree⟩ := splitColon_some.mp own
    have front : user <+: credentials ↔ user <+: name := by rw [credentialsShape,user_of_split free]
    rw [front,grants_iff pwEncrypt split own,slips_iff pwEncrypt split own]
    by_cases hashed : Hashed secret
    · have found : md5Hash credentials = some secret := by
        unfold Hashed at hashed
        simp [md5Hash,own,hashed]
      by_cases same : name = user
      · simp [found,hashed,same]
      · simp [found,hashed,same,Ne.symm same]
    · have plain : md5Hash credentials = none := by
        unfold Hashed at hashed
        simp [md5Hash,own,hashed]
      simp only [plain,beq_iff_eq,hashed,if_false,false_and,and_false,or_false]
      constructor
      · rintro ⟨_,rfl⟩
        exact Prod.mk.inj (Option.mem_unique own split)
      · rintro ⟨rfl,rfl⟩
        exact ⟨prefix_refl _,by rw [credentialsShape,shape]⟩

def Passes (credentials request : List UInt8) : Prop :=
  Grants pwEncrypt credentials request ∨ Slips pwEncrypt credentials request

theorem Passes.split {credentials : List UInt8} (passes : Passes pwEncrypt credentials request) :
    ∃ user password, splitColon request = some (user,password) := by
  rcases passes with ⟨user,password,_,split,_⟩ | ⟨user,password,_,_,split,_⟩
  · exact ⟨user,password,split⟩
  · exact ⟨user,password,split⟩

theorem checkFrom_found (here : onPath p0 path = true) (list : List Htaccess) :
    checkFrom pwEncrypt path request list (some p0) = true ↔
      ∃ cur ∈ list, cur.beforeColon = p0 ∧ Passes pwEncrypt cur.afterColon request := by
  induction list with
  | nil => simp [checkFrom]
  | cons cur list ih =>
    by_cases same : cur.beforeColon = p0
    · subst same
      cases split : splitColon request with
      | none =>
        have nobody : ∀ credentials, ¬ Passes pwEncrypt credentials request := by
          intro credentials passes
          obtain ⟨user,password,found⟩ := passes.split
          cases split.symm.trans found
        simp [checkFrom,here,split,nobody]
      | some parts =>
        obtain ⟨user,password⟩ := parts
        have own : accepts pwEncrypt cur.afterColon request user password = true ↔ _ := accepts_iff pwEncrypt split
        by_cases accepted : accepts pwEncrypt cur.afterColon request user password = true
        · have passes : Passes pwEncrypt cur.afterColon request := own.mp accepted
          simp [checkFrom,here,split,accepted,passes]
        · have refused : ¬ Passes pwEncrypt cur.afterColon request := fun passes => accepted (own.mpr passes)
          simp [checkFrom,here,split,accepted,refused,ih]
    · have other : ¬ p0 = cur.beforeColon := fun eq => same eq.symm
      simp [checkFrom,same,other,ih]

theorem onPath_unique (first : onPath a path = true) (second : onPath b path = true) (length : a.length = b.length) :
    a = b := by
  simp only [onPath,Bool.and_eq_true,List.isPrefixOf_iff_prefix] at first second
  exact List.IsPrefix.eq_of_length (prefix_of_prefix_length_le first.1 second.1 (by omega)) length

theorem checkPerm_iff (ordered : list.Pairwise Higher) :
    checkPerm pwEncrypt list path request = true ↔
      (∀ cur ∈ list, onPath cur.beforeColon path = false) ∨
        ∃ cur ∈ list, onPath cur.beforeColon path = true ∧
          (∀ other ∈ list, onPath other.beforeColon path = true →
            other.beforeColon.length ≤ cur.beforeColon.length) ∧
          Passes pwEncrypt cur.afterColon request := by
  unfold checkPerm
  induction list with
  | nil => simp [checkFrom]
  | cons cur list ih =>
    obtain ⟨highest,orderedRest⟩ := pairwise_cons.mp ordered
    by_cases here : onPath cur.beforeColon path = true
    · have enter : checkFrom pwEncrypt path request (cur :: list) none =
          checkFrom pwEncrypt path request (cur :: list) (some cur.beforeColon) := by simp [checkFrom,here]
      rw [enter,checkFrom_found pwEncrypt here (cur :: list)]
      constructor
      · rintro ⟨line,listed,same,passes⟩
        refine Or.inr ⟨line,listed,by rwa [same],?_,passes⟩
        intro other otherListed _
        rw [same]
        rcases mem_cons.mp otherListed with rfl | later
        · exact le_rfl
        · exact highest other later
      · rintro (nowhere | ⟨line,listed,there,longest,passes⟩)
        · simp [here] at nowhere
        refine ⟨line,listed,?_,passes⟩
        apply onPath_unique there here
        refine Nat.le_antisymm ?_ (longest cur (by simp) here)
        rcases mem_cons.mp listed with rfl | later
        · exact le_rfl
        · exact highest line later
    · have skip : checkFrom pwEncrypt path request (cur :: list) none =
          checkFrom pwEncrypt path request list none := by simp [checkFrom,here]
      rw [skip,ih orderedRest]
      simp [here]

theorem dropWhile_root (front : List UInt8) :
    ∃ kept, (front ++ [47]).dropWhile (fun ch => decide (ch ≠ 47)) = kept ++ [47] := by
  induction front with
  | nil => exact ⟨[],by simp⟩
  | cons ch front ih =>
    by_cases slash : ch = 47
    · exact ⟨ch :: front,by simp [slash]⟩
    · obtain ⟨kept,dropped⟩ := ih
      exact ⟨kept,by simpa [slash] using dropped⟩

theorem simplifyLoop_root (fuel : Nat) (rest out : List UInt8) (root : ∃ front, out = front ++ [47]) :
    ∃ front, simplifyLoop fuel rest out = front ++ [47] := by
  induction fuel generalizing rest out with
  | zero => exact root
  | succ fuel ih =>
    cases rest with
    | nil => exact root
    | cons ch rest =>
      obtain ⟨front,rfl⟩ := root
      have push : ∃ more, ch :: (front ++ [47]) = more ++ [47] := ⟨ch :: front,rfl⟩
      simp only [simplifyLoop]
      split
      · split
        · exact ih _ _ ⟨front,rfl⟩
        split
        · exact ih _ _ ⟨front,rfl⟩
        split
        · refine ih _ _ ?_
          split
          · cases front with
            | nil =>
              rename_i long
              simp at long
            | cons last front =>
              exact dropWhile_root front
          · exact ⟨front,rfl⟩
        · exact ih _ _ push
      · exact ih _ _ push

theorem fullPath_root (path buf : List UInt8) : (fullPath path buf).head? = some 47 := by
  obtain ⟨front,shape⟩ := simplifyLoop_root (path ++ buf).length (path ++ buf) [47] ⟨[],rfl⟩
  simp only [fullPath,shape]
  split
  · simp
  rename_i long
  cases front with
  | nil => simp at long
  | cons ch front => simp

variable {main : List (List UInt8)} {subdirs : List ConfFile}

theorem configured_root (listed : entry ∈ configured main subdirs) : entry.1.head? = some 47 := by
  have every : ∀ path line, parseLine path line = some entry → entry.1.head? = some 47 := by
    intro path line parsed
    simp only [parseLine,Option.bind_eq_bind,Option.bind_eq_some_iff] at parsed
    obtain ⟨⟨buf,c⟩,_,parsed⟩ := parsed
    split at parsed
    · cases parsed
    split at parsed
    · cases parsed
      exact fullPath_root path buf
    · cases parsed
  simp only [configured,mem_append,mem_filterMap,mem_flatMap,ConfFile.entries] at listed
  rcases listed with ⟨line,_,parsed⟩ | ⟨file,_,line,_,parsed⟩
  · exact every _ line parsed
  · exact every _ line parsed

theorem onPath_iff (root : path.head? = some 47) : onPath path url = true ↔ Covers path url := by
  simp only [onPath,Covers,Bool.and_eq_true,List.isPrefixOf_iff_prefix,Bool.or_eq_true,beq_iff_eq]
  apply and_congr_right
  rintro ⟨rest,rfl⟩
  have single : path.length = 1 ↔ path = [47] := by
    constructor
    · intro one
      obtain ⟨ch,rfl⟩ := length_eq_one_iff.mp one
      simpa using root
    · rintro rfl
      rfl
  rw [single,or_assoc]
  cases rest with
  | nil => simp
  | cons ch rest => simp [eq_comm]

def subdirPaths (subdirs : List ConfFile) : List (List (List UInt8)) :=
  subdirs.map fun file => file.entries.map Prod.fst

/-- Each line keeps its path and its place in the list: no path has a colon in it, and no
subdirectory has a path that is shorter than all the two or more that are stored. -/
def NoneLost (main : List (List UInt8)) (subdirs : List ConfFile) : Prop :=
  (∀ line ∈ configured main subdirs, 58 ∉ line.1) ∧
    AllKept ((main.filterMap (parseLine [])).map Prod.fst) (subdirPaths subdirs)

theorem parseAll_sorted (main : List (List UInt8)) (subdirs : List ConfFile) :
    (parseAll main subdirs).Pairwise Higher := by
  apply parseSubdirs_sorted
  rw [parseConf_eq]
  exact insertAll_sorted _ List.Pairwise.nil

theorem parseAll_free (listed : hti ∈ parseAll main subdirs) : 58 ∉ hti.beforeColon := by
  have made : ∃ entry, newNode entry = hti := by
    rcases parseSubdirs_mem listed with later | first
    · obtain ⟨entry,_,made⟩ := mem_map.mp later
      exact ⟨entry,made⟩
    · obtain ⟨entry,_,made⟩ := mem_map.mp ((parseConf_main main []).mem_iff.mp first)
      exact ⟨entry,made⟩
  obtain ⟨entry,rfl⟩ := made
  exact newNode_free entry

theorem parseAll_perm_iff (main : List (List UInt8)) (subdirs : List ConfFile) :
    (parseAll main subdirs).Perm ((configured main subdirs).map nodeOf) ↔ NoneLost main subdirs := by
  have step (free : ∀ line ∈ configured main subdirs, 58 ∉ line.1) := by
    have first : (parseConf false [] main []).Perm ((main.filterMap (parseLine [])).map nodeOf) := by
      have nodes : (main.filterMap (parseLine [])).map newNode = (main.filterMap (parseLine [])).map nodeOf :=
        map_congr_left fun entry listed => newNode_eq (free entry (mem_append_left _ listed))
      rw [← nodes]
      exact parseConf_main main []
    exact parseSubdirs_kept subdirs _ _ first fun entry listed => free entry (mem_append_right _ listed)
  constructor
  · intro same
    have free : ∀ line ∈ configured main subdirs, 58 ∉ line.1 := fun line listed =>
      parseAll_free (same.mem_iff.mpr (mem_map_of_mem listed))
    refine ⟨free,?_⟩
    by_contra lost
    have short := (step free).2 lost
    have length := same.length_eq
    rw [length_map] at length
    exact absurd length (Nat.ne_of_lt short)
  · rintro ⟨free,kept⟩
    exact (step free).1 kept

theorem checkPerm_configured (kept : NoneLost main subdirs) (url request : List UInt8) :
    checkPerm pwEncrypt (parseAll main subdirs) url request = true ↔
      (∀ line ∈ configured main subdirs, ¬ Covers line.1 url) ∨
        ∃ line, Longest (configured main subdirs) url line ∧ Passes pwEncrypt line.2 request := by
  have same := (parseAll_perm_iff main subdirs).mpr kept
  have path {line : List UInt8 × List UInt8} (own : line ∈ configured main subdirs) :
      onPath (nodeOf line).beforeColon url = true ↔ Covers line.1 url := onPath_iff (configured_root own)
  rw [checkPerm_iff pwEncrypt (parseAll_sorted main subdirs)]
  simp only [same.mem_iff,mem_map,forall_exists_index,and_imp,forall_apply_eq_imp_iff₂,exists_exists_and_eq_and]
  refine or_congr (forall₂_congr fun line own => by rw [Bool.eq_false_iff,Ne,path own]) (exists_congr fun line => ?_)
  rw [Longest,and_assoc,and_assoc]
  refine and_congr_right fun own => and_congr (path own) (and_congr_left fun _ => ?_)
  exact forall₂_congr fun other otherOwn => by rw [path otherOwn]; rfl

theorem authorised_iff (list : List Htaccess) (url : List UInt8) (requests : List (List UInt8)) :
    authorised pwEncrypt list url requests = true ↔
      (∃ request, requests.getLast? = some request ∧ checkPerm pwEncrypt list url request = true) ∨
        checkPerm pwEncrypt list url (text ":") = true := by
  rw [authorised,Bool.or_eq_true]
  rcases eq_nil_or_concat requests with rfl | ⟨front,request,rfl⟩
  · simp
  · simp

def Granted (lines : List (List UInt8 × List UInt8)) (url : List UInt8) (requests : List (List UInt8)) : Prop :=
  ∃ request, requests.getLast? = some request ∧ ∃ line, Longest lines url line ∧ Grants pwEncrypt line.2 request

/-- No configured line is lost, longer paths come first, and content is only for requests that
no path covers or that have the credentials of a line for the longest one. -/
def Protects (main : List (List UInt8)) (subdirs : List ConfFile) (url : List UInt8)
    (requests : List (List UInt8)) : Prop :=
  (parseAll main subdirs).Perm ((configured main subdirs).map nodeOf) ∧
    (parseAll main subdirs).Pairwise Higher ∧
      (authorised pwEncrypt (parseAll main subdirs) url requests = true →
        (∀ line ∈ configured main subdirs, ¬ Covers line.1 url) ∨
          Granted pwEncrypt (configured main subdirs) url requests)

/-- No line for the longest path takes the empty user name and password, or the front of its
user name with the password of its hash. -/
def Guarded (lines : List (List UInt8 × List UInt8)) (url : List UInt8) (requests : List (List UInt8)) : Prop :=
  ∀ line, Longest lines url line → ¬ Passes pwEncrypt line.2 (text ":") ∧
    ∀ request, requests.getLast? = some request → ¬ Slips pwEncrypt line.2 request

/-- The path is protected exactly if no line is lost and the request is granted or cannot slip in. -/
theorem protects_iff (main : List (List UInt8)) (subdirs : List ConfFile) (url : List UInt8)
    (requests : List (List UInt8)) :
    Protects pwEncrypt main subdirs url requests ↔
      NoneLost main subdirs ∧ (Granted pwEncrypt (configured main subdirs) url requests ∨
        Guarded pwEncrypt (configured main subdirs) url requests) := by
  rw [Protects,parseAll_perm_iff]
  apply and_congr_right
  intro kept
  rw [and_iff_right (parseAll_sorted main subdirs),authorised_iff]
  simp only [checkPerm_configured pwEncrypt kept]
  constructor
  · intro answered
    by_cases granted : Granted pwEncrypt (configured main subdirs) url requests
    · exact Or.inl granted
    refine Or.inr fun line longest => ?_
    have refused : ¬ ((∀ line ∈ configured main subdirs, ¬ Covers line.1 url) ∨
        Granted pwEncrypt (configured main subdirs) url requests) := by
      rintro (nowhere | granted')
      · exact nowhere line longest.1 longest.2.1
      · exact granted granted'
    refine ⟨fun passes => refused (answered (Or.inr (Or.inr ⟨line,longest,passes⟩))),?_⟩
    intro request last slips
    exact refused (answered (Or.inl ⟨request,last,Or.inr ⟨line,longest,Or.inr slips⟩⟩))
  · rintro (granted | guarded)
    · exact fun _ => Or.inr granted
    rintro (⟨request,last,nowhere | ⟨line,longest,grants | slips⟩⟩ | nowhere | ⟨line,longest,passes⟩)
    · exact Or.inl nowhere
    · exact Or.inr ⟨request,last,line,longest,grants⟩
    · exact absurd slips ((guarded line longest).2 request last)
    · exact Or.inl nowhere
    · exact absurd passes (guarded line longest).1

/-- A file in `dir` with a short path cuts off the line for `/dir/private`, whose content is
then open to all. -/
theorem private_left_open :
    authorised (fun _ _ => [])
        (parseAll [text "/dir/private:u:p",text "/dir/private/deep:u:p"] [⟨text "dir",[text "/a:u:p"]⟩])
        (text "/dir/private/x") [] = true ∧
      ¬ Protects (fun _ _ => []) [text "/dir/private:u:p",text "/dir/private/deep:u:p"]
        [⟨text "dir",[text "/a:u:p"]⟩] (text "/dir/private/x") [] := by
  refine ⟨by decide,?_⟩
  rintro ⟨same,_,_⟩
  exact absurd same.length_eq (by decide)

end Stablebox.Httpd
