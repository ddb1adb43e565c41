import Stablebox.Shell.Variables
import Mathlib.Data.List.TakeWhile

/-! The memory of the shell's variables. Which texts may be freed with a variable, which are
shared with saved values, and that every change of a variable keeps this. -/
namespace Stablebox.Ash.Variables

open Libbb Faulty List Function

theorem equals_not_inName : inName 61 = false := by decide

theorem Name.inName (name : Name) (listed : c ∈ name.bytes) : Variables.inName c = true := by
  obtain ⟨bytes,nonempty,whole⟩ := name
  cases bytes with
  | nil => exact absurd rfl nonempty
  | cons first rest =>
    simp only [endofname] at whole
    split at whole
    · rename_i starts
      have all : rest.takeWhile Variables.inName = rest :=
        (List.takeWhile_prefix _).eq_of_length (by simp only [length_cons] at whole; omega)
      rcases mem_cons.mp listed with rfl | later
      · simp only [startsName,Bool.or_eq_true] at starts
        simp only [Variables.inName,Bool.or_eq_true]
        exact Or.inl starts
      · exact (takeWhile_eq_self_iff.mp all) c later
    · simp at whole

theorem Name.no_equals (name : Name) : ∀ c ∈ name.bytes, decide (c ≠ 61) = true := by
  intro c listed
  have inside := name.inName listed
  rw [decide_eq_true_eq]
  rintro rfl
  cases equals_not_inName.symm.trans inside

@[simp] theorem nameOf_word (name : Name) (value : Option (List UInt8)) : nameOf (name.word value) = name.bytes := by
  cases value with
  | none => exact takeWhile_eq_self_iff.mpr name.no_equals
  | some value =>
    unfold nameOf Name.word
    rw [takeWhile_append_of_pos name.no_equals]
    simp

theorem nameOf_bytes (name : Name) : nameOf name.bytes = name.bytes := nameOf_word name none

section

variable {name : Name} (named : nameOf s = name.bytes)

include named

theorem named_split : ∃ rest, s = name.bytes ++ rest ∧ (rest = [] ∨ ∃ value, rest = 61 :: value) := by
  refine ⟨s.dropWhile (· ≠ 61),?_,?_⟩
  · rw [← named]
    exact takeWhile_append_dropWhile.symm
  have head := head?_dropWhile_not (fun c : UInt8 => decide (c ≠ 61)) s
  cases rest : s.dropWhile fun c => decide (c ≠ 61) with
  | nil => exact Or.inl rfl
  | cons c value =>
    rw [rest] at head
    have equals : c = 61 := by simpa using head
    exact Or.inr ⟨value,by rw [equals]⟩

theorem hashvar_named : hashvar s = hashvar name.bytes := by
  obtain ⟨rest,rfl,_⟩ := named_split named
  have own := nameOf_bytes name
  obtain ⟨bytes,nonempty,whole⟩ := name
  cases bytes with
  | nil => exact absurd rfl nonempty
  | cons c bytes =>
    simp only [cons_append] at named own ⊢
    simp [hashvar,named,own]

theorem endofname_named : endofname s = name.bytes.length := by
  obtain ⟨rest,rfl,shape⟩ := named_split named
  have inside := fun c => name.inName (c := c)
  obtain ⟨bytes,nonempty,whole⟩ := name
  cases bytes with
  | nil => exact absurd rfl nonempty
  | cons first bytes =>
    simp only [cons_append,endofname] at whole ⊢
    split
    · have all : ∀ c ∈ bytes, inName c = true := (forall_mem_cons.mp inside).2
      have stop : rest.takeWhile inName = [] := by
        rcases shape with rfl | ⟨value,rfl⟩
        · rfl
        · simp [equals_not_inName]
      rw [takeWhile_append_of_pos all,stop,append_nil,length_cons]
      omega
    · rename_i no
      simp [no] at whole

theorem setvar_named (val : Option (List UInt8)) (flags : Flags) (behind : List UInt8) :
    setvar s val flags behind = setvareq ⟨name.word val,behind⟩
      { flags with unset := flags.unset || val.isNone, nosave := true } := by
  obtain ⟨rest,shape,equals⟩ := named_split named
  have stop : nameOf (s.drop name.bytes.length) = [] := by
    rw [shape,drop_left]
    rcases equals with rfl | ⟨value,rfl⟩ <;> rfl
  have nonempty : name.bytes.length ≠ 0 := fun empty => name.valid.1 (length_eq_zero_iff.mp empty)
  have front : s.take name.bytes.length = name.bytes := by rw [shape,take_left]
  simp only [setvar,endofname_named named,stop,length_nil,add_zero,nonempty,ne_eq,not_true,or_self,if_false,front]
  cases val with
  | none => simp [Name.word]
  | some value => simp [Name.word]

end

def Holds (st : State) (vp : Nat) (v : Var) (t : Text) : Prop := st.vars vp = some v ∧ st.texts v.text = some t

variable {vp : Nat} {v : Var} {t : Text}

theorem Holds.textOf (holds : Holds st vp v t) :
    st.textOf vp = some t := by simp [State.textOf,holds.1,holds.2]

def Localvar.slot : Localvar → Option Slot
  | .options _ => none
  | .var lvp => some lvp

def State.slots (st : State) : List Slot := (st.localvars ++ st.saved.flatten).filterMap Localvar.slot

/-- Between two saved values of one variable: the older one is not freed with the newer, and
the variable is fixed since the older was saved. -/
def Over (newer older : Slot) : Prop :=
  (newer.vp = older.vp → newer.flags.strfixed = true) ∧
    ∀ p, newer.text = some p → older.text = some p →
      newer.flags.owned = false ∧ (older.flags.owned = true → newer.vp = older.vp)

/-- What holds of the variables between commands. A text that is freed with one variable is not
that of another one, and not that of a saved value but of those the variable is fixed for. -/
structure Valid (st : State) : Prop where
  live : ∀ vp v, st.vars vp = some v → ∃ t, st.texts v.text = some t ∧ vp ∈ st.vartab (hashvar t.text)
  listed : ∀ b, ∀ vp ∈ st.vartab b, ∃ v t, Holds st vp v t ∧ hashvar t.text = b
  nodup : ∀ b, (st.vartab b).Nodup
  names : ∀ vp vq v w t u, Holds st vp v t → Holds st vq w u → nameOf t.text = nameOf u.text → vp = vq
  freshVar : ∀ vp, st.nextVar ≤ vp → st.vars vp = none
  freshText : ∀ p, st.nextText ≤ p → st.texts p = none
  alone : ∀ i j v w, st.vars i = some v → st.vars j = some w → v.flags.owned = true → v.text = w.text → i = j
  unsaved : ∀ i v, st.vars i = some v → v.flags.owned = true → ∀ r ∈ st.slots, r.text ≠ some v.text
  own : ∀ r ∈ st.slots, r.flags.owned = true → ∀ j w, st.vars j = some w → r.text = some w.text → j = r.vp
  stacked : st.slots.Pairwise Over
  fixed : ∀ r ∈ st.slots, ∃ v t, Holds st r.vp v t ∧ v.flags.strfixed = true ∧
    (∃ name : Name, nameOf t.text = name.bytes) ∧
    ∀ p, r.text = some p → ∃ u, st.texts p = some u ∧ nameOf u.text = nameOf t.text
  missing : ∀ r ∈ st.slots, r.text = none → r.flags = { unset := true }
  called : ∀ i v t, Holds st i v t → v.func ≠ none → v.flags.strfixed = true ∧ v.callback (argument t) = .ok ()
  recalled : ∀ r ∈ st.slots, ∀ v, st.vars r.vp = some v → v.func ≠ none → r.flags.strfixed = true ∧
    ∀ p u, r.text = some p → st.texts p = some u → v.callback (argument u) = .ok ()
  settled : st.optlist viflag = false ∧
    (st.rootshell = true → st.optlist mflag = st.jobctl ∧ (st.jobctl = true → st.tty = true))

theorem Valid.holds (valid : Valid st) (there : st.vars vp = some v) : ∃ t, Holds st vp v t := by
  obtain ⟨t,text,_⟩ := valid.live vp v there
  exact ⟨t,there,text⟩

theorem Valid.lt_nextVar (valid : Valid st) (there : st.vars vp = some v) : vp < st.nextVar := by
  by_contra high
  cases (valid.freshVar vp (by omega)).symm.trans there

variable {p : Nat}

theorem Valid.lt_nextText (valid : Valid st) (there : st.texts p = some t) : p < st.nextText := by
  by_contra high
  cases (valid.freshText p (by omega)).symm.trans there

theorem Valid.text_low (valid : Valid st) (there : st.vars vp = some v) : v.text < st.nextText := by
  obtain ⟨_,text,_⟩ := valid.live vp v there
  exact valid.lt_nextText text

variable {r : Slot}

theorem Valid.slot_text (valid : Valid st) (listed : r ∈ st.slots) (text : r.text = some p) :
    ∃ u, st.texts p = some u := by
  obtain ⟨_,_,_,_,_,saved⟩ := valid.fixed r listed
  obtain ⟨u,there,_⟩ := saved p text
  exact ⟨u,there⟩

theorem Valid.slot_low (valid : Valid st) (listed : r ∈ st.slots) (text : r.text = some p) : p < st.nextText := by
  obtain ⟨_,there⟩ := valid.slot_text listed text
  exact valid.lt_nextText there

theorem Valid.slot_strfixed (valid : Valid st) (listed : r ∈ st.slots) (there : st.vars r.vp = some v) :
    v.flags.strfixed = true := by
  obtain ⟨_,_,here,fix,_⟩ := valid.fixed r listed
  obtain rfl := Option.mem_unique here.1 there
  exact fix

theorem scan_found (holds : Holds st vp v t) (named : nameOf t.text = nameOf s) (listed : vp ∈ list)
    (live : ∀ i ∈ list, ∃ w u, Holds st i w u ∧ (nameOf u.text = nameOf s → i = vp)) :
    st.scan s list = some (some vp) := by
  induction list with
  | nil => cases listed
  | cons i list ih =>
    obtain ⟨w,u,here,only⟩ := live i (mem_cons_self ..)
    simp only [State.scan,here.textOf,Option.bind_eq_bind,Option.bind_some]
    split_ifs with same
    · rw [only same]
    rcases mem_cons.mp listed with rfl | later
    · obtain rfl := Option.mem_unique holds.textOf here.textOf
      exact absurd named same
    · exact ih later (forall_mem_cons.mp live).2

theorem scan_missing (live : ∀ i ∈ list, ∃ w u, Holds st i w u ∧ nameOf u.text ≠ nameOf s) :
    st.scan s list = some none := by
  induction list with
  | nil => rfl
  | cons i list ih =>
    obtain ⟨w,u,here,other⟩ := live i (mem_cons_self ..)
    simp only [State.scan,here.textOf,Option.bind_eq_bind,Option.bind_some,if_neg other]
    exact ih (forall_mem_cons.mp live).2

variable {st : State} {name : Name}

theorem Valid.findvar_found (valid : Valid st) (holds : Holds st vp v t)
    (own : nameOf t.text = name.bytes) (named : nameOf s = name.bytes) : st.findvar s = some (some vp) := by
  obtain ⟨u,text,listed⟩ := valid.live vp v holds.1
  obtain rfl := Option.mem_unique holds.2 text
  rw [hashvar_named own,← hashvar_named named] at listed
  apply scan_found holds (own.trans named.symm) listed
  intro i there
  obtain ⟨w,u,here,_⟩ := valid.listed _ i there
  exact ⟨w,u,here,fun same => valid.names i vp w v u t here holds (same.trans (named.trans own.symm))⟩

theorem Valid.findvar_missing (valid : Valid st) (named : nameOf s = name.bytes)
    (nowhere : ∀ vp v t, Holds st vp v t → nameOf t.text ≠ name.bytes) : st.findvar s = some none := by
  apply scan_missing
  intro i there
  obtain ⟨w,u,here,_⟩ := valid.listed _ i there
  exact ⟨w,u,here,by rw [named]; exact nowhere i w u here⟩

theorem Valid.found_or_missing (_ : Valid st) (name : Name) :
    (∃ vp v t, Holds st vp v t ∧ nameOf t.text = name.bytes) ∨
      ∀ vp v t, Holds st vp v t → nameOf t.text ≠ name.bytes := by
  by_cases found : ∃ vp v t, Holds st vp v t ∧ nameOf t.text = name.bytes
  · exact Or.inl found
  · exact Or.inr fun vp v t holds named => found ⟨vp,v,t,holds,named⟩

/-- One variable has other flags or another text, for which there was no other use. -/
structure Changes (st next : State) (vp : Nat) (v : Var) (t : Text) (v' : Var) (t' : Text) : Prop where
  before : Holds st vp v t
  vars : next.vars = update st.vars vp (some v')
  texts : ∀ p u, st.texts p = some u → next.texts p = some u
  text : next.texts v'.text = some t'
  name : nameOf t'.text = nameOf t.text
  hash : hashvar t'.text = hashvar t.text
  func : v'.func = v.func
  vartab : next.vartab = st.vartab
  nextVar : next.nextVar = st.nextVar
  freshText : ∀ p, next.nextText ≤ p → next.texts p = none
  slots : next.slots.Sublist st.slots
  strfixed : ∀ r ∈ next.slots, r.vp = vp → v'.flags.strfixed = true
  callback : v.func ≠ none → v'.flags.strfixed = true ∧ v.callback (argument t') = .ok ()
  alone : ∀ j w, j ≠ vp → st.vars j = some w → v'.flags.owned = true ∨ w.flags.owned = true → w.text ≠ v'.text
  unsaved : v'.flags.owned = true → ∀ r ∈ next.slots, r.text ≠ some v'.text
  own : ∀ r ∈ next.slots, r.flags.owned = true → r.text = some v'.text → r.vp = vp
  settled : next.optlist viflag = false ∧
    (next.rootshell = true → next.optlist mflag = next.jobctl ∧ (next.jobctl = true → next.tty = true))

variable {next : State}

theorem Changes.after (changes : Changes st next vp v t v' t') :
    Holds next vp v' t' := ⟨by simp [changes.vars],changes.text⟩

theorem Changes.other (changes : Changes st next vp v t v' t') (apart : i ≠ vp) (holds : Holds st i w u) :
    Holds next i w u :=
  ⟨by rw [changes.vars,update_of_ne apart,holds.1],changes.texts _ _ holds.2⟩

theorem Changes.var_cases (changes : Changes st next vp v t v' t') (there : next.vars i = some w) :
    (i = vp ∧ w = v') ∨ (i ≠ vp ∧ st.vars i = some w) := by
  rw [changes.vars] at there
  by_cases same : i = vp
  · subst same
    rw [update_self] at there
    exact Or.inl ⟨rfl,(Option.some.inj there).symm⟩
  · rw [update_of_ne same] at there
    exact Or.inr ⟨same,there⟩

theorem Valid.change (valid : Valid st) (changes : Changes st next vp v t v' t') : Valid next := by
  have named {i : Nat} {w : Var} {u : Text} (holds : Holds next i w u) :
      ∃ w' u', Holds st i w' u' ∧ nameOf u'.text = nameOf u.text := by
    rcases changes.var_cases holds.1 with ⟨rfl,rfl⟩ | ⟨apart,there⟩
    · obtain rfl := Option.mem_unique changes.text holds.2
      exact ⟨v,t,changes.before,changes.name.symm⟩
    · obtain ⟨u',here⟩ := valid.holds there
      obtain rfl := Option.mem_unique (changes.texts _ _ here.2) holds.2
      exact ⟨w,u',here,rfl⟩
  have slot {r : Slot} (listed : r ∈ next.slots) : r ∈ st.slots := changes.slots.subset listed
  exact {
    live := by
      intro i w there
      rw [changes.vartab]
      rcases changes.var_cases there with ⟨rfl,rfl⟩ | ⟨apart,there⟩
      · obtain ⟨u,text,listed⟩ := valid.live i v changes.before.1
        obtain rfl := Option.mem_unique changes.before.2 text
        exact ⟨t',changes.text,by rw [changes.hash]; exact listed⟩
      · obtain ⟨u,text,listed⟩ := valid.live i w there
        exact ⟨u,changes.texts _ _ text,listed⟩
    listed := by
      intro b i there
      rw [changes.vartab] at there
      obtain ⟨w,u,here,hash⟩ := valid.listed b i there
      by_cases same : i = vp
      · subst same
        obtain rfl := Option.mem_unique changes.before.textOf here.textOf
        exact ⟨v',t',changes.after,by rw [changes.hash,hash]⟩
      · exact ⟨w,u,changes.other same here,hash⟩
    nodup := by
      rw [changes.vartab]
      exact valid.nodup
    names := by
      intro i j w x u z first second same
      obtain ⟨w',u',here,nameHere⟩ := named first
      obtain ⟨x',z',there,nameThere⟩ := named second
      exact valid.names i j w' x' u' z' here there (nameHere.trans (same.trans nameThere.symm))
    freshVar := by
      intro i high
      rw [changes.nextVar] at high
      have low := valid.lt_nextVar changes.before.1
      rw [changes.vars,update_of_ne (by omega),valid.freshVar i high]
    freshText := changes.freshText
    alone := by
      intro i j w x first second owned same
      rcases changes.var_cases first with ⟨rfl,rfl⟩ | ⟨apart,there⟩
      · rcases changes.var_cases second with ⟨rfl,_⟩ | ⟨apart,there⟩
        · rfl
        · exact absurd same.symm (changes.alone j x apart there (Or.inl owned))
      · rcases changes.var_cases second with ⟨rfl,rfl⟩ | ⟨_,elsewhere⟩
        · exact absurd same (changes.alone i w apart there (Or.inr owned))
        · exact valid.alone i j w x there elsewhere owned same
    unsaved := by
      intro i w there owned r listed
      rcases changes.var_cases there with ⟨rfl,rfl⟩ | ⟨apart,there⟩
      · exact changes.unsaved owned r listed
      · exact valid.unsaved i w there owned r (slot listed)
    own := by
      intro r listed owned j w there same
      rcases changes.var_cases there with ⟨rfl,rfl⟩ | ⟨apart,there⟩
      · exact (changes.own r listed owned same).symm
      · exact valid.own r (slot listed) owned j w there same
    stacked := valid.stacked.sublist changes.slots
    fixed := by
      intro r listed
      obtain ⟨w,u,here,fix,isName,saved⟩ := valid.fixed r (slot listed)
      by_cases same : r.vp = vp
      · rw [same] at here
        obtain rfl := Option.mem_unique changes.before.textOf here.textOf
        refine ⟨v',t',by rw [same]; exact changes.after,changes.strfixed r listed same,by rwa [changes.name],?_⟩
        intro p text
        obtain ⟨z,there,name⟩ := saved p text
        exact ⟨z,changes.texts _ _ there,by rw [name,changes.name]⟩
      · refine ⟨w,u,changes.other same here,fix,isName,?_⟩
        intro p text
        obtain ⟨z,there,name⟩ := saved p text
        exact ⟨z,changes.texts _ _ there,name⟩
    missing := fun r listed => valid.missing r (slot listed)
    called := by
      intro i w u holds func
      rcases changes.var_cases holds.1 with ⟨rfl,rfl⟩ | ⟨apart,there⟩
      · obtain rfl := Option.mem_unique changes.text holds.2
        rw [changes.func] at func
        obtain ⟨fix,accepted⟩ := changes.callback func
        exact ⟨fix,by rw [Var.callback,changes.func]; exact accepted⟩
      · obtain ⟨z,here⟩ := valid.holds there
        obtain rfl := Option.mem_unique (changes.texts _ _ here.2) holds.2
        exact valid.called i w z here func
    recalled := by
      intro r listed w there func
      obtain ⟨w',back,callback⟩ : ∃ w', st.vars r.vp = some w' ∧ w'.func = w.func := by
        rcases changes.var_cases there with ⟨same,rfl⟩ | ⟨apart,there⟩
        · exact ⟨v,by rw [same]; exact changes.before.1,changes.func.symm⟩
        · exact ⟨w,there,rfl⟩
      rw [← callback] at func
      obtain ⟨fix,accepted⟩ := valid.recalled r (slot listed) w' back func
      refine ⟨fix,fun p u text here => ?_⟩
      obtain ⟨z,alive⟩ := valid.slot_text (slot listed) text
      obtain rfl := Option.mem_unique (changes.texts _ _ alive) here
      rw [Var.callback,← callback]
      exact accepted p z text alive
    settled := changes.settled }

def State.freed (st : State) (p : Nat) : State := { st with texts := update st.texts p none }

theorem Valid.free (valid : Valid st) (nobody : ∀ i w, st.vars i = some w → w.text ≠ p)
    (unsaved : ∀ r ∈ st.slots, r.text ≠ some p) : Valid (st.freed p) := by
  have keep {q : Nat} (apart : q ≠ p) : (st.freed p).texts q = st.texts q := update_of_ne apart _ _
  have back {q : Nat} {u : Text} (text : (st.freed p).texts q = some u) : st.texts q = some u := by
    by_cases same : q = p
    · subst same
      simp [State.freed] at text
    · rwa [keep same] at text
  have holds {i : Nat} {w : Var} {u : Text} (here : Holds st i w u) : Holds (st.freed p) i w u :=
    ⟨here.1,by rw [keep (nobody i w here.1)]; exact here.2⟩
  have held {i : Nat} {w : Var} {u : Text} (here : Holds (st.freed p) i w u) : Holds st i w u := ⟨here.1,back here.2⟩
  exact { valid with
    live := by
      intro i w there
      obtain ⟨u,text,listed⟩ := valid.live i w there
      exact ⟨u,by rw [keep (nobody i w there)]; exact text,listed⟩
    listed := by
      intro b i there
      obtain ⟨w,u,here,hash⟩ := valid.listed b i there
      exact ⟨w,u,holds here,hash⟩
    names := fun i j w x u z first second => valid.names i j w x u z (held first) (held second)
    freshText := by
      intro q high
      by_cases same : q = p
      · subst same
        simp [State.freed]
      · rw [keep same]
        exact valid.freshText q high
    fixed := by
      intro r listed
      obtain ⟨w,u,here,fix,isName,saved⟩ := valid.fixed r listed
      refine ⟨w,u,holds here,fix,isName,fun q text => ?_⟩
      obtain ⟨z,there,name⟩ := saved q text
      refine ⟨z,?_,name⟩
      rw [keep (by rintro rfl; exact unsaved r listed text)]
      exact there
    called := fun i w u here => valid.called i w u (held here)
    recalled := by
      intro r listed w there func
      obtain ⟨fix,accepted⟩ := valid.recalled r listed w there func
      exact ⟨fix,fun q u text here => accepted q u text (back here)⟩ }

theorem Valid.holds_add (valid : Valid st) (flags : Flags) (func : Option Callback) (s : Text)
    (here : Holds st vp v t) : Holds (st.add flags func s) vp v t :=
  ⟨(update_of_ne (ne_of_lt (valid.lt_nextVar here.1)) _ _).trans here.1,
    (update_of_ne (ne_of_lt (valid.lt_nextText here.2)) _ _).trans here.2⟩

theorem add_new (st : State) (flags : Flags) (func : Option Callback) (s : Text) :
    Holds (st.add flags func s) st.nextVar ⟨flags,st.nextText,func⟩ s :=
  ⟨update_self _ _ _,update_self _ _ _⟩

theorem add_var_cases {s : Text} (there : (st.add flags func s).vars vp = some v) :
    (vp = st.nextVar ∧ v = ⟨flags,st.nextText,func⟩) ∨ st.vars vp = some v := by
  by_cases same : vp = st.nextVar
  · subst same
    exact .inl ⟨rfl,(Option.mem_unique (add_new st flags func s).1 there).symm⟩
  · exact .inr ((update_of_ne same _ _).symm.trans there)

theorem Valid.add_cases (valid : Valid st) {s : Text} (here : Holds (st.add flags func s) vp v t) :
    (vp = st.nextVar ∧ t = s ∧ v = ⟨flags,st.nextText,func⟩) ∨ Holds st vp v t := by
  rcases add_var_cases here.1 with ⟨rfl,rfl⟩ | there
  · exact .inl ⟨rfl,(Option.mem_unique (add_new st flags func s).2 here.2).symm,rfl⟩
  obtain ⟨u,old⟩ := valid.holds there
  obtain rfl := Option.mem_unique (valid.holds_add flags func s old).2 here.2
  exact .inr old

theorem Valid.add (valid : Valid st) (flags : Flags) (func : Option Callback)
    (nowhere : ∀ vp v u, Holds st vp v u → nameOf u.text ≠ nameOf t.text)
    (callback : func ≠ none → flags.strfixed = true ∧ (⟨flags,st.nextText,func⟩ : Var).callback (argument t) = .ok ()) :
    Valid (st.add flags func t) := by
  have keepVar {i : Nat} (apart : i ≠ st.nextVar) : (st.add flags func t).vars i = st.vars i := update_of_ne apart _ _
  have keepText {q : Nat} (apart : q ≠ st.nextText) : (st.add flags func t).texts q = st.texts q :=
    update_of_ne apart _ _
  obtain ⟨newVar,newText⟩ := add_new st flags func t
  have holds {i : Nat} {w : Var} {u : Text} (here : Holds st i w u) := valid.holds_add flags func t here
  have bucket (b : Nat) (i : Nat) : i ∈ (st.add flags func t).vartab b ↔
      (b = hashvar t.text ∧ i = st.nextVar) ∨ i ∈ st.vartab b := by
    by_cases same : b = hashvar t.text
    · subst same
      simp [State.add,State.store]
    · simp [State.add,State.store,same]
  exact { valid with
    live := by
      intro i w there
      rcases add_var_cases there with ⟨rfl,rfl⟩ | there
      · exact ⟨t,newText,(bucket _ _).mpr (Or.inl ⟨rfl,rfl⟩)⟩
      · obtain ⟨u,text,listed⟩ := valid.live i w there
        exact ⟨u,(holds ⟨there,text⟩).2,(bucket _ _).mpr (Or.inr listed)⟩
    listed := by
      intro b i there
      rcases (bucket b i).mp there with ⟨rfl,rfl⟩ | there
      · exact ⟨_,t,⟨newVar,newText⟩,rfl⟩
      · obtain ⟨w,u,here,hash⟩ := valid.listed b i there
        exact ⟨w,u,holds here,hash⟩
    nodup := by
      intro b
      by_cases same : b = hashvar t.text
      · subst same
        have new : st.nextVar ∉ st.vartab (hashvar t.text) := by
          intro there
          obtain ⟨w,u,here,_⟩ := valid.listed _ _ there
          exact absurd (valid.lt_nextVar here.1) (by omega)
        simpa [State.add,State.store,new] using valid.nodup _
      · simpa [State.add,State.store,update_of_ne same] using valid.nodup b
    names := by
      intro i j w x u z first second same
      rcases valid.add_cases first with ⟨rfl,rfl,_⟩ | first
      · rcases valid.add_cases second with ⟨rfl,_,_⟩ | second
        · rfl
        · exact absurd same.symm (nowhere j x z second)
      · rcases valid.add_cases second with ⟨rfl,new,_⟩ | second
        · rw [new] at same
          exact absurd same (nowhere i w u first)
        · exact valid.names i j w x u z first second same
    freshVar := by
      intro i high
      have high : st.nextVar + 1 ≤ i := high
      rw [keepVar (by omega)]
      exact valid.freshVar i (by omega)
    freshText := by
      intro q high
      have high : st.nextText + 1 ≤ q := high
      rw [keepText (by omega)]
      exact valid.freshText q (by omega)
    alone := by
      intro i j w x first second owned same
      rcases add_var_cases first with ⟨rfl,rfl⟩ | first
      · rcases add_var_cases second with ⟨rfl,rfl⟩ | second
        · rfl
        · exact absurd same (ne_of_gt (valid.text_low second))
      · rcases add_var_cases second with ⟨rfl,rfl⟩ | second
        · exact absurd same (ne_of_lt (valid.text_low first))
        · exact valid.alone i j w x first second owned same
    unsaved := by
      intro i w there owned r listed
      rcases add_var_cases there with ⟨rfl,rfl⟩ | there
      · exact fun text => absurd (valid.slot_low listed text) (lt_irrefl _)
      · exact valid.unsaved i w there owned r listed
    own := by
      intro r listed owned j w there text
      rcases add_var_cases there with ⟨rfl,rfl⟩ | there
      · exact absurd (valid.slot_low listed text) (lt_irrefl _)
      · exact valid.own r listed owned j w there text
    fixed := by
      intro r listed
      obtain ⟨w,u,here,fix,isName,saved⟩ := valid.fixed r listed
      refine ⟨w,u,holds here,fix,isName,fun p text => ?_⟩
      obtain ⟨z,there,own⟩ := saved p text
      refine ⟨z,?_,own⟩
      rw [keepText (ne_of_lt (valid.lt_nextText there))]
      exact there
    called := by
      intro i w u here calls
      rcases valid.add_cases here with ⟨_,rfl,rfl⟩ | old
      · exact callback calls
      · exact valid.called i w u old calls
    recalled := by
      intro r listed w there func
      obtain ⟨x,u,here,_,_,saved⟩ := valid.fixed r listed
      obtain rfl := Option.mem_unique (holds here).1 there
      obtain ⟨fix,accepted⟩ := valid.recalled r listed x here.1 func
      refine ⟨fix,fun p u text there => accepted p u text ?_⟩
      rwa [keepText (ne_of_lt (valid.slot_low listed text))] at there }

theorem remove_var_cases (there : (st.remove b vp).vars i = some w) : i ≠ vp ∧ st.vars i = some w := by
  by_cases same : i = vp
  · subst same
    simp [State.remove] at there
  · exact ⟨same,(update_of_ne same _ _).symm.trans there⟩

theorem Holds.remove (here : Holds st i w u) (apart : i ≠ vp) :
    Holds (st.remove b vp) i w u := ⟨(update_of_ne apart _ _).trans here.1,here.2⟩

theorem Valid.slot_apart (valid : Valid st) (there : st.vars vp = some v) (free : v.flags.strfixed = false)
    (listed : r ∈ st.slots) : r.vp ≠ vp := by
  rintro rfl
  cases (valid.slot_strfixed listed there).symm.trans free

theorem Valid.remove (valid : Valid st) (holds : Holds st vp v t)
    (free : v.flags.strfixed = false) : Valid (st.remove (hashvar t.text) vp) := by
  have held {i : Nat} {w : Var} {u : Text} (here : Holds (st.remove (hashvar t.text) vp) i w u) : Holds st i w u :=
    ⟨(remove_var_cases here.1).2,here.2⟩
  have bucket (b i : Nat) : i ∈ (st.remove (hashvar t.text) vp).vartab b ↔ i ∈ st.vartab b ∧ i ≠ vp := by
    by_cases same : b = hashvar t.text
    · subst same
      simp [State.remove,(valid.nodup _).mem_erase_iff,and_comm]
    simp only [State.remove,update_of_ne same]
    refine ⟨fun there => ⟨there,?_⟩,And.left⟩
    rintro rfl
    obtain ⟨w,u,here,hash⟩ := valid.listed b i there
    obtain rfl := Option.mem_unique holds.textOf here.textOf
    exact same hash.symm
  exact { valid with
    live := by
      intro i w there
      obtain ⟨apart,there⟩ := remove_var_cases there
      obtain ⟨u,text,listed⟩ := valid.live i w there
      exact ⟨u,text,(bucket _ _).mpr ⟨listed,apart⟩⟩
    listed := by
      intro b i there
      obtain ⟨there,apart⟩ := (bucket b i).mp there
      obtain ⟨w,u,here,hash⟩ := valid.listed b i there
      exact ⟨w,u,here.remove apart,hash⟩
    nodup := by
      intro b
      by_cases same : b = hashvar t.text
      · subst same
        simpa [State.remove] using (valid.nodup _).erase vp
      · simpa [State.remove,update_of_ne same] using valid.nodup b
    names := fun i j w x u z first second => valid.names i j w x u z (held first) (held second)
    freshVar := by
      intro i high
      have low := valid.lt_nextVar holds.1
      have high : st.nextVar ≤ i := high
      exact (update_of_ne (by omega) _ _).trans (valid.freshVar i high)
    alone := fun i j w x first second =>
      valid.alone i j w x (remove_var_cases first).2 (remove_var_cases second).2
    unsaved := fun i w there => valid.unsaved i w (remove_var_cases there).2
    own := fun r listed owned j w there => valid.own r listed owned j w (remove_var_cases there).2
    fixed := by
      intro r listed
      obtain ⟨w,u,here,rest⟩ := valid.fixed r listed
      exact ⟨w,u,here.remove (valid.slot_apart holds.1 free listed),rest⟩
    called := fun i w u here => valid.called i w u (held here)
    recalled := fun r listed w there => valid.recalled r listed w (remove_var_cases there).2 }

end Stablebox.Ash.Variables
