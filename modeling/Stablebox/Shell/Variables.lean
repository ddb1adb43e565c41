import Stablebox.Lib.Digits
import Stablebox.Lib.Faulty
import Stablebox.Libbb.GetLine

/-! The variables of ash.c: the hash table, whose entries share their texts with the saved
values of local variables, and the commands that change it. A structure and a text have a number
in place of an address; a freed one is `none`. `CONFIG_ASH_GETOPTS` and `CONFIG_ASH_MAIL` are on,
`CONFIG_ASH_RANDOM_SUPPORT` and `CONFIG_FEATURE_COMMAND_EDITING_VI` are off. -/
namespace Stablebox.Ash.Variables

open Function

open Libbb Faulty

structure Flags where
  exported : Bool := false
  readonly : Bool := false
  strfixed : Bool := false
  textfixed : Bool := false
  stack : Bool := false
  unset : Bool := false
  nofunc : Bool := false
  noset : Bool := false
  nosave : Bool := false
  deriving DecidableEq

def Flags.owned (flags : Flags) : Bool := !flags.textfixed && !flags.stack

def Flags.merge (flags old : Flags) : Flags :=
  { flags with
    exported := flags.exported || old.exported
    readonly := flags.readonly || old.readonly
    strfixed := flags.strfixed || old.strfixed
    nofunc := flags.nofunc || old.nofunc
    noset := flags.noset || old.noset }

/-- Functions that are called before a variable is set. Only errors matter to the variables. -/
inductive Callback where
  | changemail
  | changepath
  | getoptsreset
  deriving DecidableEq

def isNumber (p : List UInt8) : Bool := p.all (Digits.isDigit 10) && !p.isEmpty

def Callback.run : Callback → List UInt8 → Except (List UInt8) Unit
  | .getoptsreset,value => if isNumber value then .ok () else .error (text "Illegal number: " ++ value)
  | _,_ => .ok ()

/-- A string in memory: `name=value`, or the name alone, and what stands behind its end. -/
structure Text where
  text : List UInt8
  behind : List UInt8
  deriving DecidableEq

def nameOf (s : List UInt8) : List UInt8 := s.takeWhile (· ≠ 61)

/-- `strchrnul(text, '=') + 1`, which is behind the end when there is no `=`. -/
def argument (t : Text) : List UInt8 :=
  match t.text.dropWhile (· ≠ 61) with
  | [] => t.behind
  | _ :: value => value

structure Var where
  flags : Flags
  text : Nat
  func : Option Callback
  deriving DecidableEq

def Var.callback (v : Var) (value : List UInt8) : Except (List UInt8) Unit :=
  match v.func with
  | none => .ok ()
  | some f => f.run value

structure Slot where
  vp : Nat
  flags : Flags
  text : Option Nat
  deriving DecidableEq

abbrev Options := Fin 14 → Bool

inductive Localvar where
  | options (saved : Options)
  | var (slot : Slot)

/-- `saved` holds the `savelocalvars` of the function calls that are under way. `tty` says whether
`setjobctl` gets hold of a terminal. -/
structure State where
  vartab : Nat → List Nat
  vars : Nat → Option Var
  texts : Nat → Option Text
  nextVar : Nat
  nextText : Nat
  localvars : List Localvar
  saved : List (List Localvar)
  optlist : Options
  jobctl : Bool
  rootshell : Bool
  tty : Bool
  exitstatus : Nat
  evalskip : Bool

abbrev Sh (α : Type) := Faulty State (List UInt8) α

def eflag : Fin 14 := 0
def mflag : Fin 14 := 4
def aflag : Fin 14 := 10
def viflag : Fin 14 := 13

def hashvar (p : List UInt8) : Nat := ((p.headD 0).toNat * 16 + ((nameOf p).map UInt8.toNat).sum) % 39

def State.textOf (st : State) (vp : Nat) : Option Text := do
  let v ← st.vars vp
  st.texts v.text

/-- The loop of `findvar` over one list of the table. -/
def State.scan (st : State) (name : List UInt8) : List Nat → Option (Option Nat)
  | [] => some none
  | vp :: rest => do
    let t ← st.textOf vp
    if nameOf t.text = nameOf name then some (some vp) else st.scan name rest

def State.findvar (st : State) (name : List UInt8) : Option (Option Nat) :=
  st.scan name (st.vartab (hashvar name))

def State.ckfree (st : State) (p : Nat) : Option State :=
  match st.texts p with
  | none => none
  | some _ => some { st with texts := update st.texts p none }

def State.release (st : State) (v : Var) : Option State := if v.flags.owned then st.ckfree v.text else some st

def State.setVar (st : State) (vp : Nat) (v : Var) : State := { st with vars := update st.vars vp (some v) }

def State.store (st : State) (vp : Nat) (flags : Flags) (func : Option Callback) (s : Text) : State :=
  { st with
    vars := update st.vars vp (some ⟨flags,st.nextText,func⟩)
    texts := update st.texts st.nextText (some s)
    nextText := st.nextText + 1 }

def State.add (st : State) (flags : Flags) (func : Option Callback) (s : Text) : State :=
  { st with
    vartab := update st.vartab (hashvar s.text) (st.nextVar :: st.vartab (hashvar s.text))
    nextVar := st.nextVar + 1 }.store st.nextVar flags func s

def isAlpha (c : UInt8) : Bool := (65 ≤ c && c ≤ 90) || (97 ≤ c && c ≤ 122)

def startsName (c : UInt8) : Bool := c == 95 || isAlpha c

def inName (c : UInt8) : Bool := c == 95 || isAlpha c || Digits.isDigit 10 c

def endofname : List UInt8 → Nat
  | [] => 0
  | c :: rest => if startsName c then 1 + (rest.takeWhile inName).length else 0

structure Name where
  bytes : List UInt8
  valid : bytes ≠ [] ∧ endofname bytes = bytes.length

def Name.word (name : Name) : Option (List UInt8) → List UInt8
  | none => name.bytes
  | some value => name.bytes ++ 61 :: value

def varinit : List (Name × Option (List UInt8) × Option Callback) :=
  [(⟨text "IFS",by decide⟩,none,none),(⟨text "MAIL",by decide⟩,none,some .changemail),
    (⟨text "MAILPATH",by decide⟩,none,some .changemail),
    (⟨text "PATH",by decide⟩,some (text "/usr/local/bin:/usr/bin:/sbin:/bin"),some .changepath),
    (⟨text "PS1",by decide⟩,some (text "$ "),none),(⟨text "PS2",by decide⟩,some (text "> "),none),
    (⟨text "PS4",by decide⟩,some (text "+ "),none),(⟨text "OPTIND",by decide⟩,some (text "1"),some .getoptsreset)]

def initOne (st : State) (init : Name × Option (List UInt8) × Option Callback) : State :=
  st.add { strfixed := true, textfixed := true, unset := init.2.1.isNone } init.2.2 ⟨init.1.word init.2.1,[]⟩

/-- `initvar`, in a shell that has nothing else yet. -/
def initvar : State :=
  varinit.foldl initOne ⟨fun _ => [],fun _ => none,fun _ => none,0,0,[],[],fun _ => false,false,true,false,0,false⟩

def State.push (st : State) (lvp : Localvar) : State := { st with localvars := lvp :: st.localvars }

def State.allexport (st : State) (flags : Flags) : Flags :=
  if st.optlist aflag then { flags with exported := true } else flags

/-- `setvareq`; the text is stored in memory of its own, by `savestr` or by the caller. -/
def setvareq (s : Text) (flags : Flags) : Sh Unit := do
  let st ← get
  let flags := st.allexport flags
  match ← reading (·.findvar s.text) with
  | some vp =>
    let v ← reading (·.vars vp)
    if v.flags.readonly then
      let n ← reading (·.texts v.text)
      raise (nameOf n.text ++ text ": is read only")
    else if flags.noset then pure ()
    else
      match if flags.nofunc then .ok () else v.callback (argument s) with
      | .error message => raise message
      | .ok () =>
        stepping (·.release v)
        modify (·.store vp (flags.merge v.flags) v.func s)
  | none => if flags.noset then pure () else modify (·.add flags none s)

/-- `setvar`; `behind` is what the new memory holds behind the string. -/
def setvar (name : List UInt8) (val : Option (List UInt8)) (flags : Flags) (behind : List UInt8) : Sh Unit :=
  let q := endofname name
  let p := q + (nameOf (name.drop q)).length
  if p = 0 ∨ p ≠ q then raise (name.take p ++ text ": bad variable name")
  else
    setvareq ⟨name.take p ++ (match val with | some value => 61 :: value | none => []),behind⟩
      { flags with unset := flags.unset || val.isNone, nosave := true }

def listsetvar (list : List (Name × List UInt8)) (flags : Flags) : Sh Unit :=
  forEach (fun lp => setvareq ⟨lp.1.word (some lp.2),[]⟩ flags) list

/-- `exportcmd` with names; `flag` is `VEXPORT` or `VREADONLY`. -/
def exportcmd (flag : Flags) (list : List (Name × Option (List UInt8))) : Sh Nat := do
  forEach (fun (name,value) => do
    match value with
    | some p => setvar (name.word value) (some p) flag []
    | none =>
      match ← reading (·.findvar (name.word value)) with
      | some vp =>
        let v ← reading (·.vars vp)
        modify (·.setVar vp { v with flags := { v.flags with
          exported := v.flags.exported || flag.exported
          readonly := v.flags.readonly || flag.readonly } })
      | none => setvar (name.word value) none flag []) list
  return 0

inductive LocalWord where
  | options
  | var (name : Name) (value : Option (List UInt8))

def mklocal : LocalWord → Sh Unit
  | .options => modify fun st => st.push (.options st.optlist)
  | .var name value => do
    match ← reading (·.findvar (name.word value)) with
    | none =>
      match value with
      | some _ => setvareq ⟨name.word value,[]⟩ { strfixed := true }
      | none => setvar (name.word value) none { strfixed := true } []
      -- the new variable
      let vp ← reading fun st => (st.vartab (hashvar (name.word value))).head?
      modify (·.push (.var ⟨vp,{ unset := true },none⟩))
    | some vp =>
      let v ← reading (·.vars vp)
      modify (·.setVar vp { v with flags := { v.flags with strfixed := true, textfixed := true } })
      match value with
      | some _ => setvareq ⟨name.word value,[]⟩ {}
      | none => pure ()
      modify (·.push (.var ⟨vp,v.flags,some v.text⟩))

def localcmd (words : List LocalWord) : Sh Nat := do
  forEach mklocal words
  return 0

def State.remove (st : State) (b vp : Nat) : State :=
  { st with
    vartab := update st.vartab b ((st.vartab b).erase vp)
    vars := update st.vars vp none }

def unsetvar (s behind : List UInt8) : Sh Nat := do
  match ← reading (·.findvar s) with
  | none => return 2
  | some vp =>
    let v ← reading (·.vars vp)
    if v.flags.readonly then return 1
    else if v.flags.unset then return 0
    else if !v.flags.strfixed then
      stepping (·.release v)
      modify (·.remove (hashvar s) vp)
      return 0
    else
      setvar s none {} behind
      let v ← reading (·.vars vp)
      modify (·.setVar vp { v with flags := { v.flags with exported := false } })
      return 0

def unsetcmd : List (Name × List UInt8) → Sh Nat
  | [] => return 0
  | (name,behind) :: rest => do
    let i ← unsetvar name.bytes behind
    let ret ← unsetcmd rest
    return if i = 1 then 1 else ret

def State.setjobctl (st : State) : State :=
  if st.optlist mflag = st.jobctl ∨ st.rootshell = false then st
  else if st.optlist mflag then
    if st.tty then { st with jobctl := true }
    else { st with optlist := update st.optlist mflag false, jobctl := false }
  else { st with jobctl := false }

def State.optschanged (st : State) : State :=
  let st := st.setjobctl
  { st with optlist := update st.optlist viflag false }

def setcmd (changes : List (Fin 14 × Bool)) : Sh Nat := do
  forEach (fun change => modify fun st => { st with optlist := update st.optlist change.1 change.2 }) changes
  modify (·.optschanged)
  return 0

def State.restoreOptions (st : State) (saved : Options) : State := { st with optlist := saved }.optschanged

def poplocalvar : Localvar → Sh Unit
  | .options saved => modify (·.restoreOptions saved)
  | .var lvp =>
    if lvp.flags.unset && !lvp.flags.strfixed then do
      let t ← reading (·.textOf lvp.vp)
      let _ ← unsetvar t.text []
      pure ()
    else do
      let v ← reading (·.vars lvp.vp)
      let p ← reading fun _ => lvp.text
      let t ← reading (·.texts p)
      match v.callback (argument t) with
      | .error message => raise message
      | .ok () =>
        stepping (·.release v)
        modify (·.setVar lvp.vp ⟨lvp.flags,p,v.func⟩)

/-- `poplocalvars` as `evalfun` calls it: an error jumps back to `funcdone`, which goes on with
the records that are left. -/
def funcdone (e : Except (List UInt8) Unit) : List Localvar → Sh (Except (List UInt8) Unit)
  | [] => pure e
  | lvp :: rest => do
    modify fun st => { st with localvars := rest }
    match ← attempt (poplocalvar lvp) with
    | .ok () => funcdone e rest
    | .error message => funcdone (.error message) rest

def State.enter (st : State) : State := { st with localvars := [], saved := st.localvars :: st.saved }

def State.leave (st : State) : State := { st with localvars := st.saved.headD [], saved := st.saved.tail }

def evalfun (body : Sh Unit) : Sh Unit := do
  modify State.enter
  let e ← attempt body
  let st ← get
  match ← funcdone e st.localvars with
  | .ok () => modify State.leave
  | .error message => do
    modify State.leave
    raise message

/-- A builtin command. An error of a special one goes on to the handler. -/
def evalbltin (special : Bool) (command : Sh Nat) : Sh Unit := do
  match ← attempt command with
  | .ok status => modify fun st => { st with exitstatus := status }
  | .error message => do
    modify fun st => { st with exitstatus := 2 }
    if special then raise message

inductive Command where
  | locals (words : List LocalWord)
  | assigns (list : List (Name × List UInt8))
  | exports (list : List (Name × Option (List UInt8)))
  | readonly (list : List (Name × Option (List UInt8)))
  | unsets (list : List (Name × List UInt8))
  | sets (changes : List (Fin 14 × Bool))

def evalcommand : Command → Sh Unit
  | .locals words => evalbltin false (localcmd words)
  | .assigns list => do
    listsetvar list {}
    evalbltin true (pure 0)
  | .exports list => evalbltin true (exportcmd { exported := true } list)
  | .readonly list => evalbltin true (exportcmd { readonly := true } list)
  | .unsets list => evalbltin true (unsetcmd list)
  | .sets changes => evalbltin true (setcmd changes)

/-- The body of a function: commands, and calls of functions with assignments before them. -/
inductive Body where
  | nil
  | command (first : Command) (rest : Body)
  | call (list : List (Name × List UInt8)) (body rest : Body)

/-- `evaltree` on a command: with `-e` a failed one ends the evaluation. -/
def checkexit (tested : Bool) (command : Sh Unit) : Sh Unit := do
  let before ← get
  command
  modify fun st =>
    if before.optlist eflag && !tested && st.exitstatus != 0 then { st with evalskip := true } else st

def evalbody (tested : Bool) : Body → Sh Unit
  | .nil => pure ()
  | .command first rest => do
    checkexit tested (evalcommand first)
    let st ← get
    if st.evalskip then pure () else evalbody tested rest
  | .call list body rest => do
    checkexit tested (do
      listsetvar list {}
      evalfun (evalbody tested body))
    let st ← get
    if st.evalskip then pure () else evalbody tested rest

end Stablebox.Ash.Variables
