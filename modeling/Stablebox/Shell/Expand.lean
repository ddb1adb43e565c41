import Stablebox.Libbb.GetLine
import Mathlib.Algebra.Order.Ring.Nat

/-! Expansion of a word by ash.c: `argstr` puts the text with the values of its parameters on the
stack string and records the regions to split, `ifsbreakup` cuts them and `expandmeta` looks for
file names. The words are made of literal text, quotes and parameters without an operator
(`VSNORMAL`); tildes, commands and arithmetic in a word are not modelled. -/
namespace Stablebox.Ash.Expand

open Libbb

def ctlEsc : UInt8 := 0x81
def ctlVar : UInt8 := 0x82
def ctlEndVar : UInt8 := 0x83
def ctlBackQ : UInt8 := 0x84
def ctlQuote : UInt8 := 1
def ctlEndAri : UInt8 := 0x87
def ctlQuoteMark : UInt8 := 0x88

def vsType : UInt8 := 0x0f
def vsNul : UInt8 := 0x10
def vsQuote : UInt8 := 0x80
def vsNormal : UInt8 := 1

def backslash : UInt8 := 92
def slash : UInt8 := 47

/-- A string in memory has no null byte before its end. -/
structure CString where
  bytes : List UInt8
  plain : 0 ∉ bytes

inductive Syntax where
  | base
  | dq
  | sq
  | ari
  deriving DecidableEq

inductive SyntaxClass where
  | cword
  | cnl
  | cback
  | csquote
  | cdquote
  | cendquote
  | cbquote
  | cvar
  | cendvar
  | clp
  | crp
  | cctl
  | cspcl
  deriving DecidableEq

structure SyntaxRow where
  base : SyntaxClass
  dq : SyntaxClass
  sq : SyntaxClass
  ari : SyntaxClass

def SyntaxRow.column (row : SyntaxRow) : Syntax → SyntaxClass
  | .base => row.base
  | .dq => row.dq
  | .sq => row.sq
  | .ari => row.ari

/-- The bytes of `spec_symbls` with their lines of `S_I_T`. -/
def specSymbls : List (List UInt8 × SyntaxRow) :=
  [(text "\t &;<>|",⟨.cspcl,.cword,.cword,.cword⟩),(text "\n",⟨.cnl,.cnl,.cnl,.cnl⟩),
   (text "!*-/:=?[]~",⟨.cword,.cctl,.cctl,.cword⟩),
   (text "\"",⟨.cdquote,.cendquote,.cword,.cword⟩),
   (text "$",⟨.cvar,.cvar,.cword,.cvar⟩),
   (text "'",⟨.csquote,.cword,.cendquote,.cword⟩),
   (text "(",⟨.cspcl,.cword,.cword,.clp⟩),
   (text ")",⟨.cspcl,.cword,.cword,.crp⟩),
   (text "\\",⟨.cback,.cback,.cctl,.cback⟩),
   (text "\x60",⟨.cbquote,.cbquote,.cword,.cbquote⟩),
   (text "\x7d",⟨.cendvar,.cendvar,.cword,.cendvar⟩)]

def sit (c : UInt8) (table : Syntax) : SyntaxClass :=
  if ctlEsc ≤ c ∧ c ≤ ctlQuoteMark then .cctl
  else
    match specSymbls.find? (fun line => line.1.contains c) with
    | some line => line.2.column table
    | none => .cword

def special (c : UInt8) (table : Syntax) : Bool :=
  sit c table = .cctl || sit c table = .cback

/-- What the expansion reads of the shell; `ifs` is `none` when it is not set. -/
structure Shell where
  arg0 : CString
  params : List CString
  ifs : Option CString
  lookupvar : List UInt8 → Option CString
  rootpid : Int
  exitstatus : Int
  backgndpid : Int
  optletters : List UInt8
  uflag : Bool
  fflag : Bool

structure Files where
  readdir : List UInt8 → Option (List CString)
  lstat : List UInt8 → Bool
  fnmatch : List UInt8 → List UInt8 → Bool

structure Flags where
  full : Bool := false
  casePattern : Bool := false
  redir : Bool := false

def Flags.quotes (flags : Flags) : Bool := flags.full || flags.casePattern

inductive Stop where
  | error (message : List UInt8)
  | unmodelled

structure Region where
  begoff : Nat
  endoff : Nat
  nulonly : Bool
  deriving DecidableEq

/-- The stack string up to `expdest` and the recorded regions. -/
structure Dest where
  bytes : List UInt8
  regions : List Region
  deriving DecidableEq

def Dest.put (dest : Dest) (bytes : List UInt8) : Dest := { dest with bytes := dest.bytes ++ bytes }

def Dest.recordregion (dest : Dest) (start stop : Nat) (nulonly : Bool) : Dest :=
  { dest with regions := dest.regions ++ [⟨start,stop,nulonly⟩] }

def memtodest (p : List UInt8) (table : Syntax) (quotes : Bool) : List UInt8 :=
  p.flatMap fun c =>
    if c = 0 then [] else if quotes && special c table then [ctlEsc,c] else [c]

def joinParams (params : List CString) (table : Syntax) (quotes : Bool) (sep : List UInt8) : List UInt8 :=
  sep.intercalate (params.map fun p => memtodest p.bytes table quotes)

/-- The separator of `$*`: the first byte of `IFS`, or nothing when `IFS` is empty. -/
def starSep (sh : Shell) (table : Syntax) (quotes : Bool) : List UInt8 :=
  let sep := match sh.ifs with
    | some ifs => ifs.bytes.headD 0
    | none => 32
  if sep = 0 then [] else if quotes && special sep table then [ctlEsc,sep] else [sep]

def atoi (name : List UInt8) : Nat :=
  (name.takeWhile fun c => 48 ≤ c ∧ c ≤ 57).foldl (fun n c => 10 * n + (c.toNat - 48)) 0

def positional (sh : Shell) (num : Nat) : Option CString :=
  if num = 0 then some sh.arg0 else sh.params[num - 1]?

/-- What is written for a parameter without an operator, and the length that is returned; `none`
is a parameter that is not set. -/
def varvalue (sh : Shell) (name : List UInt8) (quoted : Bool) (flags : Flags) : Option (List UInt8 × Nat) :=
  let table := if quoted then .dq else .base
  let number (num : Int) := some (text (toString num),(toString num).length)
  let value (p : CString) := (memtodest p.bytes table flags.quotes,p.bytes.length)
  let joined (sep : List UInt8) (seplen : Nat) :=
    some (joinParams sh.params table flags.quotes sep,
      (sh.params.map fun p => p.bytes.length).sum + seplen * (sh.params.length - 1))
  match name.headD 0 with
  | 36 => number sh.rootpid
  | 63 => number sh.exitstatus
  | 35 => number sh.params.length
  | 33 => if sh.backgndpid = 0 then none else number sh.backgndpid
  | 45 => some (sh.optletters,sh.optletters.length)
  | 64 =>
    -- the separator of a quoted "$@" is `1 << CHAR_BIT`, a null byte once it is stored
    if quoted && flags.full then joined [0] 1
    else joined (starSep sh table flags.quotes) (if starSep sh table flags.quotes = [] then 0 else 1)
  | 42 => joined (starSep sh table flags.quotes) (if starSep sh table flags.quotes = [] then 0 else 1)
  | c =>
    if 48 ≤ c ∧ c ≤ 57 then (positional sh (atoi name)).map value
    else (sh.lookupvar (name.takeWhile (· ≠ 61))).map value

/-- The text after `CTLVAR`: the flags, the name and `=`. The rest of the word is returned. -/
def evalvar (sh : Shell) (flags : Flags) (p : List UInt8) (dest : Dest) : Except Stop (Dest × List UInt8) :=
  match p with
  | [] => .error .unmodelled
  | varflags :: var =>
    let quoted := decide (varflags &&& vsQuote ≠ 0)
    if varflags &&& vsType ≠ vsNormal then .error .unmodelled
    else
      let easy := !quoted || (var.headD 0 == 64 && !sh.params.isEmpty)
      let p := (var.dropWhile (· ≠ 61)).drop 1
      let startloc := dest.bytes.length
      let value := varvalue sh var quoted flags
      let unset := match value with
        | none => true
        | some (_,len) => varflags &&& vsNul ≠ 0 && len == 0
      if unset && sh.uflag then
        .error (.error (var.takeWhile (· ≠ 61) ++ text ": parameter not set"))
      else
        let dest := dest.put ((value.map (·.1)).getD [])
        .ok (if easy then dest.recordregion startloc dest.bytes.length quoted else dest,p)

def dolatstr : List UInt8 := [ctlVar,vsNormal ||| vsQuote,64,61]

/-- Does `"$@"` stand behind an opening quote mark? -/
def isDolat (p : List UInt8) : Bool :=
  p.take 4 == dolatstr &&
    (p[4]? == some ctlQuoteMark || (p[4]? == some ctlEndVar && p[5]? == some ctlQuoteMark))

/-- A step reads at least one byte of the text. -/
def argstr (sh : Shell) (flags : Flags) : Nat → List UInt8 → Bool → Dest → Except Stop Dest
  | 0,_,_,_ => .error .unmodelled
  | _ + 1,[],_,dest => .ok dest
  | fuel + 1,c :: p,inquotes,dest =>
    if c = 0 ∨ c = ctlEndVar then .ok dest
    else if c = ctlQuoteMark then
      if !inquotes && isDolat p then
        match evalvar sh flags (p.drop 1) dest with
        | .error stop => .error stop
        | .ok (dest,p) => argstr sh flags fuel (p.drop 1) inquotes dest
      else argstr sh flags fuel p (!inquotes) (if flags.quotes then dest.put [c] else dest)
    else if c = ctlEsc then
      match p with
      | [] => .ok dest
      | e :: p =>
        argstr sh flags fuel p inquotes (dest.put (if flags.quotes then [ctlEsc,e] else [e]))
    else if c = ctlVar then
      match evalvar sh flags p dest with
      | .error stop => .error stop
      | .ok (dest,p) => argstr sh flags fuel p inquotes dest
    else if c = ctlBackQ ∨ c = ctlBackQ ||| ctlQuote ∨ c = ctlEndAri then .error .unmodelled
    else argstr sh flags fuel p inquotes (dest.put [c])

def defifs : List UInt8 := text " \t\n"

def strchr (s : List UInt8) (c : UInt8) : Bool := c == 0 || s.contains c

def byteAt (mem : List UInt8) (i : Nat) : UInt8 := mem.getD i 0

def stringAt (mem : List UInt8) (i : Nat) : List UInt8 := (mem.drop i).takeWhile (· ≠ 0)

def skipEsc (mem : List UInt8) (p : Nat) : Nat := if byteAt mem p = ctlEsc then p + 1 else p

/-- The inner loop of `ifsbreakup`: the rest of a delimiter. -/
def skipDelimiter (mem ifs : List UInt8) (endoff : Nat) : Nat → Nat → Bool → Nat × Bool
  | 0,p,ifsspc => (p,ifsspc)
  | fuel + 1,p,ifsspc =>
    if p ≥ endoff then (p,ifsspc)
    else
      let c := byteAt mem (skipEsc mem p)
      if !strchr ifs c then (p,ifsspc)
      else if !strchr defifs c then
        if ifsspc then skipDelimiter mem ifs endoff fuel (skipEsc mem p + 1) false else (p,ifsspc)
      else skipDelimiter mem ifs endoff fuel (skipEsc mem p + 1) ifsspc

/-- The variables of `ifsbreakup`; `starts` are the texts of the argument list. -/
structure Split where
  mem : List UInt8
  p : Nat
  start : Nat
  ifsspc : Bool
  starts : List Nat

def scanRegion (ifs : List UInt8) (region : Region) : Nat → Split → Split
  | 0,s => s
  | fuel + 1,s =>
    if s.p ≥ region.endoff then s
    else
      let p := skipEsc s.mem s.p
      let c := byteAt s.mem p
      if strchr ifs c then
        let ifsspc := if region.nulonly then s.ifsspc else strchr defifs c
        if s.p = s.start ∧ ifsspc then
          scanRegion ifs region fuel { s with p := p + 1, start := p + 1, ifsspc := ifsspc }
        else
          let mem := s.mem.set s.p 0
          let next :=
            if region.nulonly then (p + 1,ifsspc)
            else skipDelimiter mem ifs region.endoff (region.endoff - (p + 1)) (p + 1) ifsspc
          scanRegion ifs region fuel
            { mem := mem, p := next.1, start := next.1, ifsspc := next.2, starts := s.starts ++ [s.start] }
      else scanRegion ifs region fuel { s with p := p + 1 }

def breakRegion (realifs : List UInt8) (s : Split) (region : Region) : Split :=
  scanRegion (if region.nulonly then [] else realifs) region (region.endoff - region.begoff)
    { s with p := region.begoff, ifsspc := false }

def ifsbreakup (sh : Shell) (string : List UInt8) (regions : List Region) : List (List UInt8) :=
  let realifs := match sh.ifs with
    | some ifs => ifs.bytes
    | none => defifs
  let s := regions.foldl (breakRegion realifs) ⟨string,0,0,false,[]⟩
  let nulonly := match regions.getLast? with
    | some region => region.nulonly
    | none => false
  let starts := if !nulonly && byteAt s.mem s.start == 0 then s.starts else s.starts ++ [s.start]
  starts.map (stringAt s.mem)

def isQchar (c : UInt8) : Bool := c == ctlEsc || c == ctlQuoteMark

/-- The loop of `_rmescapes`. `inquotes` is complemented at a quote mark. -/
def rmescapesLoop (globbing : Bool) : UInt32 → Bool → List UInt8 → List UInt8
  | _,_,[] => []
  | inquotes,notescaped,c :: p =>
    if c = ctlQuoteMark then rmescapesLoop globbing (~~~inquotes) globbing p
    else if c = backslash then c :: rmescapesLoop globbing inquotes false p
    else if c = ctlEsc then
      match p with
      | [] => []
      | e :: p =>
        (if notescaped && inquotes != 0 && e != slash then [backslash,e] else [e]) ++
          rmescapesLoop globbing inquotes globbing p
    else c :: rmescapesLoop globbing inquotes globbing p

/-- `_rmescapes` with `RMESCAPE_GLOB` and `RMESCAPE_QUOTED`. What stands before the first escape
or quote mark is copied. -/
def rmescapesWith (globbing quoted : Bool) (str : List UInt8) : List UInt8 :=
  str.takeWhile (!isQchar ·) ++
    rmescapesLoop globbing (if quoted then 0 else 4) globbing (str.dropWhile (!isQchar ·))

def rmescapes (str : List UInt8) : List UInt8 := rmescapesWith false false str

def preglob (pattern : List UInt8) (quoted : Bool) : List UInt8 := rmescapesWith true quoted pattern

def unescape : List UInt8 → List UInt8
  | [] => []
  | c :: p =>
    if c = backslash then
      match p with
      | [] => []
      | e :: p => e :: unescape p
    else c :: unescape p

def bracketCloses : List UInt8 → Bool
  | [] => false
  | c :: q =>
    if c = backslash then
      match q with
      | [] => false
      | e :: q => e != slash && (q.head? == some 93 || bracketCloses q)
    else c != slash && (q.head? == some 93 || bracketCloses q)

/-- The first component with a metacharacter: where it starts and where it ends. -/
structure Component where
  metaflag : Bool
  start : Nat
  stop : Nat

def scanName : List UInt8 → Nat → Nat → Bool → Component
  | [],pos,start,metaflag => ⟨metaflag,start,pos⟩
  | c :: p,pos,start,metaflag =>
    if c = 42 ∨ c = 63 then scanName p (pos + 1) start true
    else if c = 91 then
      scanName p (pos + 1) start (metaflag || bracketCloses (if p.head? = some 33 then p.drop 1 else p))
    else if c = backslash then
      match p with
      | [] => ⟨metaflag,start,pos + 1⟩
      | _ :: p => scanName p (pos + 2) start metaflag
    else if c = slash then
      if metaflag then ⟨metaflag,start,pos⟩ else scanName p (pos + 1) (pos + 1) metaflag
    else scanName p (pos + 1) start metaflag

def directory (expdir : List UInt8) : List UInt8 :=
  if expdir = [] then text "."
  else if expdir = [slash] then text "/"
  else expdir.dropLast

/-- The names that match; a step is one component of the name. -/
def expmeta (files : Files) : Nat → List UInt8 → List UInt8 → List (List UInt8)
  | 0,_,_ => []
  | fuel + 1,expdir,name =>
    let found := scanName name 0 0 false
    if !found.metaflag then
      let path := expdir ++ unescape name
      if expdir.isEmpty || files.lstat path then [path] else []
    else
      let expdir := expdir ++ unescape (name.take found.start)
      match files.readdir (directory expdir) with
      | none => []
      | some entries =>
        let pattern := (name.take found.stop).drop found.start
        let matchdot := (if pattern.head? = some backslash then pattern.drop 1 else pattern).head? == some 46
        entries.flatMap fun entry =>
          if entry.bytes.head? = some 46 ∧ !matchdot then []
          else if files.fnmatch pattern entry.bytes then
            if found.stop ≥ name.length then [expdir ++ entry.bytes]
            else expmeta files fuel (expdir ++ entry.bytes ++ [slash]) (name.drop (found.stop + 1))
          else []

/-- The loop of `msort`; the first list is the second half. -/
def mergeLists : List (List UInt8) → List (List UInt8) → List (List UInt8)
  | [],q => q
  | p,[] => p
  | a :: p,b :: q => if a < b then a :: mergeLists p (b :: q) else b :: mergeLists (a :: p) q
termination_by p q => p.length + q.length

def msort (list : List (List UInt8)) : List (List UInt8) :=
  if list.length ≤ 1 then list
  else
    mergeLists (msort (list.drop (list.length / 2))) (msort (list.take (list.length / 2)))
termination_by list.length
decreasing_by all_goals simp; omega

def expsort (str : List (List UInt8)) : List (List UInt8) := msort str

def metachars : List UInt8 := text "*?["

def expandText (sh : Shell) (files : Files) (str : List UInt8) : List (List UInt8) :=
  if sh.fflag || !str.any metachars.contains then [rmescapes str]
  else
    let name := preglob str false
    match expmeta files (name.length + 1) [] name with
    | [] => [rmescapes str]
    | found => expsort found

def expandmeta (sh : Shell) (files : Files) (strs : List (List UInt8)) : List (List UInt8) :=
  strs.flatMap (expandText sh files)

def expandarg (sh : Shell) (files : Files) (flags : Flags) (word : List UInt8) : Except Stop (List (List UInt8)) :=
  match argstr sh flags (word.length + 1) word false ⟨[],[]⟩ with
  | .error stop => .error stop
  | .ok dest =>
    if flags.full then .ok (expandmeta sh files (ifsbreakup sh dest.bytes dest.regions))
    else
      let p := stringAt dest.bytes 0
      .ok [if flags.redir then rmescapes p else p]

end Stablebox.Ash.Expand
