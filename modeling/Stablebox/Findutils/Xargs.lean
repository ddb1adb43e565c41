import Stablebox.Lib.CString
import Stablebox.Lib.Machine
import Stablebox.Libbb.GetLine

/-! `xargs`: three ways of reading words from the standard input into a list, and the loop that
runs commands with words from the front of that list. -/
namespace Stablebox.Xargs

open Libbb

inductive Message where
  | invalidNumber
  | cannotFit
  | lineTooLong
  | unmatched (q : UInt8)
  | listTooLong
deriving DecidableEq

def isSpace (c : UInt8) : Bool := c == 32 || c == 9 || c == 10 || c == 13 || c == 12 || c == 11

def cString (data : List UInt8) : List UInt8 := data.takeWhile (· ≠ 0)

/-! ### Reading words -/

inductive State where
  | norm
  | quote
  | backslash
deriving DecidableEq

/-- The variables of the three functions. Only the one with quotes has `state` and `q`. -/
structure Scan where
  /-- From `s` up to `p`, if `s` is set. -/
  word : Option (List UInt8)
  state : State
  q : UInt8
  eofStrDetected : Bool
  lineL : Nat
  /-- The words, with their terminators. -/
  list : List (List UInt8)

def scan (list : List (List UInt8)) : Scan := ⟨none,.norm,0,false,(list.map List.length).sum,list⟩

/-- The list and the input that is left when a function returns, and `eof_stdin_detected`. -/
structure Read where
  list : List (List UInt8)
  rest : List UInt8
  eof : Bool

/-- The body of a loop for a character, which goes on or breaks, and for the end of the input. -/
structure Body where
  turn : Scan → UInt8 → Except Message (Scan ⊕ Scan)
  close : Scan → Except Message (List (List UInt8))

def Body.loop (body : Body) : Scan → List UInt8 → Except Message Read
  | r,[] =>
    match body.close r with
    | .error message => .error message
    | .ok list => .ok ⟨list,[],true⟩
  | r,c :: rest =>
    match body.turn r c with
    | .error message => .error message
    | .ok (.inl r) => body.loop r rest
    | .ok (.inr r) => .ok ⟨r.list,rest,false⟩

def set (mc : Nat) (word : List UInt8) (c : UInt8) : Except Message (List UInt8) :=
  if word.length ≥ mc then .error .lineTooLong else .ok (word ++ [c])

def add (mc : Nat) (r : Scan) (data : List UInt8) : Scan ⊕ Scan :=
  if r.lineL + data.length > mc then
    .inr { r with word := none,state := .norm,list := r.list ++ [data],lineL := r.lineL + data.length }
  else .inl { r with word := none,state := .norm,list := r.list ++ [data],lineL := r.lineL + data.length }

/-- A word that is loaded: the end-of-file string or one for the list. -/
def load (mc : Nat) (eofStr : Option (List UInt8)) (r : Scan) (data : List UInt8) : Scan ⊕ Scan :=
  if eofStr = some (cString data) then .inl { r with word := none,state := .norm,eofStrDetected := true }
  else add mc r data

def listOf : Scan ⊕ Scan → List (List UInt8)
  | .inl r => r.list
  | .inr r => r.list

def finish (mc : Nat) (eofStr : Option (List UInt8)) (r : Scan) (word : List UInt8) : Except Message (Scan ⊕ Scan) :=
  match set mc word 0 with
  | .error message => .error message
  | .ok data => if r.q ≠ 0 then .error (.unmatched r.q) else .ok (load mc eofStr r data)

def store (mc : Nat) (r : Scan) (state : State) (c : UInt8) : Except Message (Scan ⊕ Scan) :=
  match set mc (r.word.getD []) c with
  | .error message => .error message
  | .ok word => .ok (.inl { r with word := some word,state })

/-- `process_stdin` with quotes. -/
def quotesBody (mc : Nat) (eofStr : Option (List UInt8)) : Body where
  turn r c :=
    if r.eofStrDetected then .ok (.inl r)
    else
      match r.state with
      | .backslash => store mc r .norm c
      | .quote => if c = r.q then .ok (.inl { r with q := 0,state := .norm }) else store mc r .quote c
      | .norm =>
        if isSpace c then
          match r.word with
          | none => .ok (.inl r)
          | some word => finish mc eofStr r word
        else if c = 92 then .ok (.inl { r with word := some (r.word.getD []),state := .backslash })
        else if c = 39 ∨ c = 34 then .ok (.inl { r with word := some (r.word.getD []),q := c,state := .quote })
        else store mc r .norm c
  close r :=
    match r.word with
    | none => .ok r.list
    | some word => (finish mc eofStr r word).map listOf

/-- `process_stdin` without quotes. -/
def plainBody (mc : Nat) (eofStr : Option (List UInt8)) : Body where
  turn r c :=
    if r.eofStrDetected then .ok (.inl r)
    else if isSpace c then
      match r.word with
      | none => .ok (.inl r)
      | some word => (set mc word 0).map (load mc eofStr r)
    else store mc r .norm c
  close r :=
    if r.eofStrDetected then .ok r.list
    else
      match r.word with
      | none => .ok r.list
      | some word => ((set mc word 0).map (load mc eofStr r)).map listOf

/-- `process0_stdin`, which does not look for the end-of-file string. -/
def zeroBody (mc : Nat) : Body where
  turn r c := if c = 0 then (set mc (r.word.getD []) 0).map (add mc r) else store mc r .norm c
  close r :=
    match r.word with
    | none => .ok r.list
    | some word => ((set mc word 0).map (add mc r)).map listOf

/-! ### Running commands -/

/-- The options, the configuration and the system's `ARG_MAX`. -/
structure Options where
  /-- `CONFIG_FEATURE_XARGS_SUPPORT_QUOTES`. -/
  quotes : Bool
  /-- `CONFIG_FEATURE_XARGS_SUPPORT_TERMOPT`. -/
  termopt : Bool
  argMax : Nat
  large : 4096 ≤ argMax
  /-- `-0`. -/
  zero : Bool
  /-- `-r`. -/
  noEmpty : Bool
  /-- `-x`. -/
  terminate : Bool
  /-- `-n`. -/
  maxArgs : Option Nat
  /-- `-s`. -/
  maxChars : Option Nat
  /-- `-e`, or the default; none for `-e` without a string. -/
  eofStr : Option (List UInt8)
  /-- What follows the options. -/
  operands : List (List UInt8)

def noOptions : Options := ⟨false,false,131072,by decide,false,false,false,none,none,some (text "_"),[]⟩

def Options.argv (o : Options) : List (List UInt8) := if o.operands = [] then [text "echo"] else o.operands

/-- The fixed arguments' share: the loop adds up the length of `*argv` as often as there are arguments. -/
def Options.share (o : Options) : Nat := o.argv.length * ((o.argv.headD []).length + 1)

structure Limits where
  nMaxChars : Nat
  nMaxArg : Int
deriving DecidableEq

def Options.nMaxChars (o : Options) : Except Message Nat :=
  match o.maxChars with
  | some n =>
    if n < 1 ∨ o.argMax - 2048 < n then .error .invalidNumber
    else if n < o.share then .error .cannotFit
    else .ok (n - o.share)
  | none => .ok (min (o.argMax - 2048) (20 * 1024))

/-- The largest number of arguments; without `-n` it is the number of characters, as an `int`. -/
def Options.limits (o : Options) : Except Message Limits :=
  match o.nMaxChars with
  | .error message => .error message
  | .ok nMaxChars =>
    match o.maxArgs with
    | some n => if n < 1 ∨ 2 ^ 31 - 1 < n then .error .invalidNumber else .ok ⟨nMaxChars,n⟩
    | none => .ok ⟨nMaxChars,(nMaxChars : Int).bmod (2 ^ 32)⟩

def Options.body (o : Options) (mc : Nat) : Body :=
  if o.zero then zeroBody mc else if o.quotes then quotesBody mc o.eofStr else plainBody mc o.eofStr

def Options.readArgs (o : Options) (mc : Nat) (list : List (List UInt8)) (rest : List UInt8) (eof : Bool) :
    Except Message Read :=
  if eof then .ok ⟨list,rest,eof⟩ else (o.body mc).loop (scan list) rest

/-- How many words the next command gets, with `-x` in the configuration. -/
def countTermopt (l : Limits) (terminate : Bool) : Nat → Nat → List (List UInt8) → Except Message Nat
  | _,n,[] => .ok n
  | nChars,n,data :: link =>
    if nChars + data.length > l.nMaxChars ∨ ((n + 1 : Nat) = l.nMaxArg ∧ link ≠ []) then
      if terminate then .error .listTooLong else .ok (n + 1)
    else countTermopt l terminate (nChars + data.length) (n + 1) link

def countPlain (l : Limits) : Nat → Nat → List (List UInt8) → Nat
  | _,n,[] => n
  | nChars,n,data :: link =>
    if nChars + data.length > l.nMaxChars ∨ (n + 1 : Nat) = l.nMaxArg then n + 1
    else countPlain l (nChars + data.length) (n + 1) link

def Options.count (o : Options) (l : Limits) (list : List (List UInt8)) : Except Message Nat :=
  if o.termopt then countTermopt l o.terminate 0 0 list else .ok (countPlain l 0 0 list)

structure Run where
  list : List (List UInt8)
  rest : List UInt8
  eof : Bool
  noEmpty : Bool
  childError : Nat
  commands : List (List (List UInt8))

inductive Ending where
  | returned (childError : Nat)
  | died (message : Message)
deriving DecidableEq

structure Result where
  commands : List (List (List UInt8))
  ending : Ending
deriving DecidableEq

def Run.after (s : Run) (r : Read) (n childError : Nat) (args : List (List UInt8)) : Run :=
  ⟨r.list.drop n,r.rest,r.eof,true,childError,s.commands ++ [args]⟩

/-- One turn of the loop. `status i` is what `xargs_exec` returns for command `i`. -/
def step (o : Options) (l : Limits) (status : Nat → Nat) (s : Run) : Run ⊕ Result :=
  match o.readArgs l.nMaxChars s.list s.rest s.eof with
  | .error message => .inr ⟨s.commands,.died message⟩
  | .ok r =>
    if r.list = [] ∧ s.noEmpty = true then .inr ⟨s.commands,.returned s.childError⟩
    else
      match o.count l r.list with
      | .error message => .inr ⟨s.commands,.died message⟩
      | .ok n =>
        let args := o.argv ++ (r.list.take n).map cString
        let childError := status s.commands.length
        if childError > 0 ∧ childError ≠ 123 then .inr ⟨s.commands ++ [args],.returned childError⟩
        else .inl (s.after r n childError args)

def Options.start (o : Options) (input : List UInt8) : Run := ⟨[],input,false,o.noEmpty,0,[]⟩

/-- `xargs_main` comes to an end with `result`. -/
def Options.Runs (o : Options) (status : Nat → Nat) (input : List UInt8) (result : Result) : Prop :=
  match o.limits with
  | .error message => result = ⟨[],.died message⟩
  | .ok l => Yields (step o l status) (o.start input) result

/-! ### The words of an input -/

inductive Token where
  | word (w : List UInt8)
  /-- The end-of-file string. -/
  | stop (w : List UInt8)
  | unmatched

inductive Mode where
  | norm
  | quote (q : UInt8)
  | backslash

/-- The words of a text with quotes, with what is read of the first of them. -/
def quotedTokens : Mode → Option (List UInt8) → List UInt8 → List Token
  | .quote _,_,[] => [.unmatched]
  | _,none,[] => []
  | _,some w,[] => [.word w]
  | .backslash,w,c :: text => quotedTokens .norm (some (w.getD [] ++ [c])) text
  | .quote q,w,c :: text =>
    if c = q then quotedTokens .norm w text else quotedTokens (.quote q) (some (w.getD [] ++ [c])) text
  | .norm,w,c :: text =>
    if isSpace c then
      match w with
      | none => quotedTokens .norm none text
      | some w => .word w :: quotedTokens .norm none text
    else if c = 92 then quotedTokens .backslash (some (w.getD [])) text
    else if c = 39 ∨ c = 34 then quotedTokens (.quote c) (some (w.getD [])) text
    else quotedTokens .norm (some (w.getD [] ++ [c])) text

def plainTokens (text : List UInt8) : List Token := ((text.splitOnP isSpace).filter (· ≠ [])).map .word

def zeroTokens (text : List UInt8) : List Token :=
  (if (text.splitOnP (· == 0)).getLast? = some [] then (text.splitOnP (· == 0)).dropLast
    else text.splitOnP (· == 0)).map .word

def upTo (eofStr : Option (List UInt8)) : List Token → List Token
  | [] => []
  | .word w :: tokens => if eofStr = some (cString w) then [.stop w] else .word w :: upTo eofStr tokens
  | token :: tokens => token :: upTo eofStr tokens

def Options.tokens (o : Options) (input : List UInt8) : List Token :=
  if o.zero then zeroTokens input
  else if o.quotes then upTo o.eofStr (quotedTokens .norm none input)
  else upTo o.eofStr (plainTokens input)

def wordsOf : List Token → List (List UInt8)
  | [] => []
  | .word w :: tokens => w :: wordsOf tokens
  | _ :: tokens => wordsOf tokens

def Options.words (o : Options) (input : List UInt8) : List (List UInt8) := wordsOf (o.tokens input)

def Token.Fits (mc : Nat) : Token → Prop
  | .word w => w.length < mc
  | .stop w => w.length < mc
  | .unmatched => False

def AllFit (mc : Nat) (tokens : List Token) : Prop := ∀ token ∈ tokens, token.Fits mc

end Stablebox.Xargs
