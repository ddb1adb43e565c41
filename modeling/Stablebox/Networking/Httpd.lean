import Stablebox.Lib.Digits
import Stablebox.Libbb.GetLine

/-! Authorisation in httpd.c: the lines `/path:user:password` that `parse_conf` keeps in a
sorted list, and `checkPerm`, which scans it. `CONFIG_FEATURE_HTTPD_BASIC_AUTH` and
`CONFIG_FEATURE_HTTPD_AUTH_MD5` are on. -/
namespace Stablebox.Httpd

open Libbb

structure Htaccess where
  beforeColon : List UInt8
  afterColon : List UInt8
  deriving DecidableEq

def splitColon (s : List UInt8) : Option (List UInt8 × List UInt8) :=
  match s.dropWhile (· ≠ 58) with
  | [] => none
  | _ :: after => some (s.takeWhile (· ≠ 58),after)

def stripLine (line : List UInt8) : List UInt8 :=
  (line.takeWhile fun ch => ch ≠ 0 ∧ ch ≠ 35).filter fun ch => !Digits.isSpace ch

/-- The loop that simplifies a path. `out` is what has been kept, the last character first;
it starts with the slash at the front. -/
def simplifyLoop : (fuel : Nat) → (rest out : List UInt8) → List UInt8
  | 0,_,out => out
  | _ + 1,[],out => out
  | fuel + 1,ch :: rest,out =>
    let next : Option UInt8 := rest.head?
    if out.head? = some 47 then
      if ch = 47 then simplifyLoop fuel rest out
      else if ch = 46 ∧ (next = some 47 ∨ next = none) then simplifyLoop fuel rest out
      else if ch = 46 ∧ next = some 46 ∧ (rest.tail.head? = some 47 ∨ rest.tail = []) then
        simplifyLoop fuel rest.tail (if out.length > 1 then out.tail.dropWhile (· ≠ 47) else out)
      else simplifyLoop fuel rest (ch :: out)
    else simplifyLoop fuel rest (ch :: out)

/-- The full path of a line: root, the directory of the file and the path of the line, without
a slash at the end. -/
def fullPath (path buf : List UInt8) : List UInt8 :=
  let whole := path ++ buf
  let out := simplifyLoop whole.length whole [47]
  (if out.length = 1 ∨ out.head? ≠ some 47 then out else out.tail).reverse

/-- The full path and what follows the colon, for a line about authorisation. Lines for all
(`*`), for addresses, types and interpreters do not change the list. -/
def parseLine (path line : List UInt8) : Option (List UInt8 × List UInt8) := do
  let (buf,c) ← splitColon (stripLine line)
  if c = [] ∨ c.head? = some 42 then none
  else if buf.head? = some 47 then some (fullPath path buf,c)
  else none

def newNode (entry : List UInt8 × List UInt8) : Htaccess :=
  match splitColon (entry.1 ++ 58 :: entry.2) with
  | none => ⟨[],[]⟩
  | some (before,after) => ⟨before,after⟩

/-- `config->auth` and the pointer `prev`, which is the place of a node. -/
structure Auth where
  list : List Htaccess
  prev : Option Nat

/-- Sort path, if current length equal or bigger then move up; else add to bottom, which is
after `prev`. -/
def Auth.insert (auth : Auth) (cur : Htaccess) : Auth :=
  match auth.prev with
  | none => ⟨[cur],some 0⟩
  | some prev =>
    match auth.list.findIdx? fun hti => cur.beforeColon.length ≥ hti.beforeColon.length with
    | some i => ⟨auth.list.insertIdx i cur,some (if i ≤ prev then prev + 1 else prev)⟩
    | none => ⟨auth.list.take (prev + 1) ++ [cur],some (prev + 1)⟩

/-- `parse_conf` for a file: previous lines are kept for a subdirectory only. -/
def parseConf (subdir : Bool) (path : List UInt8) (lines : List (List UInt8)) (list : List Htaccess) : List Htaccess :=
  let kept := if subdir then list else []
  let start : Auth := ⟨kept,if kept.isEmpty then none else some 0⟩
  ((lines.filterMap (parseLine path)).foldl (fun auth entry => auth.insert (newNode entry)) start).list

structure ConfFile where
  path : List UInt8
  lines : List (List UInt8)

def parseAll (main : List (List UInt8)) (subdirs : List ConfFile) : List Htaccess :=
  subdirs.foldl (fun list file => parseConf true file.path file.lines list) (parseConf false [] main [])

def md5Hash (p : List UInt8) : Option (List UInt8) :=
  match splitColon p with
  | some (_,pp) => if pp.take 3 = text "$1$" ∧ 3 < pp.length then some pp else none
  | none => none

/-- Is the path a prefix of the request, up to a slash or its end? -/
def onPath (p0 path : List UInt8) : Bool :=
  p0.isPrefixOf path && (p0.length == 1 || path[p0.length]? == some 47 || path[p0.length]? == none)

/-- Does the line accept the request, which is split at its colon? -/
def accepts (pwEncrypt : List UInt8 → List UInt8 → List UInt8) (p request user password : List UInt8) : Bool :=
  p.take user.length == user &&
    match md5Hash p with
    | some pp => pwEncrypt password pp == pp
    | none => p == request

def checkFrom (pwEncrypt : List UInt8 → List UInt8 → List UInt8) (path request : List UInt8) :
    List Htaccess → (prev : Option (List UInt8)) → Bool
  | [],prev => prev.isNone
  | cur :: rest,prev =>
    if prev.isSome ∧ prev ≠ some cur.beforeColon then checkFrom pwEncrypt path request rest prev
    else if onPath cur.beforeColon path then
      match splitColon request with
      | none => false
      | some (user,password) =>
        if accepts pwEncrypt cur.afterColon request user password then true
        else checkFrom pwEncrypt path request rest (some cur.beforeColon)
    else checkFrom pwEncrypt path request rest prev

def checkPerm (pwEncrypt : List UInt8 → List UInt8 → List UInt8) (auth : List Htaccess)
    (path request : List UInt8) : Bool := checkFrom pwEncrypt path request auth none

/-- The test of `handleIncoming` before it answers with content: `requests` are the decoded
credentials of the Authorization headers. -/
def authorised (pwEncrypt : List UInt8 → List UInt8 → List UInt8) (auth : List Htaccess) (url : List UInt8)
    (requests : List (List UInt8)) : Bool :=
  let credentials := requests.foldl (fun _ request => checkPerm pwEncrypt auth url request) false
  credentials || checkPerm pwEncrypt auth url (text ":")

end Stablebox.Httpd
