import Stablebox.Lib.Descriptors
import Mathlib.Data.Fin.Basic

/-! Redirections of the shell: `redirect` and `popredir` of ash.c over the descriptor table
of the process. A saved descriptor is remembered in the redirection table of the command. -/
namespace Stablebox.Ash

open Descriptors

variable {α : Type}

inductive FileKind where
  | nfrom
  | nfromto
  | nto
  | nclobber
  | nappend
  deriving DecidableEq

/-- A redirection with what the system calls `open` or `pipe` give for it. `dup` has no
source for `>&-`. -/
inductive Redirection (α : Type) where
  | file (kind : FileKind) (fname : String) (fd : Fin 10) (opened : Option α)
  | here (fd : Fin 10) (ends : Option (α × α))
  | dup (fd : Fin 10) (dupfd : Option Nat)

def Redirection.fd : Redirection α → Fin 10
  | file _ _ fd _ => fd
  | here fd _ => fd
  | dup fd _ => fd

structure Redirtab where
  renamed : Fin 10 → Option Nat
  nullredirs : Nat

structure Shell (α : Type) where
  fds : Table α
  redirlist : List Redirtab
  nullredirs : Nat

/-- The read end of the pipe of a here document; the write end is closed again. -/
def openhere (ends : Option (α × α)) (t : Table α) : Except String (Nat × Table α) :=
  match ends with
  | none => .error "Pipe call failed"
  | some (reading,writing) =>
    match t.allocate 0 reading with
    | none => .error "Pipe call failed"
    | some (input,t) =>
      match t.allocate 0 writing with
      | none => .error "Pipe call failed"
      | some (output,t) => .ok (input,t.close output)

def openredirect (redir : Redirection α) (t : Table α) : Except String (Option Nat × Table α) :=
  match redir with
  | .file kind fname _ opened =>
    match opened.bind (t.allocate 0) with
    | none => .error (if kind = .nfrom then s!"cannot open {fname}" else s!"cannot create {fname}")
    | some (f,t) => .ok (some f,t)
  | .here _ ends => do
    let (f,t) ← openhere ends t
    return (some f,t)
  | .dup _ _ => .ok (none,t)

def copyfd (source target : Nat) (t : Table α) : Except String (Table α) :=
  match t.duplicate source target with
  | .ok (_,t) => .ok t
  | .error .mfile => .ok t
  | .error _ => .error s!"{source}: %m"

def dupredirect (redir : Redirection α) (f : Option Nat) (t : Table α) : Except String (Table α) :=
  match redir, f with
  | .dup fd dupfd,_ =>
    match dupfd with
    | some source => copyfd source fd t
    | none => .ok t
  | redir,some f =>
    if f = redir.fd then .ok t
    else do
      let t ← copyfd f redir.fd t
      return t.close f
  | _,none => .ok t

def Redirection.same : Redirection α → Bool
  | dup fd dupfd => dupfd = some fd.val
  | _ => false

def save (renamed : Fin 10 → Option Nat) (fd : Fin 10) (t : Table α) :
    Except String ((Fin 10 → Option Nat) × Table α) :=
  if renamed fd = none then
    match t.duplicate fd 10 with
    | .ok (i,t) => .ok (Function.update renamed fd (some i),t.close fd)
    | .error .badf => .ok (renamed,t)
    | .error _ => .error s!"{fd.val}: %m"
  else .ok (renamed,t.close fd)

def redirectOne (redir : Redirection α) (renamed : Fin 10 → Option Nat) (t : Table α) :
    Except String ((Fin 10 → Option Nat) × Table α) :=
  if redir.same then .ok (renamed,t)
  else do
    let (newfd,t) ← openredirect redir t
    if newfd = some redir.fd.val then return (renamed,t)
    else do
      let (renamed,t) ← save renamed redir.fd t
      let t ← dupredirect redir newfd t
      return (renamed,t)

def redirectLoop : List (Redirection α) → (Fin 10 → Option Nat) → Table α →
    Except String ((Fin 10 → Option Nat) × Table α)
  | [],renamed,t => .ok (renamed,t)
  | redir :: list,renamed,t => do
    let (renamed,t) ← redirectOne redir renamed t
    redirectLoop list renamed t

def redirect (list : List (Redirection α)) (shell : Shell α) : Except String (Shell α) :=
  if list.isEmpty then .ok { shell with nullredirs := shell.nullredirs + 1 }
  else do
    let (renamed,t) ← redirectLoop list (fun _ => none) shell.fds
    return ⟨t,⟨renamed,shell.nullredirs⟩ :: shell.redirlist,0⟩

def restore (drop : Bool) (renamed : Fin 10 → Option Nat) (t : Table α) (i : Fin 10) : Except String (Table α) :=
  match renamed i with
  | none => .ok t
  | some saved => do
    let t ← if drop then pure t else copyfd saved i (t.close i)
    return t.close saved

/-- `none` for an empty list, which is followed by a null pointer. -/
def popredir (drop : Bool) (shell : Shell α) : Except String (Option (Shell α)) :=
  match shell.nullredirs, shell.redirlist with
  | n + 1,_ => .ok (some { shell with nullredirs := n })
  | 0,[] => .ok none
  | 0,rp :: rest => do
    let t ← (List.finRange 10).foldlM (restore drop rp.renamed) shell.fds
    return some ⟨t,rest,rp.nullredirs⟩

end Stablebox.Ash
