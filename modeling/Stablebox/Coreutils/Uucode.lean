import Stablebox.Lib.Digits
import Stablebox.Libbb.GetLine

/-! The applets uuencode and uudecode, in the traditional encoding and in base64. -/
namespace Stablebox.Uucode

open UInt8

open List

open Libbb

def tblBase64 : List UInt8 :=
  (range' 65 26 ++ range' 97 26 ++ range' 48 10 ++ [43,47,61]).map ofNat

def tblStd : List UInt8 := (96 :: range' 33 63 ++ [96]).map ofNat

def encoded (tbl : List UInt8) (i : Nat) : UInt8 := tbl.getD i 0

/-- Transform the 3x8 bits to 4x6 bits, for `turns` groups. -/
def encodeGroups (tbl : List UInt8) : (turns : Nat) → List UInt8 → List UInt8
  | 0,_ => []
  | turns + 1,s =>
    let a := (s.getD 0 0).toNat
    let b := (s.getD 1 0).toNat
    let c := (s.getD 2 0).toNat
    [encoded tbl (a / 4),encoded tbl (a % 4 * 16 + b / 16),encoded tbl (b % 16 * 4 + c / 64),encoded tbl (c % 64)] ++
      encodeGroups tbl turns (s.drop 3)

def uuencode (s : List UInt8) (length : Nat) (tbl : List UInt8) : List UInt8 :=
  let i := 3 * ((length + 2) / 3)
  let store := encodeGroups tbl ((length + 2) / 3) s
  if i = length + 1 then store.dropLast ++ [encoded tbl 64]
  else if i = length + 2 then store.dropLast.dropLast ++ [encoded tbl 64,encoded tbl 64]
  else store

def srcBufSize : Nat := 45

/-- The loop of `uuencode_main`; `reads` is what the calls of `fread` give until the end of
the file. -/
def encodeLines (base64 : Bool) : (reads : List (List UInt8)) → (writeSize : Nat) → List UInt8
  | [],_ => []
  | chunk :: reads,writeSize =>
    let tbl := if base64 then tblBase64 else tblStd
    let size := chunk.length
    if size = 0 then []
    else
      let short := size ≠ srcBufSize
      let writeSize := if short then 4 * ((size + 2) / 3) else writeSize
      let srcBuf := if short then chunk ++ replicate (srcBufSize - size) 0 else chunk
      10 :: (if base64 then [] else [encoded tbl size]) ++ (uuencode srcBuf size tbl).take writeSize ++
        encodeLines base64 reads writeSize

inductive SrcStream where
  | named (stMode : Nat)
  | stdin (umask : Nat)

def SrcStream.mode : SrcStream → Nat
  | named stMode => stMode % 512
  | stdin umask => 438 - (438 &&& umask)

def uuencodeMain (base64 : Bool) (src : SrcStream) (name : List UInt8) (reads : List (List UInt8)) : List UInt8 :=
  text "begin" ++ (if base64 then text "-base64" else []) ++ text " " ++ Digits.print 8 0 src.mode ++ text " " ++
    name ++ encodeLines base64 reads (4 * ((srcBufSize + 2) / 3)) ++
    if base64 then text "\n====\n" else text "\n\x60\nend\n"

/-- `undefined`: a string is read behind its end. -/
inductive Failure where
  | died (message : String)
  | undefined
  deriving DecidableEq

def sixBits (c : UInt8) : Nat := (c - 0x20).toNat % 64

def mergeStd : (length : Nat) → List UInt8 → List UInt8
  | 0,_ => []
  | length + 1,line =>
    let char (i : Nat) : Nat := sixBits (line.getD i 0)
    let first := ofNat (char 0 * 4 ||| char 1 / 16)
    let second := ofNat (char 1 * 16 ||| char 2 / 4)
    let third := ofNat (char 2 * 64 ||| char 3)
    match length with
    | 0 => [first]
    | 1 => [first,second]
    | 2 => [first,second,third]
    | length + 3 => first :: second :: third :: mergeStd length (line.drop 4)

/-- `read_stduu`; each turn reads a line, so the length of the file is enough fuel. -/
def readStduu : (fuel : Nat) → (file : List UInt8) → Except Failure (List UInt8)
  | 0,_ => .error (.died "Short file")
  | fuel + 1,file =>
    match bbGetChompedLineFromFile file with
    | none => .error (.died "Short file")
    | some (line,file) =>
      if line = text "end" then .ok []
      else
        match line with
        | [] => .error .undefined
        | size :: line =>
          let length := sixBits size * 4 / 3
          if length = 0 then readStduu fuel file
          else if length > 60 then .error (.died "Line too long")
          else if line.length < length then .error (.died "Short file")
          else do
            let others ← readStduu fuel file
            return mergeStd length line ++ others

def base64Table : List UInt8 := tblBase64 ++ [10]

def base64Index (ch : UInt8) : Option Nat := (base64Table ++ [0]).idxOf? ch

def mergeBase64 : List Nat → List UInt8
  | [a,b] => [ofNat (a * 4 ||| b / 16)]
  | [a,b,c] => [ofNat (a * 4 ||| b / 16),ofNat (b * 16 ||| c / 4)]
  | [a,b,c,d] => [ofNat (a * 4 ||| b / 16),ofNat (b * 16 ||| c / 4),ofNat (c * 64 ||| d)]
  | _ => []

/-- `read_base64`, one character at a time: `translated` are the characters of a group so
far. -/
def readBase64 : (file : List UInt8) → (translated : List Nat) → (termCount : Nat) → Except Failure (List UInt8)
  | [],_,_ => .error (.died "Short file")
  | ch :: file,translated,termCount =>
    match base64Index ch with
    | none => readBase64 file translated termCount
    | some index =>
      if ch = 61 then
        if termCount = 0 then do
          let others ← readBase64 file [] 0
          return mergeBase64 translated ++ others
        else readBase64 file translated ((termCount + 1) % 256)
      else if ch = 10 then if termCount = 5 then .ok [] else readBase64 file translated 1
      else if translated.length = 3 then do
        let others ← readBase64 file [] 0
        return mergeBase64 (translated ++ [index]) ++ others
      else readBase64 file (translated ++ [index]) 0

structure Decoded where
  outname : List UInt8
  mode : Nat
  bytes : List UInt8
  deriving DecidableEq

/-- The rest of `uudecode_main` behind a begin line; `lineP` is what follows the keyword. -/
def decodeFrom (base64 : Bool) (outname : Option (List UInt8)) (lineP file : List UInt8) : Except Failure Decoded :=
  let mode := Digits.strtoul 8 lineP
  let found := (lineP.dropWhile (· ≠ 32)).tail?
  match outname.or found with
  | none => .error (.died "No \x60begin' line")
  | some name => do
    let bytes ← if base64 then readBase64 file [] 1 else readStduu file.length file
    return ⟨name,mode % 512,bytes⟩

def searchBegin (outname : Option (List UInt8)) : (fuel : Nat) → (file : List UInt8) → Except Failure Decoded
  | 0,_ => .error (.died "No \x60begin' line")
  | fuel + 1,file =>
    match bbGetChompedLineFromFile file with
    | none => .error (.died "No \x60begin' line")
    | some (line,file) =>
      if (text "begin-base64 ").isPrefixOf line then decodeFrom true outname (line.drop 13) file
      else if (text "begin ").isPrefixOf line then decodeFrom false outname (line.drop 6) file
      else searchBegin outname fuel file

def uudecodeMain (outname : Option (List UInt8)) (file : List UInt8) : Except Failure Decoded :=
  searchBegin outname file.length file

end Stablebox.Uucode
