import Stablebox.Networking.Httpd
import Mathlib.Data.UInt

/-! Address rules of httpd.c: the lines `A:` and `D:` that `parse_conf` keeps in one list, the
denying ones in front, and `checkPermIP`, which takes the first that matches. -/
namespace Stablebox.Httpd

open UInt32

open Libbb Digits

def scanOctet : List UInt8 → Nat → Option (Nat × List UInt8)
  | [],octet => some (octet,[])
  | c :: p,octet =>
    if isDigit 10 c then
      if octet * 10 + (c.toNat - 48) > 255 then none else scanOctet p (octet * 10 + (c.toNat - 48))
    else some (octet,c :: p)

/-- May an octet begin here? Only the first one must have a digit when a slash or the end comes. -/
def startsOctet (first : Bool) (p : List UInt8) : Bool :=
  match p with
  | [] => true
  | c :: _ => isDigit 10 c || (c == 47 && !first)

def endsOctets (p : List UInt8) : Bool := p.head? == none || p.head? == some 47

def skipDot (p : List UInt8) : List UInt8 := if p.head? = some 46 then p.tail else p

/-- The loop of `scan_ip` over `n` more octets: `*ip` as it is left, and `p` and `auto_mask` when it ends. -/
def scanIpLoop : Nat → List UInt8 → UInt32 → Nat → UInt32 × Option (List UInt8 × Nat)
  | 0,p,ip,autoMask => (ip,some (p,autoMask))
  | n + 1,p,ip,autoMask =>
    if startsOctet (n == 3) p then
      match scanOctet p 0 with
      | none => (ip,none)
      | some (octet,p) =>
        scanIpLoop n (skipDot p) (ip <<< 8 ||| ofNat octet)
          (if endsOctets (skipDot p) then autoMask else autoMask + 8)
    else (ip,none)

/-- `scan_ip`: `*ip`, and what `*ep` and the returned mask are unless it fails. -/
def scanIp (p : List UInt8) (endc : Option UInt8) : UInt32 × Option (List UInt8 × Nat) :=
  match scanIpLoop 4 p 0 8 with
  | (ip,none) => (ip,none)
  | (ip,some ([],autoMask)) => (ip,some ([],autoMask))
  | (ip,some (c :: p,autoMask)) => if some c = endc ∧ p ≠ [] then (ip,some (p,autoMask)) else (ip,none)

inductive MaskText where
  | bits (i : UInt32)
  | dotted
  | bad

def scanBits : List UInt8 → UInt32 → MaskText
  | [],i => .bits i
  | c :: p,i =>
    if isDigit 10 c then scanBits p (i * 10 + ofNat (c.toNat - 48))
    else if c = 46 then .dotted
    else .bad

def maskLoop : Nat → (mask msk : UInt32) → UInt32
  | 0,mask,_ => mask
  | i + 1,mask,msk => maskLoop i (mask ||| msk) (msk >>> 1)

def maskOfBits (i : UInt32) : Option UInt32 := if i > 32 then none else some (maskLoop i.toNat 0 0x80000000)

/-- `scan_ip_mask`: `*ip`, and `*mask` when it returns zero. -/
def scanIpMask (ipm : List UInt8) : UInt32 × Option UInt32 :=
  match scanIp ipm (some 47) with
  | (ip,none) => (ip,none)
  | (ip,some ([],autoMask)) => (ip,maskOfBits (ofNat autoMask))
  | (ip,some (c :: ipm,_)) =>
    match scanBits (c :: ipm) 0 with
    | .bits i => (ip,maskOfBits i)
    | .dotted =>
      match scanIp (c :: ipm) none with
      | (mask,some (_,32)) => (ip,some mask)
      | _ => (ip,none)
    | .bad => (ip,none)

structure HtaccessIp where
  ip : UInt32
  mask : UInt32
  allow : Bool

/-- What `parse_conf` keeps of address lines. -/
structure IpConfig where
  ipAD : List HtaccessIp
  flgDenyAll : UInt32

/-- A line about addresses: is it `A:` or `D:`, and what follows the colon. -/
structure AddressLine where
  allow : Bool
  text : List UInt8
  deriving DecidableEq

/-- The first letter decides; a line without a colon or with nothing behind it is skipped. -/
def addressLine (line : List UInt8) : Option AddressLine := do
  let (buf,c) ← splitColon (stripLine line)
  if c = [] then none
  else if buf.head? = some 65 ∨ buf.head? = some 97 then some ⟨true,c⟩
  else if buf.head? = some 68 ∨ buf.head? = some 100 then some ⟨false,c⟩
  else none

/-- The record of a line. A line with an error becomes a `D:` line with the mask 0. -/
def AddressLine.record (line : AddressLine) : HtaccessIp :=
  match scanIpMask line.text with
  | (ip,some mask) => ⟨ip,mask,line.allow⟩
  | (ip,none) => ⟨ip,0,false⟩

def IpConfig.add (conf : IpConfig) (line : AddressLine) : IpConfig :=
  if line.text.head? = some 42 then
    if line.allow then conf else { conf with flgDenyAll := conf.flgDenyAll + 1 }
  else if line.record.allow then { conf with ipAD := conf.ipAD ++ [line.record] }
  else { conf with ipAD := line.record :: conf.ipAD }

def addressLines (file : List (List UInt8)) : List AddressLine := file.filterMap addressLine

def parseAddresses (file : List (List UInt8)) : IpConfig := (addressLines file).foldl IpConfig.add ⟨[],0⟩

def HtaccessIp.covers (cur : HtaccessIp) (rmtIp : UInt32) : Bool := rmtIp &&& cur.mask == cur.ip

def checkPermIP (conf : IpConfig) (rmtIp : UInt32) : Bool :=
  match conf.ipAD.find? (·.covers rmtIp) with
  | some cur => cur.allow
  | none => conf.flgDenyAll == 0

/-! What the lines mean. -/

def numeral (digits : List UInt8) : Nat := parse 10 (digits.map fun c => c.toNat - 48)

def numberAt (s : List UInt8) : Option (Nat × List UInt8) :=
  let run := s.takeWhile (isDigit 10)
  if run = [] ∨ numeral run > 255 then none else some (numeral run,skipDot (s.dropWhile (isDigit 10)))

def numbers : Nat → List UInt8 → List Nat × List UInt8
  | 0,s => ([],s)
  | n + 1,s =>
    match numberAt s with
    | none => ([],s)
    | some (v,rest) => (v :: (numbers n rest).1,(numbers n rest).2)

def shiftIn (ip : UInt32) (vs : List Nat) : UInt32 := vs.foldl (fun ip v => ip <<< 8 ||| ofNat v) ip

def addressOf (vs : List Nat) : UInt32 := shiftIn 0 (vs ++ List.replicate (4 - vs.length) 0)

def topBits (i : Nat) : UInt32 := ofNat (2 ^ 32 - 2 ^ (32 - i))

inductive Rule where
  | star
  | range (ip mask : UInt32)
  | malformed

/-- The mask of an address of `count` numbers from what follows it: nothing, `/bits` or a dotted mask. -/
def readMask (count : Nat) : List UInt8 → Option UInt32
  | [] => some (topBits (8 * count))
  | c :: m =>
    if c ≠ 47 ∨ m = [] then none
    else if m.all (isDigit 10) then
      if numeral m ≤ 32 then some (topBits (numeral m)) else none
    else if (numbers 4 m).1.length = 4 ∧ (numbers 4 m).2 = [] then some (addressOf (numbers 4 m).1)
    else none

/-- The grammar of a line: `*`, or one to four numbers up to 255 with dots, and a mask. -/
def readRule (text : List UInt8) : Rule :=
  if text = [42] then .star
  else if (numbers 4 text).1 = [] then .malformed
  else
    match readMask (numbers 4 text).1.length (numbers 4 text).2 with
    | some mask => .range (addressOf (numbers 4 text).1) mask
    | none => .malformed

/-- A number of bits that is too large, but passes for a small one in an `int`: the address and the mask. -/
def overflow (text : List UInt8) : Option (UInt32 × UInt32) :=
  match (numbers 4 text).2 with
  | [] => none
  | c :: m =>
    if (numbers 4 text).1 ≠ [] ∧ c = 47 ∧ m ≠ [] ∧ m.all (isDigit 10) ∧ 32 < numeral m ∧ numeral m % 2 ^ 32 ≤ 32 then
      some (addressOf (numbers 4 text).1,topBits (numeral m % 2 ^ 32))
    else none

def InRange (ip mask client : UInt32) : Prop := client &&& mask = ip &&& mask

instance (ip mask client : UInt32) : Decidable (InRange ip mask client) :=
  inferInstanceAs (Decidable (_ = _))

namespace AddressLine

def Denies (line : AddressLine) (client : UInt32) : Prop :=
  match readRule line.text with
  | .star => False
  | .range ip mask => line.allow = false ∧ InRange ip mask client
  | .malformed => True

def Allows (line : AddressLine) (client : UInt32) : Prop :=
  match readRule line.text with
  | .star => False
  | .range ip mask => line.allow = true ∧ InRange ip mask client
  | .malformed => False

def DeniesRest (line : AddressLine) : Prop :=
  line.allow = false ∧ match readRule line.text with
    | .star => True
    | _ => False

end AddressLine

/-- In no `D:` range, and in an `A:` range unless there is no `D:*`. -/
def Permitted (lines : List AddressLine) (client : UInt32) : Prop :=
  (∀ line ∈ lines, ¬line.Denies client) ∧
    ((∃ line ∈ lines, line.Allows client) ∨ ∀ line ∈ lines, ¬line.DeniesRest)

end Stablebox.Httpd
