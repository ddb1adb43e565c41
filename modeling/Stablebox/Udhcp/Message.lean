import Mathlib.Data.Vector.Defs
import Stablebox.Lib.Memory

/-! DHCP messages and their options. A message is the memory that starts at its
first byte: `struct dhcpMessage` has 548 bytes, and an option walk that leaves
the option field reads what lies behind it. -/
namespace Stablebox.Udhcp

open Memory

open List hiding Vector

/-! Option codes and message types (dhcpd.h). -/

abbrev dhcpPadding : UInt8 := 0x00
abbrev dhcpRequestedIp : UInt8 := 0x32
abbrev dhcpLeaseTime : UInt8 := 0x33
abbrev dhcpOptionOver : UInt8 := 0x34
abbrev dhcpMessageType : UInt8 := 0x35
abbrev dhcpServerId : UInt8 := 0x36
abbrev dhcpVendor : UInt8 := 0x3c
abbrev dhcpEnd : UInt8 := 0xff
abbrev dhcpMagic : UInt32 := 0x63825363

abbrev dhcpDiscover : UInt8 := 1
abbrev dhcpOffer : UInt8 := 2
abbrev dhcpRequest : UInt8 := 3
abbrev dhcpDecline : UInt8 := 4
abbrev dhcpAck : UInt8 := 5
abbrev dhcpNak : UInt8 := 6
abbrev dhcpRelease : UInt8 := 7
abbrev dhcpInform : UInt8 := 8

abbrev bootRequest : UInt8 := 1
abbrev bootReply : UInt8 := 2
abbrev broadcastFlag : UInt16 := 0x8000

abbrev optCode : Nat := 0
abbrev optLen : Nat := 1

abbrev DhcpMessage := Memory

/-- A client hardware address, all sixteen bytes of the `chaddr` field. -/
abbrev Chaddr := Vector UInt8 16

namespace DhcpMessage

/-! Byte offsets of the members of `struct dhcpMessage`. -/

abbrev flagsAt : Nat := 10
abbrev ciaddrAt : Nat := 12
abbrev yiaddrAt : Nat := 16
abbrev siaddrAt : Nat := 20
abbrev giaddrAt : Nat := 24
abbrev chaddrAt : Nat := 28
abbrev snameAt : Nat := 44
abbrev fileAt : Nat := 108
abbrev cookieAt : Nat := 236
abbrev optionsAt : Nat := 240
abbrev size : Nat := 548

theorem places : flagsAt = 10 ∧ ciaddrAt = 12 ∧ yiaddrAt = 16 ∧ siaddrAt = 20 ∧ giaddrAt = 24 ∧
    chaddrAt = 28 ∧ snameAt = 44 ∧ fileAt = 108 ∧ cookieAt = 236 ∧ optionsAt = 240 := by
  decide

def xid (e : Endian) (p : DhcpMessage) : UInt32 := p.load32 e 4
def flags (e : Endian) (p : DhcpMessage) : UInt16 := p.load16 e flagsAt
def ciaddr (e : Endian) (p : DhcpMessage) : UInt32 := p.load32 e ciaddrAt
def yiaddr (e : Endian) (p : DhcpMessage) : UInt32 := p.load32 e yiaddrAt
def giaddr (e : Endian) (p : DhcpMessage) : UInt32 := p.load32 e giaddrAt
def cookie (e : Endian) (p : DhcpMessage) : UInt32 := p.load32 e cookieAt
def chaddr (p : DhcpMessage) : Chaddr := Vector.ofFn fun i => p (chaddrAt + i.val)

end DhcpMessage

open DhcpMessage

/-! The three fields that may hold options. -/

abbrev optionField : UInt8 := 0
abbrev fileField : UInt8 := 1
abbrev snameField : UInt8 := 2

/-- The loop of `get_option`: `optionptr` is the field that is walked, `i` the
position in it. The skip over an overload option adds the length byte at the
start of the field, as the source does. -/
def getOptionLoop (p : DhcpMessage) (code : UInt8) :
    (fuel optionptr i length : Nat) → (overload curr : UInt8) → Option Nat
  | 0,_,_,_,_,_ => none
  | fuel + 1,optionptr,i,length,overload,curr =>
    if i ≥ length then none
    else if p (optionptr + (i + optCode)) = code then
      if i + 1 + (p (optionptr + (i + optLen))).toNat ≥ length then none
      else some (optionptr + i + 2)
    else if p (optionptr + (i + optCode)) = dhcpPadding then
      getOptionLoop p code fuel optionptr (i + 1) length overload curr
    else if p (optionptr + (i + optCode)) = dhcpOptionOver then
      if i + 1 + (p (optionptr + (i + optLen))).toNat ≥ length then none
      else getOptionLoop p code fuel optionptr (i + ((p (optionptr + optLen)).toNat + 2)) length
        (p (optionptr + (i + 3))) curr
    else if p (optionptr + (i + optCode)) = dhcpEnd then
      if curr = optionField ∧ overload &&& fileField ≠ 0 then
        getOptionLoop p code fuel fileAt 0 128 overload fileField
      else if curr = fileField ∧ overload &&& snameField ≠ 0 then
        getOptionLoop p code fuel snameAt 0 64 overload snameField
      else none
    else getOptionLoop p code fuel optionptr (i + ((p (optionptr + (optLen + i))).toNat + 2))
      length overload curr

/-- Offset of the data of option `code`, with bounds checking. The three fields
have 308, 128 and 64 bytes and every turn moves forward, so 503 turns are enough. -/
def getOption (p : DhcpMessage) (code : UInt8) : Option Nat :=
  getOptionLoop p code 503 optionsAt 0 308 0 optionField

/-- Position of the end option in the option field, without bounds checking. -/
def endOptionLoop (options : Memory) : (fuel i : Nat) → Nat
  | 0,i => i
  | fuel + 1,i =>
    if options i = dhcpEnd then i
    else if options i = dhcpPadding then endOptionLoop options fuel (i + 1)
    else endOptionLoop options fuel (i + ((options (i + optLen)).toNat + 2))

def endOption (options : Memory) : Nat := endOptionLoop options 309 0

/-- Append an option string (code, length, data) to the option field at `optionptr`. -/
def addOptionString (p : DhcpMessage) (optionptr : Nat) (string : List UInt8) : DhcpMessage :=
  let last := endOption fun i => p (optionptr + i)
  let len := (string.getD optLen 0).toNat
  if last + len + 2 + 1 ≥ 308 then p
  else (p.put (optionptr + last) (string.take (len + 2))).put (optionptr + (last + len + 2)) [dhcpEnd]

inductive OptionType where
  | ip | ipPair | string | boolean | u8 | u16 | s16 | u32 | s32
  deriving DecidableEq, Repr

def OptionType.length : OptionType → Nat
  | .ip => 4
  | .ipPair => 8
  | .boolean => 1
  | .string => 1
  | .u8 => 1
  | .u16 => 2
  | .s16 => 2
  | .u32 => 4
  | .s32 => 4

/-- `struct dhcp_option`; `list` and `req` are the flags `OPTION_LIST` and `OPTION_REQ`. -/
structure DhcpOption where
  name : String
  kind : OptionType
  list : Bool
  req : Bool
  code : UInt8

/-- `dhcp_options`, up to the entry without a code. -/
def dhcpOptionTable : List DhcpOption := [
  ⟨"subnet",.ip,false,true,0x01⟩,
  ⟨"timezone",.s32,false,true,0x02⟩,
  ⟨"router",.ip,true,true,0x03⟩,
  ⟨"timesvr",.ip,true,false,0x04⟩,
  ⟨"namesvr",.ip,true,false,0x05⟩,
  ⟨"dns",.ip,true,true,0x06⟩,
  ⟨"logsvr",.ip,true,true,0x07⟩,
  ⟨"cookiesvr",.ip,true,false,0x08⟩,
  ⟨"lprsvr",.ip,true,false,0x09⟩,
  ⟨"hostname",.string,false,false,0x0c⟩,
  ⟨"bootsize",.u16,false,false,0x0d⟩,
  ⟨"domain",.string,false,true,0x0f⟩,
  ⟨"swapsvr",.ip,false,false,0x10⟩,
  ⟨"rootpath",.string,false,false,0x11⟩,
  ⟨"ipttl",.u8,false,false,0x17⟩,
  ⟨"mtu",.u16,false,false,0x1a⟩,
  ⟨"broadcast",.ip,false,true,0x1c⟩,
  ⟨"nisdomain",.string,false,false,0x28⟩,
  ⟨"nissrv",.ip,true,false,0x29⟩,
  ⟨"ntpsrv",.ip,true,true,0x2a⟩,
  ⟨"wins",.ip,true,false,0x2c⟩,
  ⟨"requestip",.ip,false,false,0x32⟩,
  ⟨"lease",.u32,false,false,0x33⟩,
  ⟨"dhcptype",.u8,false,false,0x35⟩,
  ⟨"serverid",.ip,false,false,0x36⟩,
  ⟨"message",.string,false,false,0x38⟩,
  ⟨"tftp",.string,false,false,0x42⟩,
  ⟨"bootfile",.string,false,false,0x43⟩,
  ⟨"vendoropts",.string,false,false,0x7d⟩]

def dhcpOptions : List (UInt8 × OptionType) := dhcpOptionTable.map fun option => (option.code,option.kind)

/-- Add a one to four byte option. On a big-endian host the value is shifted up
so that its significant bytes come first in memory. -/
def addSimpleOption (e : Endian) (p : DhcpMessage) (code : UInt8) (data : UInt32) : DhcpMessage :=
  match dhcpOptions.lookup code with
  | none => p
  | some kind =>
    let data := if e = .big then data <<< UInt32.ofNat (8 * (4 - kind.length)) else data
    addOptionString p optionsAt (code :: UInt8.ofNat kind.length :: Endian.split32 e data)

def udhcpInitHeader (e : Endian) (type : UInt8) : DhcpMessage :=
  let op := if type = dhcpDiscover ∨ type = dhcpRequest ∨ type = dhcpRelease ∨ type = dhcpInform
    then bootRequest
    else if type = dhcpOffer ∨ type = dhcpAck ∨ type = dhcpNak then bootReply else 0
  let p : DhcpMessage := fun _ => 0
  let p := p.put 0 [op,1,6]
  let p := p.store32 e cookieAt (htonl e dhcpMagic)
  let p := p.put optionsAt [dhcpEnd]
  addSimpleOption e p dhcpMessageType (UInt32.ofNat type.toNat)

def brokenVendor : List UInt8 := [0x4d,0x53,0x46,0x54,0x20,0x39,0x38]

/-- What `udhcp_get_packet` makes of a message that was read: rejected without the
DHCP cookie, and with the broadcast flag set for broken clients. -/
def udhcpGetPacket (e : Endian) (p : DhcpMessage) : Option DhcpMessage :=
  if ntohl e (p.cookie e) ≠ dhcpMagic then none
  else if p 0 = bootRequest then
    match getOption p dhcpVendor with
    | none => some p
    | some vendor =>
      if (p (vendor - 1)).toNat = brokenVendor.length ∧ p.get vendor brokenVendor.length = brokenVendor
      then some (p.store16 e flagsAt (p.flags e ||| htons e broadcastFlag))
      else some p
  else some p

/-- An option string with a code of its own and a length that is true. -/
structure WellFormed (opt : List UInt8) : Prop where
  length : opt.length = (opt.getD optLen 0).toNat + 2
  padding : opt.getD optCode 0 ≠ dhcpPadding
  finish : opt.getD optCode 0 ≠ dhcpEnd

def Begins (p : DhcpMessage) (opts : List (List UInt8)) : Prop :=
  p.get optionsAt opts.flatten.length = opts.flatten

/-- The option field holds exactly the given options before its end option. -/
def Holds (p : DhcpMessage) (opts : List (List UInt8)) : Prop :=
  Begins p opts ∧ p (optionsAt + opts.flatten.length) = dhcpEnd

theorem endOptionLoop_le (options : Memory) (fuel i : Nat) : i ≤ endOptionLoop options fuel i := by
  induction fuel generalizing i with
  | zero => exact le_refl i
  | succ fuel ih =>
    simp only [endOptionLoop]
    split
    · exact le_refl i
    split
    · exact Nat.le_of_succ_le (ih (i + 1))
    · exact Nat.le_trans (Nat.le_add_right i _) (ih _)

theorem WellFormed.bytes {memory : Memory} (formed : WellFormed opt) (here : memory.get i opt.length = opt) :
    memory i = opt.getD optCode 0 ∧ memory (i + 1) = opt.getD optLen 0 := by
  have bytes := (get_eq_iff memory i opt).mp here
  have length := formed.length
  constructor
  · simpa [getD_eq_getElem?_getD,show 0 < opt.length by omega] using bytes 0 (by omega)
  · simpa [getD_eq_getElem?_getD,show 1 < opt.length by omega] using bytes 1 (by omega)

theorem endOptionLoop_skip (options : Memory) (fuel i : Nat) (opt : List UInt8)
    (formed : WellFormed opt) (here : options.get i opt.length = opt) :
    endOptionLoop options (fuel + 1) i = endOptionLoop options fuel (i + opt.length) := by
  obtain ⟨code,len⟩ := formed.bytes here
  rw [endOptionLoop,optLen,code,len,if_neg formed.finish,if_neg formed.padding,← formed.length]

theorem endOptionLoop_begins (options : Memory) (opts : List (List UInt8)) (fuel i : Nat)
    (formed : ∀ opt ∈ opts, WellFormed opt) (here : options.get i opts.flatten.length = opts.flatten) :
    endOptionLoop options (fuel + opts.length) i =
      endOptionLoop options fuel (i + opts.flatten.length) := by
  induction opts generalizing i with
  | nil => rfl
  | cons opt opts ih =>
    simp only [flatten_cons,length_append,get_add] at here
    obtain ⟨first,rest⟩ := append_inj here (by simp)
    rw [length_cons,← add_assoc,endOptionLoop_skip options (fuel + opts.length) i opt (formed opt (by simp)) first,
      ih (i + opt.length) (forall_mem_cons.mp formed).2 rest]
    simp [add_assoc]

theorem begins_view (begins : Begins p opts) :
    Memory.get (fun i => p (optionsAt + i)) 0 opts.flatten.length = opts.flatten := by
  rw [← begins]
  simp [Memory.get]

theorem endOption_begins (formed : ∀ opt ∈ opts, WellFormed opt) (few : opts.length ≤ 309) (begins : Begins p opts) :
    opts.flatten.length ≤ endOption fun i => p (optionsAt + i) := by
  have start := endOptionLoop_begins (fun i => p (optionsAt + i)) opts (309 - opts.length) 0 formed
    (begins_view begins)
  rw [Nat.sub_add_cancel few] at start
  rw [endOption,start,zero_add]
  exact endOptionLoop_le _ _ _

theorem endOption_holds (formed : ∀ opt ∈ opts, WellFormed opt) (few : opts.length ≤ 308) (holds : Holds p opts) :
    endOption (fun i => p (optionsAt + i)) = opts.flatten.length := by
  have start := endOptionLoop_begins (fun i => p (optionsAt + i)) opts (308 - opts.length + 1) 0 formed
    (begins_view holds.1)
  rw [show 308 - opts.length + 1 + opts.length = 309 by omega] at start
  rw [endOption,start,zero_add,endOptionLoop,if_pos holds.2]

theorem addOptionString_before (string : List UInt8) (before : i < optionsAt + endOption fun i => p (optionsAt + i)) :
    addOptionString p optionsAt string i = p i := by
  simp only [addOptionString]
  split
  · rfl
  · rw [put_before _ _ (by omega),put_before _ _ before]

theorem addOptionString_begins (string : List UInt8) (formed : ∀ opt ∈ opts, WellFormed opt) (few : opts.length ≤ 309)
    (begins : Begins p opts) : Begins (addOptionString p optionsAt string) opts := by
  have last := endOption_begins formed few begins
  refine Eq.trans (get_congr ?_) begins
  intro i bound
  exact addOptionString_before string (by omega)

theorem put_holds (string : List UInt8) (begins : Begins p opts) :
    Holds ((p.put (optionsAt + opts.flatten.length) string).put
      (optionsAt + (opts.flatten.length + string.length)) [dhcpEnd]) (opts ++ [string]) := by
  have flat : (opts ++ [string]).flatten = opts.flatten ++ string := by simp
  rw [Holds,Begins,flat,length_append]
  constructor
  · rw [get_put_outside _ _ _ _ _ (by omega),get_add,get_put_same,
      get_put_outside _ _ _ _ _ (by omega)]
    exact congrArg (· ++ string) begins
  · exact put_inside _ _ 0 [dhcpEnd] (by simp)

theorem addOptionString_holds (p : DhcpMessage) (string : List UInt8) (opts : List (List UInt8))
    (formed : ∀ opt ∈ opts, WellFormed opt) (few : opts.length ≤ 308) (holds : Holds p opts)
    (wellFormed : WellFormed string) (fits : opts.flatten.length + string.length + 1 < 308) :
    Holds (addOptionString p optionsAt string) (opts ++ [string]) := by
  have last := endOption_holds formed few holds
  have length := wellFormed.length
  have room : ¬ opts.flatten.length + (string.getD optLen 0).toNat + 2 + 1 ≥ 308 := by omega
  have whole : string.take ((string.getD optLen 0).toNat + 2) = string := by
    rw [← length,take_length]
  have result : addOptionString p optionsAt string =
      (p.put (optionsAt + opts.flatten.length) string).put
        (optionsAt + (opts.flatten.length + string.length)) [dhcpEnd] := by
    simp only [addOptionString,last,room,whole,if_false]
    rw [length,add_assoc opts.flatten.length]
  rw [result]
  exact put_holds string holds.1

theorem getOptionLoop_skip {length : Nat} (fuel : Nat) (overload curr : UInt8) (formed : WellFormed opt)
    (inside : i < length) (here : p.get (optionptr + i) opt.length = opt) (other : opt.getD optCode 0 ≠ code)
    (simple : opt.getD optCode 0 ≠ dhcpOptionOver) :
    getOptionLoop p code (fuel + 1) optionptr i length overload curr =
      getOptionLoop p code fuel optionptr (i + opt.length) length overload curr := by
  obtain ⟨first,second⟩ := formed.bytes here
  rw [getOptionLoop,add_comm optLen,← add_assoc,← add_assoc,optLen,optCode,add_zero,first,second,
    if_neg (by omega),if_neg other,if_neg formed.padding,if_neg simple,if_neg formed.finish,← formed.length]

theorem getOptionLoop_found {length : Nat} (fuel : Nat) (overload curr : UInt8) (formed : WellFormed opt)
    (inside : i + opt.length ≤ length) (here : p.get (optionptr + i) opt.length = opt)
    (same : opt.getD optCode 0 = code) :
    getOptionLoop p code (fuel + 1) optionptr i length overload curr = some (optionptr + i + 2) := by
  obtain ⟨first,second⟩ := formed.bytes here
  have total := formed.length
  rw [getOptionLoop,← add_assoc,← add_assoc,optLen,optCode,add_zero,first,second,if_neg (by omega),if_pos same,
    if_neg (by omega)]

def Passed (code : UInt8) (opt : List UInt8) : Prop :=
  WellFormed opt ∧ opt.getD optCode 0 ≠ code ∧ opt.getD optCode 0 ≠ dhcpOptionOver

theorem getOptionLoop_begins (p : DhcpMessage) {opts : List (List UInt8)} (fuel i : Nat)
    (passed : ∀ opt ∈ opts, Passed code opt) (inside : i + opts.flatten.length < 308)
    (here : p.get (optionsAt + i) opts.flatten.length = opts.flatten) :
    getOptionLoop p code (fuel + opts.length) optionsAt i 308 0 optionField =
      getOptionLoop p code fuel optionsAt (i + opts.flatten.length) 308 0 optionField := by
  induction opts generalizing i with
  | nil => rfl
  | cons opt opts ih =>
    simp only [flatten_cons,length_append,get_add] at here inside
    obtain ⟨first,rest⟩ := append_inj here (by simp)
    obtain ⟨formed,other,simple⟩ := passed opt (by simp)
    rw [length_cons,← add_assoc,getOptionLoop_skip _ 0 optionField formed (by omega) first other simple,
      ih (i + opt.length) (forall_mem_cons.mp passed).2 (by omega)
        (by rw [← add_assoc]; exact rest)]
    simp [add_assoc]

theorem getOption_begins (p : DhcpMessage) (code : UInt8) (before : List (List UInt8)) (opt : List UInt8)
    (passed : ∀ o ∈ before, Passed code o) (wellFormed : WellFormed opt) (same : opt.getD optCode 0 = code)
    (few : before.length < 503) (inside : before.flatten.length + opt.length ≤ 308)
    (begins : Begins p (before ++ [opt])) : getOption p code = some (optionsAt + before.flatten.length + 2) := by
  have flat : (before ++ [opt]).flatten = before.flatten ++ opt := by simp
  rw [Begins,flat,length_append,get_add] at begins
  obtain ⟨front,here⟩ := append_inj begins (by simp)
  have total := wellFormed.length
  have walk := getOptionLoop_begins p (502 - before.length + 1) 0 passed (by omega) front
  rw [show 502 - before.length + 1 + before.length = 503 by omega,zero_add] at walk
  rw [getOption,walk,getOptionLoop_found _ 0 optionField wellFormed inside here same]

end Stablebox.Udhcp
