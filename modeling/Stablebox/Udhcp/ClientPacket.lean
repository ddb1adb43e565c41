import Stablebox.Libbb.GetLine
import Stablebox.Udhcp.Options

/-! The packets of the client (clientpacket.c): how the options given to udhcpc, the addresses and the list of
requested parameters are put into the options field, and which bytes of the field are written. -/
namespace Stablebox.Udhcp.ClientPacket

open DhcpMessage Libbb Option Memory UInt8
open List hiding Vector

abbrev dhcpHostName : UInt8 := 0x0c
abbrev dhcpParamReq : UInt8 := 0x37
abbrev dhcpClientId : UInt8 := 0x3d
abbrev dhcpFqdn : UInt8 := 0x51
abbrev optData : Nat := 2

/-! ### The configuration -/

inductive ClientId where
  | given (optarg : List UInt8)
  | suppressed
  | default

structure Arguments where
  clientid : ClientId
  hostname : Option (List UInt8)
  fqdn : Option (List UInt8)
  vendorclass : Option (List UInt8)

/-- `client_config`: the hardware address and option strings. -/
structure Config where
  arp : Vector UInt8 6
  clientid : Option (List UInt8)
  hostname : Option (List UInt8)
  fqdn : Option (List UInt8)
  vendorclass : List UInt8

def kept (optarg : List UInt8) : Nat := if optarg.length > 255 then 255 else optarg.length

def argumentOption (code : UInt8) (optarg : List UInt8) : List UInt8 :=
  code :: ofNat (kept optarg) :: optarg.take (kept optarg)

/-- The length byte counts the three flag bytes too, modulo 256. -/
def fqdnOption (optarg : List UInt8) : List UInt8 :=
  dhcpFqdn :: ofNat (kept optarg + 3) :: 0x1 :: 0 :: 0 :: optarg.take (kept optarg)

def defaultClientid (arp : Vector UInt8 6) : List UInt8 := dhcpClientId :: 7 :: 1 :: arp.toList

/-- The name of the program and `BB_VER`. -/
def defaultVendorclass (version : List UInt8) : List UInt8 :=
  dhcpVendor :: ofNat (text "udhcp " ++ version).length :: (text "udhcp " ++ version)

def Arguments.config (args : Arguments) (arp : Vector UInt8 6) (version : List UInt8) : Config where
  arp := arp
  clientid := match args.clientid with
    | .given optarg => some (argumentOption dhcpClientId optarg)
    | .suppressed => none
    | .default => some (defaultClientid arp)
  hostname := args.hostname.map (argumentOption dhcpHostName)
  fqdn := args.fqdn.map fqdnOption
  vendorclass := match args.vendorclass with
    | some optarg => argumentOption dhcpVendor optarg
    | none => defaultVendorclass version

/-! ### The packet -/

/-- A packet that is put together, with the places of its options field that were written. -/
structure Assembly where
  packet : DhcpMessage
  written : List Nat

namespace Assembly

def set (a : Assembly) (i : Nat) (x : UInt8) : Assembly where
  packet := a.packet.put (optionsAt + i) [x]
  written := a.written ++ [i]

def last (a : Assembly) : Nat := endOption fun i => a.packet (optionsAt + i)

def addOptionString (a : Assembly) (string : List UInt8) : Assembly where
  packet := Udhcp.addOptionString a.packet optionsAt string
  written :=
    let len := (string.getD optLen 0).toNat
    if a.last + len + 2 + 1 ≥ 308 then a.written
    else a.written ++ (List.range (len + 2)).map (a.last + ·) ++ [a.last + len + 2]

def addSimpleOption (e : Endian) (a : Assembly) (code : UInt8) (data : UInt32) : Assembly :=
  match dhcpOptions.lookup code with
  | none => a
  | some kind =>
    let data := if e = .big then data <<< UInt32.ofNat (8 * (4 - kind.length)) else data
    a.addOptionString (code :: ofNat kind.length :: Endian.split32 e data)

def addConfigured (a : Assembly) : Option (List UInt8) → Assembly
  | none => a
  | some string => a.addOptionString string

/-- `add_requests`, without bounds checking. -/
def addRequests (a : Assembly) : Assembly :=
  let listed := dhcpOptionTable.foldl
    (fun (b : Assembly × Nat) option =>
      if option.req then (b.1.set (a.last + optData + b.2) option.code,b.2 + 1) else b)
    (a.set (a.last + optCode) dhcpParamReq,0)
  (listed.1.set (a.last + optLen) (ofNat listed.2)).set (a.last + optData + listed.2) dhcpEnd

end Assembly

def emptyPacket (e : Endian) (type : UInt8) : DhcpMessage :=
  let op := if type = dhcpDiscover ∨ type = dhcpRequest ∨ type = dhcpRelease ∨ type = dhcpInform
    then bootRequest
    else if type = dhcpOffer ∨ type = dhcpAck ∨ type = dhcpNak then bootReply else 0
  let p : DhcpMessage := fun _ => 0
  let p := p.put 0 [op,1,6]
  let p := p.store32 e cookieAt (htonl e dhcpMagic)
  p.put optionsAt [dhcpEnd]

def initHeader (e : Endian) (type : UInt8) : Assembly :=
  Assembly.addSimpleOption e ⟨emptyPacket e type,[0]⟩ dhcpMessageType (UInt32.ofNat type.toNat)

def initPacket (e : Endian) (cfg : Config) (type : UInt8) : Assembly :=
  let a := initHeader e type
  let a := { a with packet := a.packet.put chaddrAt cfg.arp.toList }
  let a := a.addConfigured cfg.clientid
  let a := a.addConfigured cfg.hostname
  let a := a.addConfigured cfg.fqdn
  a.addOptionString cfg.vendorclass

/-- The messages with a list of requested parameters. -/
inductive Sending where
  | discover (xid requested : UInt32)
  | selecting (xid server requested : UInt32)
  | renew (xid ciaddr : UInt32)

def sendDiscover (e : Endian) (cfg : Config) (xid requested : UInt32) : Assembly :=
  let a := initPacket e cfg dhcpDiscover
  let a := { a with packet := a.packet.store32 e 4 xid }
  let a := if requested ≠ 0 then a.addSimpleOption e dhcpRequestedIp requested else a
  a.addRequests

def sendSelecting (e : Endian) (cfg : Config) (xid server requested : UInt32) : Assembly :=
  let a := initPacket e cfg dhcpRequest
  let a := { a with packet := a.packet.store32 e 4 xid }
  let a := a.addSimpleOption e dhcpRequestedIp requested
  let a := a.addSimpleOption e dhcpServerId server
  a.addRequests

def sendRenew (e : Endian) (cfg : Config) (xid ciaddr : UInt32) : Assembly :=
  let a := initPacket e cfg dhcpRequest
  let a := { a with packet := a.packet.store32 e 4 xid }
  let a := { a with packet := a.packet.store32 e ciaddrAt ciaddr }
  a.addRequests

def Sending.send (e : Endian) (cfg : Config) : Sending → Assembly
  | .discover xid requested => sendDiscover e cfg xid requested
  | .selecting xid server requested => sendSelecting e cfg xid server requested
  | .renew xid ciaddr => sendRenew e cfg xid ciaddr

def Sending.type : Sending → UInt8
  | .discover _ _ => dhcpDiscover
  | .selecting _ _ _ => dhcpRequest
  | .renew _ _ => dhcpRequest

/-! ### The room that is taken -/

def size (string : List UInt8) : Nat := (string.getD optLen 0).toNat + 2

/-- The options that are offered to the field behind the message type, by their sizes. -/
def Sending.sizes (cfg : Config) (s : Sending) : List Nat :=
  (cfg.clientid.map size).toList ++ (cfg.hostname.map size).toList ++ (cfg.fqdn.map size).toList ++
    [size cfg.vendorclass] ++
    match s with
    | .discover _ requested => if requested ≠ 0 then [6] else []
    | .selecting _ _ _ => [6,6]
    | .renew _ _ => []

/-- An option is taken if it leaves room for the end option and one byte more. -/
def accept (taken size : Nat) : Nat := if taken + size + 1 < 308 then taken + size else taken

/-- Every byte that was written lies in the field, and the field is a list of options up to the end option, with the
message type among them. -/
def Assembled (type : UInt8) (a : Assembly) : Prop :=
  (∀ i ∈ a.written, i < 308) ∧ ∃ opts, Field a.packet opts ∧ (dhcpMessageType,[type]) ∈ opts

/-- An option string that can be listed: its announced data are there. -/
structure Whole (string : List UInt8) : Prop where
  padding : string.getD optCode 0 ≠ dhcpPadding
  overload : string.getD optCode 0 ≠ dhcpOptionOver
  finish : string.getD optCode 0 ≠ dhcpEnd
  length : size string ≤ string.length

def announced (string : List UInt8) : UInt8 × List UInt8 :=
  (string.getD optCode 0,(string.drop 2).take (string.getD optLen 0).toNat)

variable {string : List UInt8}

theorem Whole.announced_length (whole : Whole string) : (announced string).2.length = (string.getD optLen 0).toNat := by
  have length := whole.length
  unfold size at length
  simp only [announced,length_take,length_drop]
  omega

theorem Whole.listed (whole : Whole string) : Listed (announced string) where
  padding := whole.padding
  overload := whole.overload
  finish := whole.finish
  short := by
    rw [whole.announced_length]
    exact (string.getD optLen 0).toNat_lt

theorem Whole.text (whole : Whole string) :
    string.take ((announced string).2.length + 2) = optionString (announced string).1 (announced string).2 := by
  have length := whole.length
  rw [optionString,whole.announced_length]
  rcases string with _ | ⟨code,_ | ⟨len,data⟩⟩
  · simp [size] at length
  · simp [size] at length
  · simp [announced]

theorem whole_argumentOption (optarg : List UInt8) (padding : code ≠ dhcpPadding) (overload : code ≠ dhcpOptionOver)
    (finish : code ≠ dhcpEnd) : Whole (argumentOption code optarg) where
  padding := padding
  overload := overload
  finish := finish
  length := by
    simp only [size,argumentOption,kept,getD_cons_succ,getD_cons_zero,toNat_ofNat',length_cons,length_take]
    split <;> omega

theorem whole_fqdnOption (optarg : List UInt8) : Whole (fqdnOption optarg) where
  padding := show dhcpFqdn ≠ dhcpPadding by decide
  overload := show dhcpFqdn ≠ dhcpOptionOver by decide
  finish := show dhcpFqdn ≠ dhcpEnd by decide
  length := by
    simp only [size,fqdnOption,kept,getD_cons_succ,getD_cons_zero,toNat_ofNat',length_cons,length_take]
    split <;> omega

theorem whole_defaultClientid (arp : Vector UInt8 6) : Whole (defaultClientid arp) where
  padding := show dhcpClientId ≠ dhcpPadding by decide
  overload := show dhcpClientId ≠ dhcpOptionOver by decide
  finish := show dhcpClientId ≠ dhcpEnd by decide
  length := by simp [size,defaultClientid]

theorem whole_defaultVendorclass (version : List UInt8) : Whole (defaultVendorclass version) where
  padding := show dhcpVendor ≠ dhcpPadding by decide
  overload := show dhcpVendor ≠ dhcpOptionOver by decide
  finish := show dhcpVendor ≠ dhcpEnd by decide
  length := by
    simp only [size,defaultVendorclass,getD_cons_succ,getD_cons_zero,toNat_ofNat',length_cons]
    omega

structure Config.Listable (cfg : Config) : Prop where
  clientid : ∀ string ∈ cfg.clientid, Whole string
  hostname : ∀ string ∈ cfg.hostname, Whole string
  fqdn : ∀ string ∈ cfg.fqdn, Whole string
  vendorclass : Whole cfg.vendorclass

theorem Arguments.listable (args : Arguments) (arp : Vector UInt8 6) (version : List UInt8) :
    (args.config arp version).Listable where
  clientid := by
    intro string configured
    cases id : args.clientid with
    | given optarg =>
      simp only [config,id,mem_some_iff] at configured
      rw [← configured]
      exact whole_argumentOption optarg (by decide) (by decide) (by decide)
    | suppressed => simp [config,id] at configured
    | default =>
      simp only [config,id,mem_some_iff] at configured
      rw [← configured]
      exact whole_defaultClientid arp
  hostname := by
    intro string configured
    obtain ⟨optarg,-,rfl⟩ := mem_map.1 configured
    exact whole_argumentOption optarg (by decide) (by decide) (by decide)
  fqdn := by
    intro string configured
    obtain ⟨optarg,-,rfl⟩ := mem_map.1 configured
    exact whole_fqdnOption optarg
  vendorclass := by
    cases vendor : args.vendorclass with
    | some optarg =>
      simp only [config,vendor]
      exact whole_argumentOption optarg (by decide) (by decide) (by decide)
    | none =>
      simp only [config,vendor]
      exact whole_defaultVendorclass version

/-! ### Options that are tested -/

/-- The field lists options of `taken` bytes in all, the message type among them, and nothing was written outside. -/
structure Ready (type : UInt8) (taken : Nat) (a : Assembly) : Prop where
  inside : ∀ i ∈ a.written, i < 308
  listed : ∃ opts, Field a.packet opts ∧ (listing opts).flatten.length = taken ∧ (dhcpMessageType,[type]) ∈ opts

namespace Ready

variable {a : Assembly}

theorem last_eq (ready : Ready type taken a) : a.last = taken := by
  obtain ⟨opts,field,total,-⟩ := ready.listed
  exact field.endOption.trans total

theorem header (ready : Ready type taken a) (same : ∀ i, optionsAt ≤ i → packet i = a.packet i) :
    Ready type taken { a with packet } := by
  obtain ⟨opts,field,total,mem⟩ := ready.listed
  exact ⟨ready.inside,opts,⟨field.listed,holds_congr same field.holds,field.inside⟩,total,mem⟩

theorem written_addOptionString (inside : ∀ i ∈ a.written, i < 308) :
    ∀ i ∈ (a.addOptionString string).written, i < 308 := by
  intro i mem
  simp only [Assembly.addOptionString] at mem
  split at mem
  · exact inside i mem
  rcases mem_append.1 mem with mem | mem
  · rcases mem_append.1 mem with mem | mem
    · exact inside i mem
    obtain ⟨j,range,rfl⟩ := mem_map.1 mem
    have small := mem_range.1 range
    omega
  · rw [mem_singleton.1 mem]
    omega

theorem addOptionString (ready : Ready type taken a) (whole : Whole string) :
    Ready type (accept taken (size string)) (a.addOptionString string) := by
  obtain ⟨opts,field,total,mem⟩ := ready.listed
  refine ⟨written_addOptionString ready.inside,?_⟩
  have length := whole.announced_length
  have added := field.addOptionString (announced string) whole.listed string length.symm whole.text
  have appended : (listing (opts ++ [announced string])).flatten.length = taken + size string := by
    simp [listing,optionString_length,length,← total,size]
  rw [length,total] at added
  unfold accept
  split at added
  · rename_i room
    rw [if_pos (show taken + size string + 1 < 308 from room)]
    exact ⟨opts ++ [announced string],added.2,appended,mem_append_left _ mem⟩
  · rename_i full
    rw [if_neg (show ¬ taken + size string + 1 < 308 from full)]
    have same : (a.addOptionString string).packet = a.packet := added.2
    exact ⟨opts,same.symm ▸ field,total,mem⟩

theorem addConfigured (ready : Ready type taken a) {string : Option (List UInt8)} (whole : ∀ s ∈ string, Whole s) :
    Ready type ((string.map size).toList.foldl accept taken) (a.addConfigured string) := by
  cases string with
  | none => exact ready
  | some string => exact ready.addOptionString (whole string rfl)

theorem addSimpleOption (ready : Ready type taken a) (e : Endian) (code : UInt8) (data : UInt32)
    (found : dhcpOptions.lookup code = some .ip) (padding : code ≠ dhcpPadding) (overload : code ≠ dhcpOptionOver)
    (finish : code ≠ dhcpEnd) : Ready type (accept taken 6) (a.addSimpleOption e code data) := by
  have whole (word : UInt32) : Whole (code :: ofNat OptionType.ip.length :: Endian.split32 e word) :=
    ⟨padding,overload,finish,by simp [size,OptionType.length]⟩
  simp only [Assembly.addSimpleOption,found]
  exact ready.addOptionString (whole _)

end Ready

variable (e : Endian)

theorem ready_initHeader (type : UInt8) : Ready type 3 (initHeader e type) := by
  refine ⟨?_,[(dhcpMessageType,[type])],?_,rfl,mem_singleton.2 rfl⟩
  · exact Ready.written_addOptionString fun i mem => by
      rw [mem_singleton.1 mem]
      decide
  · exact field_udhcpInitHeader e type

theorem ready_initPacket (listable : cfg.Listable) (type : UInt8) :
    Ready type (((cfg.clientid.map size).toList ++ (cfg.hostname.map size).toList ++ (cfg.fqdn.map size).toList ++
      [size cfg.vendorclass]).foldl accept 3) (initPacket e cfg type) := by
  have chaddr : ∀ i, optionsAt ≤ i →
      (initHeader e type).packet.put chaddrAt cfg.arp.toList i = (initHeader e type).packet i := by
    intro i options
    have apart : chaddrAt + 6 ≤ optionsAt := by decide
    exact put_after _ (by rw [Vector.length_toList]; omega)
  have start := (ready_initHeader e type).header chaddr
  have id := start.addConfigured listable.clientid
  have host := id.addConfigured listable.hostname
  have name := host.addConfigured listable.fqdn
  have vendor := name.addOptionString listable.vendorclass
  simp only [foldl_append,foldl_cons,foldl_nil]
  exact vendor

theorem header_store32 (p : DhcpMessage) (place : Nat) (header : place + 4 ≤ optionsAt) (x : UInt32) :
    ∀ i, optionsAt ≤ i → p.store32 e place x i = p i := by
  intro i options
  exact put_after _ (by rw [Endian.split32_length]; omega)

/-- Whatever is sent, the list of requests is added to a field with the options that were taken one by one. -/
theorem send_ready (listable : cfg.Listable) (s : Sending) :
    ∃ a, s.send e cfg = a.addRequests ∧ Ready s.type ((s.sizes cfg).foldl accept 3) a := by
  cases s with
  | discover xid requested =>
    have start := (ready_initPacket e listable dhcpDiscover).header (header_store32 e _ 4 (by decide) xid)
    refine ⟨_,rfl,?_⟩
    simp only [Sending.sizes]
    rw [foldl_append]
    by_cases zero : requested = 0
    · rw [if_neg (not_not_intro zero),if_neg (not_not_intro zero)]
      exact start
    · rw [if_pos zero,if_pos zero]
      exact start.addSimpleOption e dhcpRequestedIp requested (by decide) (by decide) (by decide) (by decide)
  | selecting xid server requested =>
    have start := (ready_initPacket e listable dhcpRequest).header (header_store32 e _ 4 (by decide) xid)
    refine ⟨_,rfl,?_⟩
    have address := start.addSimpleOption e dhcpRequestedIp requested (by decide) (by decide) (by decide)
      (by decide)
    have server := address.addSimpleOption e dhcpServerId server (by decide) (by decide) (by decide)
      (by decide)
    simp only [Sending.sizes]
    rw [foldl_append]
    exact server
  | renew xid ciaddr =>
    have start := (ready_initPacket e listable dhcpRequest).header (header_store32 e _ 4 (by decide) xid)
    have address := start.header (header_store32 e _ ciaddrAt (by decide) ciaddr)
    refine ⟨_,rfl,?_⟩
    simp only [Sending.sizes]
    rw [foldl_append]
    exact address

/-! ### The list of requests -/

def requests : List UInt8 := [0x01,0x02,0x03,0x06,0x07,0x0f,0x1c,0x2a]

theorem written_addRequests (a : Assembly) :
    a.addRequests.written = a.written ++ [a.last,a.last + 2,a.last + 3,a.last + 4,a.last + 5,a.last + 6,a.last + 7,
      a.last + 8,a.last + 9,a.last + 1,a.last + 10] := by
  simp [Assembly.addRequests,dhcpOptionTable,Assembly.set,Nat.add_assoc]

theorem put_single (m : Memory) (k : Nat) (x : UInt8) (i : Nat) : m.put k [x] i = if i = k then x else m i := by
  unfold put
  by_cases same : i = k
  · simp [same]
  split
  · rw [getElem?_eq_none (by simp; omega),getD_none]
  · rfl

theorem packet_addRequests (a : Assembly) :
    a.addRequests.packet = (a.packet.put (optionsAt + a.last) (optionString dhcpParamReq requests)).put
      (optionsAt + (a.last + 10)) [dhcpEnd] := by
  funext i
  simp only [Assembly.addRequests,dhcpOptionTable,Assembly.set,foldl_cons,foldl_nil,put_single,if_true,
    Bool.false_eq_true,if_false,optCode,optLen,optData,Nat.add_zero,Nat.zero_add,Nat.add_assoc,Nat.reduceAdd]
  obtain before | behind | ⟨j,few,rfl⟩ : i < optionsAt + a.last ∨ optionsAt + (a.last + 10) < i ∨
      ∃ j < 11, i = optionsAt + (a.last + j) := by
    by_cases before : i < optionsAt + a.last
    · exact .inl before
    by_cases behind : optionsAt + (a.last + 10) < i
    · exact .inr (.inl behind)
    · exact .inr (.inr ⟨i - (optionsAt + a.last),by omega,by omega⟩)
  · rw [put_before _ _ before]
    simp (disch := omega) only [if_neg]
  · rw [put_after _ (by rw [optionString_length]; exact (by simp [requests]; omega))]
    simp (disch := omega) only [if_neg]
  have inside (k : Nat) (small : k < 10) : a.packet.put (optionsAt + a.last) (optionString dhcpParamReq requests)
      (optionsAt + (a.last + k)) = (optionString dhcpParamReq requests).getD k 0 := by
    have here := put_inside a.packet (optionsAt + a.last) k (optionString dhcpParamReq requests) small
    rw [← Nat.add_assoc,here,getD_eq_getElem?_getD,getElem?_eq_getElem small,getD_some]
  by_cases final : j = 10
  · rw [final]
    simp
  · have less : j < 10 := by omega
    rw [if_neg (show ¬ optionsAt + (a.last + j) = optionsAt + (a.last + 10) by omega),inside j less]
    interval_cases j <;> simp [optionString,requests]

theorem Ready.addRequests (ready : Ready type taken a) (room : taken ≤ 297) : Assembled type a.addRequests := by
  have last := ready.last_eq
  obtain ⟨opts,field,total,mem⟩ := ready.listed
  have flat : (listing (opts ++ [(dhcpParamReq,requests)])).flatten.length = taken + 10 := by
    simp [listing,optionString,requests,← total]
  refine ⟨fun i written => ?_,opts ++ [(dhcpParamReq,requests)],⟨?_,?_,by omega⟩,mem_append_left _ mem⟩
  · rw [written_addRequests,last] at written
    rcases mem_append.1 written with before | now
    · exact ready.inside i before
    · simp only [mem_cons,not_mem_nil,or_false] at now
      omega
  · exact forall_mem_append.mpr ⟨field.listed,forall_mem_singleton.mpr ⟨show dhcpParamReq ≠ dhcpPadding by decide,
      show dhcpParamReq ≠ dhcpOptionOver by decide,show dhcpParamReq ≠ dhcpEnd by decide,show 8 < 256 by decide⟩⟩
  · have appended : listing (opts ++ [(dhcpParamReq,requests)]) =
        listing opts ++ [optionString dhcpParamReq requests] := by simp [listing]
    rw [packet_addRequests,last,appended,← total]
    exact put_holds (optionString dhcpParamReq requests) field.holds.1

theorem end_written (listable : cfg.Listable) (s : Sending) :
    (s.sizes cfg).foldl accept 3 + 10 ∈ (s.send e cfg).written := by
  obtain ⟨a,sent,ready⟩ := send_ready e listable s
  rw [sent,written_addRequests,ready.last_eq]
  simp

/-- What is sent keeps to its field if and only if the options that are taken one by one leave eleven bytes of it. -/
theorem send_assembled_iff (e : Endian) (args : Arguments) (arp : Vector UInt8 6) (version : List UInt8)
    (s : Sending) :
    Assembled s.type (s.send e (args.config arp version)) ↔
      (s.sizes (args.config arp version)).foldl accept 3 ≤ 297 := by
  have listable := args.listable arp version
  constructor
  · intro assembled
    have inside := assembled.1 _ (end_written e listable s)
    omega
  · intro room
    obtain ⟨a,sent,ready⟩ := send_ready e listable s
    rw [sent]
    exact ready.addRequests room

def longNames : Arguments where
  clientid := .default
  hostname := some (replicate 255 0x61)
  fqdn := none
  vendorclass := some (replicate 20 0x62)

/-- The end option of a request with long names is written at byte 313 of the options field. -/
theorem longNames_outside :
    313 ∈ (Sending.selecting 1 2 3 |>.send .little (longNames.config (Vector.replicate 6 0) [])).written := by
  have taken : ((Sending.selecting 1 2 3).sizes (longNames.config (Vector.replicate 6 0) [])).foldl accept 3 = 303 := by
    decide +kernel
  have written := end_written .little (longNames.listable (Vector.replicate 6 0) []) (.selecting 1 2 3)
  rw [taken] at written
  exact written

end Stablebox.Udhcp.ClientPacket
