import Stablebox.Udhcp.Server

/-! What the packets of the server say on the wire: their type, the address they
grant, the client they answer and the lease time they carry, each read back from
the bytes that were sent. -/
namespace Stablebox.Udhcp

open DhcpMessage Memory Nat
open List hiding Vector

def leaseTime (e : Endian) (packet : DhcpMessage) : Option UInt32 :=
  (getOption packet dhcpLeaseTime).map fun p => ntohl e (packet.load32 e p)

theorem addOptionString_take (p : DhcpMessage) (optionptr : Nat) (string : List UInt8) (count : Nat)
    (enough : (string.getD optLen 0).toNat + 2 = count) :
    addOptionString p optionptr string = addOptionString p optionptr (string.take count) := by
  have len : (string.take count).getD optLen 0 = string.getD optLen 0 := by
    simp [getD_eq_getElem?_getD,show 1 < count by omega]
  simp only [addOptionString,len,enough,take_take,min_self]

def typeOption (type : UInt8) : List UInt8 := [dhcpMessageType,1,type]

def serverIdOption (e : Endian) (server : UInt32) : List UInt8 :=
  dhcpServerId :: 4 :: Endian.split32 e server

def leaseTimeOption (e : Endian) (time : UInt32) : List UInt8 :=
  dhcpLeaseTime :: 4 :: Endian.split32 e (htonl e time)

@[simp] theorem typeOption_length (type : UInt8) : (typeOption type).length = 3 := rfl

@[simp] theorem serverIdOption_length (e : Endian) (server : UInt32) :
    (serverIdOption e server).length = 6 := by simp [serverIdOption]

@[simp] theorem leaseTimeOption_length (e : Endian) (time : UInt32) :
    (leaseTimeOption e time).length = 6 := by simp [leaseTimeOption]

theorem typeOption_wellFormed (type : UInt8) : WellFormed (typeOption type) :=
  ⟨rfl,show dhcpMessageType ≠ dhcpPadding by decide,show dhcpMessageType ≠ dhcpEnd by decide⟩

theorem serverIdOption_wellFormed (e : Endian) (server : UInt32) : WellFormed (serverIdOption e server) :=
  ⟨by simp [serverIdOption],show dhcpServerId ≠ dhcpPadding by decide,show dhcpServerId ≠ dhcpEnd by decide⟩

theorem leaseTimeOption_wellFormed (e : Endian) (time : UInt32) : WellFormed (leaseTimeOption e time) :=
  ⟨by simp [leaseTimeOption],show dhcpLeaseTime ≠ dhcpPadding by decide,show dhcpLeaseTime ≠ dhcpEnd by decide⟩

private theorem type_byte (e : Endian) (type : UInt8) :
    (Endian.split32 e (if e = .big then UInt32.ofNat type.toNat <<< 24 else UInt32.ofNat type.toNat)).take 1 =
      [type] := by
  have bound := type.toNat_lt
  cases e
  · simp [Endian.split32,Endian.octet]
  simp [Endian.split32]
  apply UInt8.toNat_inj.mp
  simp [shiftLeft_eq]
  omega

theorem addSimpleOption_type (e : Endian) (p : DhcpMessage) (type : UInt8) :
    addSimpleOption e p dhcpMessageType (UInt32.ofNat type.toNat) =
      addOptionString p optionsAt (typeOption type) := by
  have first := type_byte e type
  have found : dhcpOptions.lookup dhcpMessageType = some .u8 := by decide
  simp only [addSimpleOption,found,OptionType.length]
  rw [addOptionString_take _ _ _ 3 (by simp)]
  congr 1
  simpa [typeOption] using first

theorem addSimpleOption_word (e : Endian) (p : DhcpMessage) (code : UInt8) (kind : OptionType) (data : UInt32)
    (found : dhcpOptions.lookup code = some kind) (wide : kind.length = 4) :
    addSimpleOption e p code data = addOptionString p optionsAt (code :: 4 :: Endian.split32 e data) := by
  simp [addSimpleOption,found,wide]

theorem holds_congr (same : ∀ i, optionsAt ≤ i → q i = p i) (holds : Holds p opts) : Holds q opts := by
  refine ⟨?_,(same _ (le_add_right _ _)).trans holds.2⟩
  exact (get_congr fun _ _ => same _ (le_add_right _ _)).trans holds.1

theorem begins_congr (same : ∀ i, optionsAt ≤ i → q i = p i) (begins : Begins p opts) : Begins q opts :=
  (get_congr fun _ _ => same _ (le_add_right _ _)).trans begins

theorem addSimpleOption_header (e : Endian) (p : DhcpMessage) (code : UInt8) (data : UInt32)
    (header : i < optionsAt) : addSimpleOption e p code data i = p i := by
  cases found : dhcpOptions.lookup code with
  | none => simp only [addSimpleOption,found]
  | some kind =>
    simp only [addSimpleOption,found]
    exact addOptionString_before _ (lt_of_lt_of_le header (le_add_right _ _))

theorem udhcpInitHeader_holds (e : Endian) (type : UInt8) : Holds (udhcpInitHeader e type) [typeOption type] := by
  simp only [udhcpInitHeader]
  rw [addSimpleOption_type]
  refine addOptionString_holds _ _ [] (by simp) (by simp) ⟨rfl,?_⟩ (typeOption_wellFormed type) (by simp)
  exact put_inside _ optionsAt 0 [dhcpEnd] (by simp)

theorem udhcpInitHeader_zero (e : Endian) (type : UInt8) (after : 3 ≤ i) (before : i < cookieAt) :
    udhcpInitHeader e type i = 0 := by
  have offsets := places
  simp only [udhcpInitHeader]
  rw [addSimpleOption_header _ _ _ _ (by omega),put_before _ _ (by omega),
    store32,put_before _ _ before,put_after _ (by simpa using after)]

variable (cfg : ServerConfig)

def headOptions (type : UInt8) : List (List UInt8) :=
  [typeOption type,serverIdOption cfg.endian cfg.server]

theorem headOptions_wellFormed (type : UInt8) : ∀ opt ∈ headOptions cfg type, WellFormed opt := by
  intro opt member
  simp only [headOptions,mem_cons,not_mem_nil,or_false] at member
  rcases member with rfl | rfl
  · exact typeOption_wellFormed type
  · exact serverIdOption_wellFormed _ _

theorem initPacket_holds (oldpacket : DhcpMessage) (type : UInt8) :
    Holds (initPacket cfg oldpacket type) (headOptions cfg type) := by
  simp only [initPacket]
  rw [addSimpleOption_word _ _ _ .ip _ (by decide) rfl]
  refine addOptionString_holds _ _ [typeOption type] ?_ (by simp) ?_ (serverIdOption_wellFormed _ _) (by simp)
  · intro opt member
    rw [mem_singleton.mp member]
    exact typeOption_wellFormed type
  · refine holds_congr ?_ (udhcpInitHeader_holds cfg.endian type)
    intro i options
    have offsets := places
    simp only [store32,store16]
    iterate 5 rw [put_after _ (by simp; omega)]

theorem initPacket_chaddr (oldpacket : DhcpMessage) (type : UInt8) :
    (initPacket cfg oldpacket type).chaddr = oldpacket.chaddr := by
  have offsets := places
  apply Vector.ext
  intro i bound
  simp only [initPacket,DhcpMessage.chaddr,Vector.getElem_ofFn]
  rw [addSimpleOption_header _ _ _ _ (by omega)]
  simp only [store32,store16]
  rw [put_outside _ (by simp; omega),put_outside _ (by simp),
    put_outside _ (by simp; omega),put_inside _ _ i _ (by simpa using bound)]
  simp

theorem initPacket_yiaddr (oldpacket : DhcpMessage) (type : UInt8) (low : yiaddrAt ≤ i)
    (high : i < yiaddrAt + 4) : initPacket cfg oldpacket type i = 0 := by
  have offsets := places
  simp only [initPacket]
  rw [addSimpleOption_header _ _ _ _ (by omega)]
  simp only [store32,store16]
  iterate 5 rw [put_outside _ (by simp; omega)]
  exact udhcpInitHeader_zero _ _ (by omega) (by omega)

theorem addConfigOptions_keeps {P : DhcpMessage → Prop}
    (kept : ∀ packet data, P packet → P (addOptionString packet optionsAt data)) (start : P packet) :
    P (addConfigOptions cfg packet) := by
  refine foldlRecOn cfg.options _ start fun packet here data _ => ?_
  split
  · exact kept packet data here
  · exact here

theorem addConfigOptions_header (packet : DhcpMessage) (header : i < optionsAt) :
    addConfigOptions cfg packet i = packet i := by
  refine addConfigOptions_keeps cfg (P := fun after => after i = packet i) (fun _ data same => ?_) rfl
  exact (addOptionString_before data (lt_of_lt_of_le header (le_add_right _ _))).trans same

theorem addConfigOptions_begins (packet : DhcpMessage) (opts : List (List UInt8))
    (formed : ∀ opt ∈ opts, WellFormed opt) (few : opts.length ≤ 309) (begins : Begins packet opts) :
    Begins (addConfigOptions cfg packet) opts :=
  addConfigOptions_keeps cfg (P := (Begins · opts))
    (fun _ data here => addOptionString_begins data formed few here) begins

theorem addBootpOptions_frame (packet : DhcpMessage)
    (outside : i < siaddrAt ∨ chaddrAt ≤ i ∧ i < snameAt ∨ cookieAt ≤ i) : addBootpOptions cfg packet i = packet i := by
  have offsets := places
  have field (p : DhcpMessage) (offset count : Nat) (string : List UInt8)
      (apart : i < offset ∨ offset + count ≤ i) : strncpy p offset string count i = p i := by
    rw [strncpy,put_outside]
    rw [length_take]
    omega
  have base : packet.store32 cfg.endian siaddrAt cfg.siaddr i = packet i :=
    put_outside _ (by rw [Endian.split32_length]; omega)
  cases sname : cfg.sname <;> cases bootFile : cfg.bootFile <;> simp only [addBootpOptions,sname,bootFile]
  · exact base
  · rw [field _ _ _ _ (by omega),base]
  · rw [field _ _ _ _ (by omega),base]
  · rw [field _ _ _ _ (by omega),field _ _ _ _ (by omega),base]

namespace Server

theorem finishPacket_frame (packet : DhcpMessage) (time : UInt32)
    (outside : i < siaddrAt ∨ chaddrAt ≤ i ∧ i < snameAt) : finishPacket cfg packet time i = packet i := by
  have offsets := places
  simp only [finishPacket]
  rw [addBootpOptions_frame cfg _ (by omega),addConfigOptions_header cfg _ (by omega),
    addSimpleOption_header _ _ _ _ (by omega)]

theorem finishPacket_begins (time : UInt32) (holds : Holds packet (headOptions cfg type)) :
    Begins (finishPacket cfg packet time) (headOptions cfg type ++ [leaseTimeOption cfg.endian time]) := by
  have formed : ∀ opt ∈ headOptions cfg type ++ [leaseTimeOption cfg.endian time], WellFormed opt :=
    forall_mem_append.mpr ⟨headOptions_wellFormed cfg type,forall_mem_singleton.mpr (leaseTimeOption_wellFormed _ _)⟩
  refine begins_congr (fun i options => addBootpOptions_frame cfg _ ?_) ?_
  · have offsets := places
    omega
  · apply addConfigOptions_begins cfg _ _ formed (by simp [headOptions])
    rw [addSimpleOption_word _ _ _ .u32 _ (by decide) rfl]
    exact (addOptionString_holds _ _ _ (headOptions_wellFormed cfg type) (by simp [headOptions]) holds
      (leaseTimeOption_wellFormed _ _) (by simp [headOptions])).1

/-- An OFFER or an ACK of `yiaddr` for the client that sent `oldpacket`. -/
def grantPacket (oldpacket : DhcpMessage) (type : UInt8) (yiaddr time : UInt32) : DhcpMessage :=
  finishPacket cfg ((initPacket cfg oldpacket type).store32 cfg.endian yiaddrAt yiaddr) time

variable (oldpacket : DhcpMessage)

variable (type : UInt8)

theorem grantPacket_begins (yiaddr time : UInt32) :
    Begins (grantPacket cfg oldpacket type yiaddr time)
      (headOptions cfg type ++ [leaseTimeOption cfg.endian time]) := by
  have offsets := places
  apply finishPacket_begins
  refine holds_congr (fun i options => ?_) (initPacket_holds cfg oldpacket type)
  exact put_after _ (by rw [Endian.split32_length]; omega)

@[simp] theorem grantPacket_chaddr (yiaddr time : UInt32) :
    (grantPacket cfg oldpacket type yiaddr time).chaddr = oldpacket.chaddr := by
  have offsets := places
  rw [← initPacket_chaddr cfg oldpacket type]
  apply Vector.ext
  intro i bound
  simp only [DhcpMessage.chaddr,Vector.getElem_ofFn,grantPacket]
  rw [finishPacket_frame cfg _ _ (by omega)]
  exact put_after _ (by rw [Endian.split32_length]; omega)

@[simp] theorem grantPacket_yiaddr (yiaddr time : UInt32) :
    (grantPacket cfg oldpacket type yiaddr time).yiaddr cfg.endian = yiaddr := by
  have same := load32_store32 cfg.endian (initPacket cfg oldpacket type) yiaddrAt yiaddr
  refine Eq.trans (load32_congr _ (get_congr ?_)) same
  intro i bound
  have offsets := places
  exact finishPacket_frame cfg _ _ (by omega)

theorem messageType_begins {packet : DhcpMessage} {type : UInt8} {rest : List (List UInt8)}
    (begins : Begins packet (typeOption type :: rest)) : messageType packet = some type := by
  simp only [Begins,flatten_cons,length_append,get_add] at begins
  have here := (append_inj begins (by simp)).1
  have found := getOption_begins packet dhcpMessageType [] (typeOption type) (by simp)
    (typeOption_wellFormed type) rfl (by simp) (by simp) (by simpa [Begins] using here)
  have byte := (get_eq_iff packet optionsAt (typeOption type)).mp here 2 (by simp)
  rw [messageType,found]
  exact congrArg some byte

@[simp] theorem grantPacket_type (yiaddr time : UInt32) :
    messageType (grantPacket cfg oldpacket type yiaddr time) = some type :=
  messageType_begins (grantPacket_begins cfg oldpacket type yiaddr time)

@[simp] theorem grantPacket_leaseTime (yiaddr time : UInt32) :
    leaseTime cfg.endian (grantPacket cfg oldpacket type yiaddr time) = some time := by
  have begins := grantPacket_begins cfg oldpacket type yiaddr time
  have found := getOption_begins _ dhcpLeaseTime (headOptions cfg type) (leaseTimeOption cfg.endian time)
    (by
      intro opt member
      refine ⟨headOptions_wellFormed cfg type opt member,?_⟩
      simp only [headOptions,mem_cons,not_mem_nil,or_false] at member
      rcases member with rfl | rfl
      · exact show dhcpMessageType ≠ dhcpLeaseTime ∧ dhcpMessageType ≠ dhcpOptionOver by decide
      · exact show dhcpServerId ≠ dhcpLeaseTime ∧ dhcpServerId ≠ dhcpOptionOver by decide)
    (leaseTimeOption_wellFormed _ _) rfl (by simp [headOptions]) (by simp [headOptions]) begins
  have flat : (headOptions cfg type ++ [leaseTimeOption cfg.endian time]).flatten =
      (headOptions cfg type).flatten ++ leaseTimeOption cfg.endian time := by simp
  rw [Begins,flat,length_append,get_add] at begins
  have here := (append_inj begins (by simp)).2
  rw [leaseTime,found]
  simp only [Option.map_some,Option.some.injEq]
  rw [show optionsAt + (headOptions cfg type).flatten.length + 2 = optionsAt + 9 + 2 by simp [headOptions]]
  have word : (grantPacket cfg oldpacket type yiaddr time).get (optionsAt + 9 + 2) 4 =
      Endian.split32 cfg.endian (htonl cfg.endian time) := by
    have split := get_add (grantPacket cfg oldpacket type yiaddr time) (optionsAt + 9) 2 4
    have all : (grantPacket cfg oldpacket type yiaddr time).get (optionsAt + 9) (2 + 4) =
        [dhcpLeaseTime,4] ++ Endian.split32 cfg.endian (htonl cfg.endian time) := by
      simpa [headOptions,leaseTimeOption] using here
    rw [split] at all
    exact (append_inj all (by simp)).2
  rw [load32_eq cfg.endian _ _ _ word,ntohl_htonl]

theorem initPacket_type : messageType (initPacket cfg oldpacket type) = some type :=
  messageType_begins (initPacket_holds cfg oldpacket type).1

def informPacket (oldpacket : DhcpMessage) : DhcpMessage :=
  addBootpOptions cfg (addConfigOptions cfg (initPacket cfg oldpacket dhcpAck))

theorem informPacket_type : messageType (informPacket cfg oldpacket) = some dhcpAck := by
  have offsets := places
  apply messageType_begins
  refine begins_congr (fun i options => addBootpOptions_frame cfg _ (by omega)) ?_
  exact addConfigOptions_begins cfg _ _ (headOptions_wellFormed cfg dhcpAck) (by simp)
    (initPacket_holds cfg oldpacket dhcpAck).1

theorem informPacket_yiaddr : (informPacket cfg oldpacket).yiaddr cfg.endian = 0 := by
  have offsets := places
  have zero (i : Nat) (bound : i < 4) : informPacket cfg oldpacket (yiaddrAt + i) = 0 := by
    rw [informPacket,addBootpOptions_frame cfg _ (by omega),addConfigOptions_header cfg _ (by omega)]
    exact initPacket_yiaddr cfg oldpacket dhcpAck (by omega) (by omega)
  have z0 := zero 0 (by omega)
  have z1 := zero 1 (by omega)
  have z2 := zero 2 (by omega)
  have z3 := zero 3 (by omega)
  simp only [DhcpMessage.yiaddr,load32,z0,z1,z2,z3]
  cases cfg.endian <;> decide

theorem ackPacket_eq (yiaddr : UInt32) :
    ackPacket cfg oldpacket yiaddr = grantPacket cfg oldpacket dhcpAck yiaddr (ackLeaseTime cfg oldpacket) :=
  rfl

end Server

/-- What an onlooker on the wire learns from one entry of the history. -/
inductive Observation where
  | received (time : Nat) (type : Option UInt8) (chaddr : Chaddr)
  | sent (time : Nat) (type : Option UInt8) (chaddr : Chaddr) (yiaddr : UInt32) (lease : Option UInt32)
  deriving DecidableEq, Repr

def observe (e : Endian) : Event → Observation
  | .received t p => .received t (messageType p) p.chaddr
  | .sent t p _ => .sent t (messageType p) p.chaddr (p.yiaddr e) (leaseTime e p)

def Server.history (e : Endian) (s : Server) : List Observation := s.log.map (observe e)

theorem observed_sent {events : List Event} (seen : .sent t type c ip lease ∈ events.map (observe e)) :
    ∃ packet route, .sent t packet route ∈ events ∧ messageType packet = type ∧ packet.chaddr = c ∧
      packet.yiaddr e = ip ∧ leaseTime e packet = lease := by
  obtain ⟨event,member,equal⟩ := mem_map.mp seen
  cases event with
  | received => simp [observe] at equal
  | sent time packet route =>
    simp only [observe,Observation.sent.injEq] at equal
    obtain ⟨rfl,rest⟩ := equal
    exact ⟨packet,route,member,rest⟩

end Stablebox.Udhcp
