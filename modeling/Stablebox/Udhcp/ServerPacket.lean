import Stablebox.Udhcp.Leases

/-! Construction and sending of the server's packets (serverpacket.c). -/
namespace Stablebox.Udhcp

open UInt32

open DhcpMessage

abbrev inaddrBroadcast : UInt32 := 0xffffffff

def macBcastAddr : List UInt8 := List.replicate 6 0xff

variable (cfg : ServerConfig)

def initPacket (oldpacket : DhcpMessage) (type : UInt8) : DhcpMessage :=
  let packet := udhcpInitHeader cfg.endian type
  let packet := packet.store32 cfg.endian 4 (oldpacket.xid cfg.endian)
  let packet := packet.put chaddrAt oldpacket.chaddr.toList
  let packet := packet.store16 cfg.endian flagsAt (oldpacket.flags cfg.endian)
  let packet := packet.store32 cfg.endian giaddrAt (oldpacket.giaddr cfg.endian)
  let packet := packet.store32 cfg.endian ciaddrAt (oldpacket.ciaddr cfg.endian)
  addSimpleOption cfg.endian packet dhcpServerId cfg.server

def strncpy (packet : DhcpMessage) (offset : Nat) (string : List UInt8) (count : Nat) : DhcpMessage :=
  packet.put offset (string.take count)

def addBootpOptions (packet : DhcpMessage) : DhcpMessage :=
  let packet := packet.store32 cfg.endian siaddrAt cfg.siaddr
  let packet := match cfg.sname with
    | none => packet
    | some sname => strncpy packet snameAt sname 63
  match cfg.bootFile with
  | none => packet
  | some bootFile => strncpy packet fileAt bootFile 127

def addConfigOptions (packet : DhcpMessage) : DhcpMessage :=
  cfg.options.foldl (fun packet data =>
    if data.getD optCode 0 ≠ dhcpLeaseTime then addOptionString packet optionsAt data else packet) packet

/-- `send_packet` and the two ways it has: to the relay, or to the client itself. -/
def route (payload : DhcpMessage) (forceBroadcast : Bool) : Route :=
  if payload.giaddr cfg.endian ≠ 0 then .relay (payload.giaddr cfg.endian)
  else if forceBroadcast then .client inaddrBroadcast macBcastAddr
  else if payload.ciaddr cfg.endian ≠ 0 then
    .client (payload.ciaddr cfg.endian) (payload.chaddr.toList.take 6)
  else if ntohs cfg.endian (payload.flags cfg.endian) &&& broadcastFlag ≠ 0 then
    .client inaddrBroadcast macBcastAddr
  else .client (payload.yiaddr cfg.endian) (payload.chaddr.toList.take 6)

namespace Server

variable (w : World)

/-- Sending takes place at one more reading of the clock. A failed attempt puts
nothing on the wire. -/
def sendPacket (s : Server) (payload : DhcpMessage) (forceBroadcast : Bool) : Bool × Server :=
  let result := w.delivery s.sends
  let s := { s with sends := s.sends + 1 }
  let (now,s) := s.time w
  if result < 0 then (false,s)
  else (true,{ s with log := s.log ++ [.sent now payload (route cfg payload forceBroadcast)] })

/-- The address asked for in a DISCOVER, when `sendOffer` grants it: it lies in the
pool and is free or expired. `static_lease_ip` is zero where this is evaluated. -/
def requestedAddress (s : Server) (oldpacket : DhcpMessage) : Option UInt32 × Server :=
  match getOption oldpacket dhcpRequestedIp with
  | none => (none,s)
  | some req =>
    let reqAlign := oldpacket.load32 cfg.endian req
    if ntohl cfg.endian reqAlign ≥ ntohl cfg.endian cfg.start ∧
        ntohl cfg.endian reqAlign ≤ ntohl cfg.endian cfg.finish then
      match s.findLeaseByYiaddr reqAlign with
      | none => (some reqAlign,s)
      | some i =>
        match s.leaseExpired w (s.slot i) with
        | (true,s) => (some reqAlign,s)
        | (false,s) => (none,s)
    else (none,s)

/-- The address to offer and the lease time so far, for a client without a static lease. -/
def offerAddress (fuel : Nat) (s : Server) (oldpacket : DhcpMessage) : Option (UInt32 × UInt32 × Server) :=
  let leaseTime := ofNat cfg.lease
  match s.findLeaseByChaddr oldpacket.chaddr with
  | some i =>
    let lease := s.slot i
    match s.leaseExpired w lease with
    | (true,s) => some (lease.yiaddr,leaseTime,s)
    | (false,s) =>
      let (now,s) := s.time w
      some (lease.yiaddr,lease.expires - ofNat now,s)
  | none =>
    match s.requestedAddress cfg w oldpacket with
    | (some addr,s) => some (addr,leaseTime,s)
    | (none,s) =>
      match s.findAddress w cfg fuel false with
      | none => none
      | some (addr,s) =>
        if addr ≠ 0 then some (addr,leaseTime,s)
        else
          match s.findAddress w cfg fuel true with
          | none => none
          | some (addr,s) => some (addr,leaseTime,s)

def offerLeaseTime (oldpacket : DhcpMessage) (leaseTime : UInt32) : UInt32 :=
  let leaseTime := match getOption oldpacket dhcpLeaseTime with
    | none => leaseTime
    | some p =>
      let asked := ntohl cfg.endian (oldpacket.load32 cfg.endian p)
      if asked.toNat > cfg.lease then ofNat cfg.lease else asked
  if leaseTime.toNat < cfg.minLease then ofNat cfg.lease else leaseTime

/-- The packet of an OFFER or an ACK once its address and lease time are known. -/
def finishPacket (packet : DhcpMessage) (leaseTime : UInt32) : DhcpMessage :=
  let packet := addSimpleOption cfg.endian packet dhcpLeaseTime (htonl cfg.endian leaseTime)
  addBootpOptions cfg (addConfigOptions cfg packet)

/-- Answer a DISCOVER. `none` stands for a search that does not end. -/
def sendOffer (fuel : Nat) (s : Server) (oldpacket : DhcpMessage) : Option Server :=
  let packet := initPacket cfg oldpacket dhcpOffer
  let staticLeaseIp := getIpByMac cfg.staticLeases oldpacket.chaddr
  if staticLeaseIp = 0 then
    match s.offerAddress cfg w fuel oldpacket with
    | none => none
    | some (yiaddr,leaseTime,s) =>
      if yiaddr = 0 then some s
      else
        match s.addLease w oldpacket.chaddr yiaddr cfg.offerTime with
        | (none,s) => some s
        | (some _,s) =>
          let packet := packet.store32 cfg.endian yiaddrAt yiaddr
          let packet := finishPacket cfg packet (offerLeaseTime cfg oldpacket leaseTime)
          some (s.sendPacket cfg w packet false).2
  else
    let packet := packet.store32 cfg.endian yiaddrAt staticLeaseIp
    let packet := finishPacket cfg packet (ofNat cfg.lease)
    some (s.sendPacket cfg w packet false).2

def sendNAK (s : Server) (oldpacket : DhcpMessage) : Server :=
  (s.sendPacket cfg w (initPacket cfg oldpacket dhcpNak) true).2

/-- The lease time an ACK carries: what the client asks for, within the limits. -/
def ackLeaseTime (oldpacket : DhcpMessage) : UInt32 :=
  match getOption oldpacket dhcpLeaseTime with
  | none => ofNat cfg.lease
  | some p =>
    let asked := ntohl cfg.endian (oldpacket.load32 cfg.endian p)
    if asked.toNat > cfg.lease then ofNat cfg.lease
    else if asked.toNat < cfg.minLease then ofNat cfg.lease
    else asked

def ackPacket (oldpacket : DhcpMessage) (yiaddr : UInt32) : DhcpMessage :=
  finishPacket cfg ((initPacket cfg oldpacket dhcpAck).store32 cfg.endian yiaddrAt yiaddr)
    (ackLeaseTime cfg oldpacket)

/-- The lease enters the table only after the packet has gone out. -/
def sendACK (s : Server) (oldpacket : DhcpMessage) (yiaddr : UInt32) : Server :=
  match s.sendPacket cfg w (ackPacket cfg oldpacket yiaddr) false with
  | (false,s) => s
  | (true,s) => (s.addLease w oldpacket.chaddr yiaddr (ackLeaseTime cfg oldpacket).toNat).2

def sendInform (s : Server) (oldpacket : DhcpMessage) : Server :=
  let packet := addBootpOptions cfg (addConfigOptions cfg (initPacket cfg oldpacket dhcpAck))
  (s.sendPacket cfg w packet false).2

end Server

end Stablebox.Udhcp
