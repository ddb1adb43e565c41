import Stablebox.Lib.Run
import Stablebox.Udhcp.ServerPacket
import Stablebox.Udhcp.LeaseFile

/-! The server's main loop (dhcpd.c): start-up, one message at a time, and runs. -/
namespace Stablebox.Udhcp

open DhcpMessage

/-- What the pointer `lease` of `udhcpd_main` points to. -/
inductive LeaseRef where
  | static (lease : DhcpOfferedAddr)
  | table (i : Nat)

def messageType (packet : DhcpMessage) : Option UInt8 :=
  (getOption packet dhcpMessageType).map packet

namespace Server

variable (cfg : ServerConfig) (w : World)

def deref (s : Server) : LeaseRef → DhcpOfferedAddr
  | .static lease => lease
  | .table i => s.slot i

/-- A write through `lease`; the static lease is a local variable and is lost. -/
def update (s : Server) (ref : LeaseRef) (lease : DhcpOfferedAddr) : Server :=
  match ref with
  | .static _ => s
  | .table i => s.setSlot i lease

def leaseOf (s : Server) (packet : DhcpMessage) : Option LeaseRef :=
  let staticLeaseIp := getIpByMac cfg.staticLeases packet.chaddr
  if staticLeaseIp ≠ 0 then some (.static ⟨packet.chaddr,staticLeaseIp,0⟩)
  else (s.findLeaseByChaddr packet.chaddr).map .table

def requestKnown (s : Server) (packet : DhcpMessage) (lease : DhcpOfferedAddr) : Server :=
  let requested := (getOption packet dhcpRequestedIp).map (packet.load32 cfg.endian)
  let serverId := (getOption packet dhcpServerId).map (packet.load32 cfg.endian)
  match serverId with
  | some serverIdAlign =>
    -- SELECTING: silent unless we are the chosen server and the address is ours
    if serverIdAlign = cfg.server ∧ requested = some lease.yiaddr
    then s.sendACK cfg w packet lease.yiaddr else s
  | none =>
    match requested with
    | some requestedAlign =>
      -- INIT-REBOOT
      if lease.yiaddr = requestedAlign then s.sendACK cfg w packet lease.yiaddr
      else s.sendNAK cfg w packet
    | none =>
      -- RENEWING or REBINDING
      if lease.yiaddr = packet.ciaddr cfg.endian then s.sendACK cfg w packet lease.yiaddr
      else s.sendNAK cfg w packet

/-- A REQUEST from a client the server has no record of. Only INIT-REBOOT is answered;
an expired lease of the requested address loses its owner. -/
def requestUnknown (s : Server) (packet : DhcpMessage) : Server :=
  if (getOption packet dhcpServerId).isSome then s
  else
    match getOption packet dhcpRequestedIp with
    | none => s
    | some requested =>
      let requestedAlign := packet.load32 cfg.endian requested
      match s.findLeaseByYiaddr requestedAlign with
      | some i =>
        match s.leaseExpired w (s.slot i) with
        | (true,s) => s.setSlot i { s.slot i with chaddr := blankChaddr }
        | (false,s) => s.sendNAK cfg w packet
      | none =>
        if requestedAlign < cfg.start ∨ requestedAlign > cfg.finish then s.sendNAK cfg w packet
        else s

def decline (s : Server) (ref : LeaseRef) : Server :=
  let (now,s) := s.time w
  s.update ref { s.deref ref with
    chaddr := blankChaddr, expires := UInt32.ofNat (now + cfg.declineTime) }

def release (s : Server) (ref : LeaseRef) : Server :=
  let (now,s) := s.time w
  s.update ref { s.deref ref with expires := UInt32.ofNat now }

def dispatch (fuel : Nat) (s : Server) (packet : DhcpMessage) (type : UInt8) : Option Server :=
  let lease := s.leaseOf cfg packet
  if type = dhcpDiscover then s.sendOffer cfg w fuel packet
  else if type = dhcpRequest then
    match lease with
    | some ref => some (s.requestKnown cfg w packet (s.deref ref))
    | none => some (s.requestUnknown cfg w packet)
  else if type = dhcpDecline then
    match lease with
    | some ref => some (s.decline cfg w ref)
    | none => some s
  else if type = dhcpRelease then
    match lease with
    | some ref => some (s.release w ref)
    | none => some s
  else if type = dhcpInform then some (s.sendInform cfg w packet)
  else some s

/-- A message that `udhcp_get_packet` accepts enters the history at one more reading
of the clock. -/
def receive (s : Server) (packet : DhcpMessage) : Server :=
  let (now,s) := s.time w
  { s with log := s.log ++ [.received now packet] }

def serve (fuel : Nat) (s : Server) (packet : DhcpMessage) : Option Server :=
  match udhcpGetPacket cfg.endian packet with
  | none => some s
  | some packet =>
    let s := s.receive w packet
    match messageType packet with
    | none => some s
    | some type => s.dispatch cfg w fuel packet type

/-- What can happen to the table: a record of the lease file, a message, or a save. -/
inductive Action where
  | record (lease : DhcpOfferedAddr)
  | message (packet : DhcpMessage)
  | save

def act (fuel : Nat) (s : Server) : Action → Option Server
  | .record lease => some (if acceptsRecord cfg lease then (s.readLease w cfg lease).2 else s)
  | .message packet => s.serve cfg w fuel packet
  | .save => some (s.writeLeases w cfg).2

def run (fuel : Nat) (actions : List Action) (s : Server) : Option Server :=
  runActions (act cfg w fuel) actions s

def initial : Server := ⟨List.replicate cfg.maxLeases zeroSlot,0,0,0,[]⟩

theorem readLeasesLoop_run (fuel i : Nat) (records : List DhcpOfferedAddr) (s : Server) :
    ∃ read, read <+: records ∧ run cfg w fuel (read.map .record) s = some (readLeasesLoop w cfg i records s) := by
  induction records generalizing i s with
  | nil => exact ⟨[],List.nil_prefix,rfl⟩
  | cons lease rest ih =>
    have onward (j : Nat) (next : Server) (stepped : act cfg w fuel s (.record lease) = some next) :
        ∃ read, read <+: lease :: rest ∧
          run cfg w fuel (read.map .record) s = some (readLeasesLoop w cfg j rest next) := by
      obtain ⟨read,before,ran⟩ := ih j next
      exact ⟨lease :: read,(List.prefix_cons_inj lease).mpr before,(runActions_cons _ _ _ _ _).mpr ⟨next,stepped,ran⟩⟩
    unfold readLeasesLoop
    split
    · split
      case isTrue accepted =>
        split
        case h_1 next failed =>
          refine ⟨[lease],by simp,?_⟩
          simp [run,runActions,act,accepted,failed]
        case h_2 k next added =>
          exact onward (i + 1) next (by simp [act,accepted,added])
      case isFalse refused => exact onward i s (by simp [act,refused])
    · exact ⟨[],List.nil_prefix,rfl⟩

/-- Loading a lease file is a run over the records at its beginning. -/
theorem readLeases_run (fuel : Nat) (s : Server) (file : List UInt8) :
    ∃ read, read <+: freadLeases cfg.endian file.length file ∧
      run cfg w fuel (read.map .record) s = some (s.readLeases w cfg file) :=
  readLeasesLoop_run cfg w fuel 0 _ s

end Server

end Stablebox.Udhcp
