import Stablebox.Udhcp.Message

/-! The lease table of the server and the functions that search and change it.
Time, the answers to ARP probes and the results of sending are the world's; the
server state counts how many of each it has consumed. -/
namespace Stablebox.Udhcp

structure DhcpOfferedAddr where
  chaddr : Chaddr
  /-- network order -/
  yiaddr : UInt32
  /-- host order -/
  expires : UInt32
  deriving DecidableEq, Repr

def blankChaddr : Chaddr := Vector.replicate 16 0

def zeroSlot : DhcpOfferedAddr := ⟨blankChaddr,0,0⟩

structure StaticLease where
  mac : Vector UInt8 6
  ip : UInt32
  deriving DecidableEq, Repr

/-- The members of `server_config` the server reads after start-up. -/
structure ServerConfig where
  endian : Endian
  /-- our IP, network order -/
  server : UInt32
  /-- first and last address of the pool, network order -/
  start : UInt32
  finish : UInt32
  options : List (List UInt8)
  lease : Nat
  maxLeases : Nat
  remaining : Bool
  declineTime : Nat
  conflictTime : Nat
  offerTime : Nat
  minLease : Nat
  siaddr : UInt32
  sname : Option (List UInt8)
  bootFile : Option (List UInt8)
  staticLeases : List StaticLease

/-- Everything the server does not decide: the value of each reading of the clock,
of each ARP probe and of each attempt to send. -/
structure World where
  clock : Nat → Nat
  monotone : Monotone clock
  arpping : Nat → Int
  delivery : Nat → Int

/-- Where a packet goes: through the relay, or straight to an IP and link address. -/
inductive Route where
  | relay (giaddr : UInt32)
  | client (ciaddr : UInt32) (arp : List UInt8)
  deriving DecidableEq, Repr

/-- The observable history, each entry with the time at which it happened. -/
inductive Event where
  | received (time : Nat) (packet : DhcpMessage)
  | sent (time : Nat) (packet : DhcpMessage) (route : Route)

structure Server where
  leases : List DhcpOfferedAddr
  /-- readings of the clock so far -/
  ticks : Nat
  /-- ARP probes so far -/
  probes : Nat
  /-- attempts to send so far -/
  sends : Nat
  log : List Event

/-! Static leases (static_leases.c). -/

def macOf (chaddr : Chaddr) : Vector UInt8 6 := Vector.ofFn fun i => chaddr[i.val]

def getIpByMac (list : List StaticLease) (chaddr : Chaddr) : UInt32 :=
  list.foldl (fun ip cur => if cur.mac = macOf chaddr then cur.ip else ip) 0

def reservedIp (list : List StaticLease) (ip : UInt32) : Bool :=
  list.foldl (fun found cur => if cur.ip = ip then true else found) false

/-! The table (leases.c). -/

namespace Server

variable (w : World)

def time (s : Server) : Nat × Server :=
  (w.clock s.ticks,{ s with ticks := s.ticks + 1 })

def setSlot (s : Server) (i : Nat) (slot : DhcpOfferedAddr) : Server :=
  { s with leases := s.leases.set i slot }

def slot (s : Server) (i : Nat) : DhcpOfferedAddr := s.leases.getD i zeroSlot

/-- A slot that `clear_lease` wipes: the hardware address or the IP matches and is nonzero. -/
def clears (chaddr : Chaddr) (yiaddr : UInt32) (slot : DhcpOfferedAddr) : Bool :=
  (chaddr ≠ blankChaddr ∧ slot.chaddr = chaddr) ∨ (yiaddr ≠ 0 ∧ slot.yiaddr = yiaddr)

def clearLease (s : Server) (chaddr : Chaddr) (yiaddr : UInt32) : Server :=
  { s with leases := s.leases.map fun slot => if clears chaddr yiaddr slot then zeroSlot else slot }

/-- The scan of `oldest_expired_lease`: the bound drops to each older slot it meets. -/
def oldestExpiredLoop : (leases : List DhcpOfferedAddr) → (i oldestLease : Nat) → Option Nat → Option Nat
  | [],_,_,oldest => oldest
  | slot :: rest,i,oldestLease,oldest =>
    if oldestLease > slot.expires.toNat then
      oldestExpiredLoop rest (i + 1) slot.expires.toNat (some i)
    else oldestExpiredLoop rest (i + 1) oldestLease oldest

def oldestExpiredLease (s : Server) : Option Nat × Server :=
  let (now,s) := s.time w
  (oldestExpiredLoop s.leases 0 now none,s)

/-- Clear what collides, then take the oldest expired slot if there is one. -/
def addLease (s : Server) (chaddr : Chaddr) (yiaddr : UInt32) (lease : Nat) : Option Nat × Server :=
  let s := s.clearLease chaddr yiaddr
  match s.oldestExpiredLease w with
  | (none,s) => (none,s)
  | (some oldest,s) =>
    let (now,s) := s.time w
    (some oldest,s.setSlot oldest ⟨chaddr,yiaddr,UInt32.ofNat (now + lease)⟩)

def leaseExpired (s : Server) (lease : DhcpOfferedAddr) : Bool × Server :=
  let (now,s) := s.time w
  (decide (lease.expires.toNat < now),s)

def findLeaseByChaddr (s : Server) (chaddr : Chaddr) : Option Nat :=
  s.leases.findIdx? fun slot => slot.chaddr = chaddr

def findLeaseByYiaddr (s : Server) (yiaddr : UInt32) : Option Nat :=
  s.leases.findIdx? fun slot => slot.yiaddr = yiaddr

variable (cfg : ServerConfig)

/-- Probe an address; one that answers is reserved under the blank hardware address. -/
def checkIp (s : Server) (addr : UInt32) : Bool × Server :=
  let answer := w.arpping s.probes
  let s := { s with probes := s.probes + 1 }
  if answer = 0 then (true,(s.addLease w blankChaddr addr cfg.conflictTime).2)
  else (false,s)

/-- Whether `find_address` may hand out `ret`: it is not in the table, or it has
expired and expired leases are wanted. -/
def assignable (checkExpired : Bool) (s : Server) (ret : UInt32) : Bool × Server :=
  match s.findLeaseByYiaddr ret with
  | none => (true,s)
  | some i => if checkExpired then s.leaseExpired w (s.slot i) else (false,s)

/-- The scan of `find_address`, `addr` in host order. A pool that ends at the last
address of all wraps the counter around and need not stop; `none` is a scan that
is still going after `fuel` addresses. -/
def findAddressLoop (checkExpired : Bool) : (fuel : Nat) → (addr : UInt32) → Server → Option (UInt32 × Server)
  | 0,_,_ => none
  | fuel + 1,addr,s =>
    if addr ≤ ntohl cfg.endian cfg.finish then
      if addr &&& 0xff = 0 then findAddressLoop checkExpired fuel (addr + 1) s
      else if addr &&& 0xff = 0xff then findAddressLoop checkExpired fuel (addr + 1) s
      else if reservedIp cfg.staticLeases (htonl cfg.endian addr) then
        findAddressLoop checkExpired fuel (addr + 1) s
      else
        let ret := htonl cfg.endian addr
        match s.assignable w checkExpired ret with
        | (false,s) => findAddressLoop checkExpired fuel (addr + 1) s
        | (true,s) =>
          match s.checkIp w cfg ret with
          | (true,s) => findAddressLoop checkExpired fuel (addr + 1) s
          | (false,s) => some (ret,s)
    else some (0,s)

def findAddress (fuel : Nat) (checkExpired : Bool) (s : Server) : Option (UInt32 × Server) :=
  findAddressLoop w cfg checkExpired fuel (ntohl cfg.endian cfg.start) s

end Server

end Stablebox.Udhcp
