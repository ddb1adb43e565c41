import Stablebox.Udhcp.Leases

/-! Saving and loading the lease table (files.c). The file is the concatenation of
the 24-byte memory images of the records. -/
namespace Stablebox.Udhcp

def DhcpOfferedAddr.image (e : Endian) (lease : DhcpOfferedAddr) : List UInt8 :=
  lease.chaddr.toList ++ Endian.split32 e lease.yiaddr ++ Endian.split32 e lease.expires

def DhcpOfferedAddr.ofImage (e : Endian) (bytes : List UInt8) : DhcpOfferedAddr :=
  let m : Memory := fun i => bytes.getD i 0
  ⟨Vector.ofFn fun i => m i.val,m.load32 e 16,m.load32 e 20⟩

/-- Successive `fread`s of one record; a short rest of the file is not a record. -/
def freadLeases (e : Endian) : (fuel : Nat) → (file : List UInt8) → List DhcpOfferedAddr
  | 0,_ => []
  | fuel + 1,file =>
    if file.length < 24 then []
    else DhcpOfferedAddr.ofImage e (file.take 24) :: freadLeases e fuel (file.drop 24)

namespace Server

variable (w : World) (cfg : ServerConfig)

/-- The expiry `write_leases` stores for a slot, in host order. `curr` was read once. -/
def savedExpiry (curr : Nat) (s : Server) (slot : DhcpOfferedAddr) : UInt32 × Server :=
  if cfg.remaining then
    match s.leaseExpired w slot with
    | (true,s) => (0,s)
    | (false,s) => (slot.expires - UInt32.ofNat curr,s)
  else (slot.expires,s)

def writeLeasesLoop (curr : Nat) : List DhcpOfferedAddr → Server → List UInt8 × Server
  | [],s => ([],s)
  | slot :: rest,s =>
    if slot.yiaddr ≠ 0 then
      let (expires,s) := savedExpiry w cfg curr s slot
      let (file,s) := writeLeasesLoop curr rest s
      ({ slot with expires := htonl cfg.endian expires }.image cfg.endian ++ file,s)
    else writeLeasesLoop curr rest s

/-- The file `write_leases` leaves. The change of `expires` in the table is undone
slot by slot, so the table stays as it is. -/
def writeLeases (s : Server) : List UInt8 × Server :=
  let (curr,s) := s.time w
  writeLeasesLoop w cfg curr s.leases s

/-- The test of `read_leases`, on the addresses as they stand in memory. -/
def acceptsRecord (lease : DhcpOfferedAddr) : Bool :=
  lease.yiaddr ≥ cfg.start ∧ lease.yiaddr ≤ cfg.finish

/-- The body of the loop of `read_leases` for an accepted record. The lease time is
relative to the clock when the file holds absolute times. -/
def readLease (s : Server) (lease : DhcpOfferedAddr) : Option Nat × Server :=
  let expires := ntohl cfg.endian lease.expires
  if cfg.remaining then s.addLease w lease.chaddr lease.yiaddr expires.toNat
  else
    let (now,s) := s.time w
    s.addLease w lease.chaddr lease.yiaddr (expires - UInt32.ofNat now).toNat

def readLeasesLoop : (i : Nat) → List DhcpOfferedAddr → Server → Server
  | _,[],s => s
  | i,lease :: rest,s =>
    if i < cfg.maxLeases then
      if acceptsRecord cfg lease then
        match s.readLease w cfg lease with
        | (none,s) => s
        | (some _,s) => readLeasesLoop (i + 1) rest s
      else readLeasesLoop i rest s
    else s

def readLeases (s : Server) (file : List UInt8) : Server :=
  readLeasesLoop w cfg 0 (freadLeases cfg.endian file.length file) s

end Server

end Stablebox.Udhcp
