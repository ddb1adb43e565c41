import Stablebox.Udhcp.Exclusive

/-! Is an address in the pool? `sendOffer` compares in host order; `udhcpd_main` and `read_leases`
compare the words as they stand in memory, which on a little-endian host begins with the last
number of the dotted notation. -/
namespace Stablebox.Udhcp

open Endian List Nat

def InPool (cfg : ServerConfig) (addr : UInt32) : Prop :=
  ntohl cfg.endian cfg.start ≤ ntohl cfg.endian addr ∧ ntohl cfg.endian addr ≤ ntohl cfg.endian cfg.finish

def dotted (e : Endian) (addr : UInt32) : List UInt8 := split32 e addr

/-- Between the ends of the pool when the numbers are compared from the first on. -/
def BetweenFromFirst (cfg : ServerConfig) (addr : UInt32) : Prop :=
  dotted cfg.endian cfg.start ≤ dotted cfg.endian addr ∧ dotted cfg.endian addr ≤ dotted cfg.endian cfg.finish

def BetweenFromLast (cfg : ServerConfig) (addr : UInt32) : Prop :=
  (dotted cfg.endian cfg.start).reverse ≤ (dotted cfg.endian addr).reverse ∧
    (dotted cfg.endian addr).reverse ≤ (dotted cfg.endian cfg.finish).reverse

instance (cfg : ServerConfig) (addr : UInt32) : Decidable (InPool cfg addr) :=
  inferInstanceAs (Decidable (_ ∧ _))

instance (cfg : ServerConfig) (addr : UInt32) : Decidable (BetweenFromFirst cfg addr) :=
  inferInstanceAs (Decidable (_ ∧ _))

instance (cfg : ServerConfig) (addr : UInt32) : Decidable (BetweenFromLast cfg addr) :=
  inferInstanceAs (Decidable (_ ∧ _))

/-- The three places where the server asks whether the address is in its pool: the address a DISCOVER
asks for is offered, a REQUEST of an unknown client is refused, a record of the lease file is taken.
The address has no entry in the table. -/
structure TestsAgree (cfg : ServerConfig) (addr : UInt32) : Prop where
  offer : ∀ (w : World) (s : Server) (p : DhcpMessage) (req : Nat),
    getOption p dhcpRequestedIp = some req → p.load32 cfg.endian req = addr →
    s.findLeaseByYiaddr addr = none → ((s.requestedAddress cfg w p).1 = some addr ↔ InPool cfg addr)
  request : ∀ (w : World) (s : Server) (p : DhcpMessage) (req : Nat),
    getOption p dhcpServerId = none → getOption p dhcpRequestedIp = some req →
    p.load32 cfg.endian req = addr → s.findLeaseByYiaddr addr = none →
    (s.requestUnknown cfg w p = s.sendNAK cfg w p ↔ ¬InPool cfg addr)
  record : ∀ lease : DhcpOfferedAddr, lease.yiaddr = addr →
    (Server.acceptsRecord cfg lease = true ↔ InPool cfg addr)

def bigValue : List UInt8 → Nat
  | [] => 0
  | b :: bytes => b.toNat * 256 ^ bytes.length + bigValue bytes

theorem bigValue_lt (bytes : List UInt8) : bigValue bytes < 256 ^ bytes.length := by
  induction bytes with
  | nil => exact one_pos
  | cons b bytes ih =>
    have byte : b.toNat + 1 ≤ 256 := b.toNat_lt
    calc bigValue (b :: bytes) < b.toNat * 256 ^ bytes.length + 256 ^ bytes.length := Nat.add_lt_add_left ih _
      _ = (b.toNat + 1) * 256 ^ bytes.length := (Nat.succ_mul _ _).symm
      _ ≤ 256 * 256 ^ bytes.length := mul_le_mul_right _ byte
      _ = 256 ^ (bytes.length + 1) := (pow_succ').symm

theorem lt_iff_bigValue_lt (xs ys : List UInt8) (width : xs.length = ys.length) :
    xs < ys ↔ bigValue xs < bigValue ys := by
  induction xs generalizing ys with
  | nil =>
    obtain rfl := length_eq_zero_iff.mp width.symm
    simp [bigValue]
  | cons x xs ih =>
    obtain _ | ⟨y,ys⟩ := ys
    · cases width
    have tails : xs.length = ys.length := succ.inj width
    have xBound := bigValue_lt xs
    have yBound := bigValue_lt ys
    rw [cons_lt_cons_iff,ih ys tails,bigValue,bigValue,← tails,← UInt8.toNat_inj,UInt8.lt_iff_toNat_lt]
    rw [← tails] at yBound
    obtain less | same | more := lt_trichotomy x.toNat y.toNat
    · have := mul_le_mul_right (256 ^ xs.length) less
      rw [Nat.succ_mul] at this
      omega
    · rw [same]
      omega
    · have := mul_le_mul_right (256 ^ xs.length) more
      rw [Nat.succ_mul] at this
      omega

theorem bigValue_split32 (x : UInt32) : bigValue (split32 .big x) = x.toNat := by
  have bound := x.toNat_lt
  simp only [split32,bigValue,octet_toNat,length_cons,length_nil]
  omega

theorem split32_le_iff (x y : UInt32) : split32 .big x ≤ split32 .big y ↔ x ≤ y := by
  rw [← List.not_lt,lt_iff_bigValue_lt _ _ (by simp),bigValue_split32,bigValue_split32,not_lt,
    UInt32.le_iff_toNat_le]

theorem split32_ntohl (e : Endian) (x : UInt32) : split32 .big (ntohl e x) = split32 e x := by
  rw [← split32_htonl e,htonl_ntohl]

theorem inPool_iff (cfg : ServerConfig) (addr : UInt32) : InPool cfg addr ↔ BetweenFromFirst cfg addr := by
  simp only [InPool,BetweenFromFirst,dotted,← split32_le_iff,split32_ntohl]

theorem betweenFromLast_iff (little : cfg.endian = .little) (addr : UInt32) :
    BetweenFromLast cfg addr ↔ cfg.start ≤ addr ∧ addr ≤ cfg.finish := by
  have reversed (x : UInt32) : (dotted cfg.endian x).reverse = split32 .big x := by
    rw [dotted,little]
    rfl
  simp only [BetweenFromLast,reversed,split32_le_iff]

theorem sendNAK_ne (cfg : ServerConfig) (w : World) (s : Server) (p : DhcpMessage) : s ≠ s.sendNAK cfg w p := by
  intro same
  have sends := congrArg Server.sends same
  simp only [Server.sendNAK,Server.sendPacket,Server.time] at sends
  split at sends <;> simp at sends

/-- The three tests give one answer, the right one, exactly when the order from the last number of the
address on puts it into the pool just when the order from the first one does. -/
theorem poolTests_agree_iff (cfg : ServerConfig) (little : cfg.endian = .little) (addr : UInt32) :
    TestsAgree cfg addr ↔ (BetweenFromLast cfg addr ↔ BetweenFromFirst cfg addr) := by
  rw [betweenFromLast_iff little,← inPool_iff]
  constructor
  · intro agree
    have taken := agree.record ⟨blankChaddr,addr,0⟩ rfl
    simpa [Server.acceptsRecord] using taken
  · intro same
    refine ⟨?_,?_,?_⟩
    · intro w s p req asked is free
      simp only [Server.requestedAddress,asked,is,free,InPool]
      split <;> simp_all
    · intro w s p req noServer asked is free
      have refused : (addr < cfg.start ∨ addr > cfg.finish) ↔ ¬InPool cfg addr := by
        rw [← same,not_and_or,UInt32.not_le,UInt32.not_le]
      simp only [Server.requestUnknown,noServer,asked,is,free,refused,Option.isSome_none,Bool.false_eq_true,if_false]
      split
      · simp_all
      · simp_all [sendNAK_ne]
    · intro lease is
      simpa [Server.acceptsRecord,is] using same

/-- 192.168.0.50 in the pool of the default configuration. -/
theorem poolTests_agree_sample : TestsAgree sampleConfig 0x3200a8c0 :=
  (poolTests_agree_iff sampleConfig rfl 0x3200a8c0).mpr (by decide)

/-- 10.0.0.100 and the default pool, 192.168.0.20 to 192.168.0.254. The address is not offered, but a
client that asks for it after a reboot is not refused, and a record with it is taken. -/
theorem foreign_address_taken :
    let p := sampleMessage 7 [53,1,3,50,4,10,0,0,100,255]
    let w := sampleWorld 0 1000 1000 (by decide)
    let s := Server.initial sampleConfig
    ¬InPool sampleConfig 0x6400000a ∧ (s.requestedAddress sampleConfig w p).1 = none ∧
      s.requestUnknown sampleConfig w p = s ∧
      Server.acceptsRecord sampleConfig ⟨blankChaddr,0x6400000a,0⟩ = true := by
  refine ⟨by decide,by decide +kernel,rfl,by decide⟩

end Stablebox.Udhcp
