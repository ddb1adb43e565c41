import Stablebox.Udhcp.LeaseTable
import Stablebox.Udhcp.PacketFields

/-! Everything the server does while it handles one message, as a relation on its
states. Each way of changing the table or of sending names the reason the code has
for it; every invariant of the server is then a statement about single moves. -/
namespace Stablebox.Udhcp

open DhcpMessage Server Option Prod Nat

/-- Every slot that holds `addr` was expired at a time that has been read. -/
def Vacant (w : World) (s : Server) (addr : UInt32) : Prop :=
  ∀ (i : Nat) (slot : DhcpOfferedAddr), s.leases[i]? = some slot → slot.yiaddr = addr →
    ∃ n < s.ticks, slot.expires.toNat < w.clock n

def Owner (s : Server) (chaddr : Chaddr) (addr : UInt32) : Prop :=
  ∃ (i : Nat) (slot : DhcpOfferedAddr), s.leases[i]? = some slot ∧ slot.chaddr = chaddr ∧ slot.yiaddr = addr

/-- An address that the scan of the pool can come to and that no static lease reserves.
The counter leaves the pool only when the pool ends at the last address of all. -/
def Scanned (cfg : ServerConfig) (addr : UInt32) : Prop :=
  ∃ host, addr = htonl cfg.endian host ∧ host ≤ ntohl cfg.endian cfg.finish ∧ host &&& 0xff ≠ 0 ∧
    reservedIp cfg.staticLeases addr = false ∧
    (ntohl cfg.endian cfg.start ≤ host ∨ ntohl cfg.endian cfg.finish = 0xffffffff)

variable (cfg : ServerConfig) (w : World)

/-- Why the server names `addr` to the sender of `p`, seen from the state `origin` in
which it began to handle the message. -/
inductive Chosen (p : DhcpMessage) (origin : Server) (addr : UInt32) : Prop where
  | static (own : getIpByMac cfg.staticLeases p.chaddr = addr) (nonzero : addr ≠ 0)
  | held (dynamic : getIpByMac cfg.staticLeases p.chaddr = 0) (i : Nat)
      (found : origin.findLeaseByChaddr p.chaddr = some i) (same : (origin.slot i).yiaddr = addr)
  | requested (dynamic : getIpByMac cfg.staticLeases p.chaddr = 0)
      (discover : messageType p = some dhcpDiscover) (unknown : origin.findLeaseByChaddr p.chaddr = none)
      (asked : (origin.requestedAddress cfg w p).1 = some addr) (nonzero : addr ≠ 0)
  | scanned (dynamic : getIpByMac cfg.staticLeases p.chaddr = 0)
      (discover : messageType p = some dhcpDiscover) (unknown : origin.findLeaseByChaddr p.chaddr = none)
      (refused : (origin.requestedAddress cfg w p).1 = none) (scan : Scanned cfg addr)

/-- The packets that answer `p`. -/
inductive Answer (p : DhcpMessage) (origin s : Server) (packet : DhcpMessage) : Prop where
  | refuse (type : messageType packet = some dhcpNak)
  | inform (asked : messageType p = some dhcpInform) (type : messageType packet = some dhcpAck)
      (nothing : packet.yiaddr cfg.endian = 0)
  | grant (addr : UInt32)
      (type : messageType p = some dhcpDiscover ∧ messageType packet = some dhcpOffer ∧ addr ≠ 0 ∨
        messageType p = some dhcpRequest ∧ messageType packet = some dhcpAck)
      (chaddr : packet.chaddr = p.chaddr)
      (yiaddr : packet.yiaddr cfg.endian = addr) (chosen : Chosen cfg w p origin addr)
      (owner : getIpByMac cfg.staticLeases p.chaddr ≠ 0 ∨ Owner s p.chaddr addr)

/-- One move of the server on the message `p`. -/
inductive Move (p : DhcpMessage) (origin : Server) : Server → Server → Prop where
  | idle (s next : Server) (leases : next.leases = s.leases) (log : next.log = s.log)
      (later : s.ticks ≤ next.ticks) : Move p origin s next
  | reserve (s : Server) (addr : UInt32) (vacant : Vacant w s addr) (scan : Scanned cfg addr) :
      Move p origin s (s.addLease w blankChaddr addr cfg.conflictTime).2
  | grant (s : Server) (addr : UInt32) (lease : Nat) (chosen : Chosen cfg w p origin addr)
      (claim : getIpByMac cfg.staticLeases p.chaddr ≠ 0 ∨ Owner s p.chaddr addr ∨ Vacant w s addr) :
      Move p origin s (s.addLease w p.chaddr addr lease).2
  | orphan (s : Server) (i : Nat) (slot : DhcpOfferedAddr) (here : s.leases[i]? = some slot)
      (expired : ∃ n < s.ticks, slot.expires.toNat < w.clock n) :
      Move p origin s (s.setSlot i { slot with chaddr := blankChaddr })
  | own (s : Server) (i : Nat) (slot new : DhcpOfferedAddr) (here : s.leases[i]? = some slot)
      (mine : slot.chaddr = p.chaddr) (yiaddr : new.yiaddr = slot.yiaddr)
      (chaddr : new.chaddr = slot.chaddr ∨ new.chaddr = blankChaddr) :
      Move p origin s (s.setSlot i new)
  | send (s : Server) (packet : DhcpMessage) (route : Route) (answer : Answer cfg w p origin s packet) :
      Move p origin s { s with
        ticks := s.ticks + 1, log := s.log ++ [.sent (w.clock s.ticks) packet route] }

abbrev Moves (p : DhcpMessage) (origin : Server) : Server → Server → Prop :=
  Relation.ReflTransGen (Move cfg w p origin)

variable {cfg w}

variable {s : Server}

theorem Move.ticks (move : Move cfg w p origin s next) : s.ticks ≤ next.ticks := by
  cases move with
  | idle _ _ _ later => exact later
  | reserve => exact le_of_lt (addLease_ticks w _ _ _ _)
  | grant => exact le_of_lt (addLease_ticks w _ _ _ _)
  | orphan => exact le_rfl
  | own => exact le_rfl
  | send => exact le_succ _

theorem Moves.ticks (moves : Moves cfg w p origin s next) : s.ticks ≤ next.ticks := by
  induction moves with
  | refl => exact le_rfl
  | tail _ move ih => exact le_trans ih move.ticks

theorem Move.noSharing (move : Move cfg w p origin s next) (unique : NoSharing s.leases) : NoSharing next.leases := by
  cases move with
  | idle _ leases => exact leases ▸ unique
  | reserve => exact addLease_noSharing w _ _ _ unique
  | grant => exact addLease_noSharing w _ _ _ unique
  | orphan i slot here _ =>
    exact ⟨Distinct.set_same _ _ unique.yiaddr here (.inl rfl),Distinct.set_same _ _ unique.chaddr here (.inr rfl)⟩
  | own i slot new here mine yiaddr chaddr =>
    exact ⟨Distinct.set_same _ _ unique.yiaddr here (.inl yiaddr),Distinct.set_same _ _ unique.chaddr here chaddr⟩
  | send => exact unique

theorem Moves.noSharing (moves : Moves cfg w p origin s next)
    (unique : NoSharing s.leases) : NoSharing next.leases := by
  induction moves with
  | refl => exact unique
  | tail _ move ih => exact move.noSharing ih

variable {addr : UInt32}

theorem Vacant.later (vacant : Vacant w s addr)
    (leases : next.leases = s.leases) (later : s.ticks ≤ next.ticks) : Vacant w next addr := by
  intro i slot here same
  rw [leases] at here
  obtain ⟨n,bound,expired⟩ := vacant i slot here same
  exact ⟨n,lt_of_lt_of_le bound later,expired⟩

theorem vacant_of_none (missing : s.findLeaseByYiaddr addr = none) :
    Vacant w s addr := fun _ _ here same =>
  absurd same (findLeaseByYiaddr_none missing here)

theorem vacant_of_expired (unique : NoSharing s.leases) (nonzero : addr ≠ 0) (found : s.findLeaseByYiaddr addr = some i)
    (expired : s.leaseExpired w (s.slot i) = (true,next)) : Vacant w next addr := by
  obtain ⟨slot,present,value,same⟩ := findLeaseByYiaddr_some found
  simp only [leaseExpired,time,Prod.mk.injEq] at expired
  obtain ⟨old,rfl⟩ := expired
  intro j other here equal
  have index := unique.yiaddr j i other slot here present (equal.trans same.symm) (equal ▸ nonzero)
  subst index
  rw [present] at here
  obtain rfl := some.inj here
  exact ⟨s.ticks,lt_succ_self _,value ▸ of_decide_eq_true old⟩

theorem host_nonzero (e : Endian) (low : host &&& 0xff ≠ 0) : htonl e host ≠ 0 := by
  intro zero
  have back := congrArg (ntohl e) zero
  rw [ntohl_htonl] at back
  have none : ntohl e 0 = 0 := by cases e <;> decide
  rw [none] at back
  subst back
  exact low (by decide)

theorem Scanned.nonzero (scan : Scanned cfg addr) : addr ≠ 0 := by
  obtain ⟨host,rfl,_,low,_⟩ := scan
  exact host_nonzero _ low

variable (cfg w)

theorem moves_time (p : DhcpMessage) (origin s : Server) : Moves cfg w p origin s (s.time w).2 :=
  .single (.idle _ _ rfl rfl (le_succ _))

theorem assignable_true (unique : NoSharing s.leases) (nonzero : addr ≠ 0)
    (free : s.assignable w checkExpired addr = (true,next)) :
    Vacant w next addr ∧ next.leases = s.leases ∧ next.log = s.log ∧ s.ticks ≤ next.ticks := by
  simp only [assignable] at free
  cases found : s.findLeaseByYiaddr addr with
  | none =>
    simp only [found,Prod.mk.injEq,true_and] at free
    subst free
    exact ⟨vacant_of_none found,rfl,rfl,le_rfl⟩
  | some i =>
    simp only [found] at free
    split at free
    · refine ⟨vacant_of_expired unique nonzero found free,?_⟩
      simp only [leaseExpired,time,Prod.mk.injEq] at free
      obtain ⟨_,rfl⟩ := free
      exact ⟨rfl,rfl,le_succ _⟩
    · cases free

theorem assignable_idle (s : Server) (checkExpired : Bool) (addr : UInt32) :
    (s.assignable w checkExpired addr).2.leases = s.leases ∧
    (s.assignable w checkExpired addr).2.log = s.log ∧
    s.ticks ≤ (s.assignable w checkExpired addr).2.ticks := by
  simp only [assignable]
  split
  · exact ⟨rfl,rfl,le_rfl⟩
  split
  · exact ⟨rfl,rfl,le_succ _⟩
  · exact ⟨rfl,rfl,le_rfl⟩

def InScan (addr : UInt32) : Prop :=
  ntohl cfg.endian cfg.start ≤ addr ∨ ntohl cfg.endian cfg.finish = 0xffffffff

theorem inScan_succ (addr : UInt32) (scan : InScan cfg addr) (inside : addr ≤ ntohl cfg.endian cfg.finish) :
    InScan cfg (addr + 1) := by
  rcases scan with low | wide
  · by_cases top : ntohl cfg.endian cfg.finish = 0xffffffff
    · exact .inr top
    left
    have last : (ntohl cfg.endian cfg.finish).toNat ≠ 4294967295 := by
      intro equal
      exact top (UInt32.toNat_inj.mp equal)
    have bound := (ntohl cfg.endian cfg.finish).toNat_lt
    rw [UInt32.le_iff_toNat_le] at low inside ⊢
    rw [UInt32.toNat_add,mod_eq_of_lt (by simp; omega)]
    exact le_succ_of_le low
  · exact .inr wide

/-- A scan reserves the addresses that answer a probe and ends with a vacant one. -/
theorem findAddressLoop_moves (p : DhcpMessage) (origin : Server) (checkExpired : Bool) (fuel : Nat) (addr : UInt32)
    (s : Server) (result : UInt32) (next : Server) (unique : NoSharing s.leases) (scan : InScan cfg addr)
    (done : findAddressLoop w cfg checkExpired fuel addr s = some (result,next)) :
    Moves cfg w p origin s next ∧ (result = 0 ∨ Vacant w next result ∧ Scanned cfg result) := by
  induction fuel generalizing addr s with
  | zero => simp [findAddressLoop] at done
  | succ fuel ih =>
    rw [findAddressLoop] at done
    split at done
    next inside =>
      have following := inScan_succ cfg addr scan inside
      split at done
      next low => exact ih _ _ unique following done
      next low =>
        split at done
        next high => exact ih _ _ unique following done
        next high =>
          split at done
          next reserved => exact ih _ _ unique following done
          next reserved =>
            have scanned : Scanned cfg (htonl cfg.endian addr) :=
              ⟨addr,rfl,inside,low,Bool.eq_false_iff.mpr reserved,scan⟩
            obtain ⟨leases,log,later⟩ := assignable_idle w s checkExpired (htonl cfg.endian addr)
            dsimp only at done
            split at done
            next middle taken =>
              rw [taken] at leases log later
              obtain ⟨rest,last⟩ := ih _ _ (leases ▸ unique) following done
              exact ⟨.head (.idle _ _ leases log later) rest,last⟩
            next middle free =>
              obtain ⟨vacant,leases,log,later⟩ := assignable_true w unique
                scanned.nonzero free
              have first : Move cfg w p origin s { middle with probes := middle.probes + 1 } :=
                .idle _ _ leases log later
              have vacancy : Vacant w { middle with probes := middle.probes + 1 } (htonl cfg.endian addr) :=
                vacant.later rfl le_rfl
              split at done
              next last conflict =>
                simp only [checkIp] at conflict
                split at conflict
                · simp only [Prod.mk.injEq,true_and] at conflict
                  subst conflict
                  have step : Move cfg w p origin { middle with probes := middle.probes + 1 } _ :=
                    .reserve _ _ vacancy scanned
                  obtain ⟨rest,last⟩ := ih _ _ (step.noSharing (first.noSharing unique)) following done
                  exact ⟨.head first (.head step rest),last⟩
                · cases conflict
              next last quiet =>
                simp only [checkIp] at quiet
                split at quiet
                · cases quiet
                simp only [Prod.mk.injEq,true_and] at quiet
                subst quiet
                obtain ⟨rfl,rfl⟩ := done
                exact ⟨.single first,.inr ⟨vacancy,scanned⟩⟩
    next outside =>
      obtain ⟨rfl,rfl⟩ := done
      exact ⟨.refl,.inl rfl⟩

theorem findAddress_moves (p : DhcpMessage) (origin : Server) (unique : NoSharing s.leases)
    (done : s.findAddress w cfg fuel checkExpired = some (result,next)) :
    Moves cfg w p origin s next ∧ (result = 0 ∨ Vacant w next result ∧ Scanned cfg result) :=
  findAddressLoop_moves cfg w p origin checkExpired fuel _ s result next unique (.inl (UInt32.le_refl _)) done

theorem requestedAddress_idle (s : Server) (p : DhcpMessage) :
    (s.requestedAddress cfg w p).2.leases = s.leases ∧ (s.requestedAddress cfg w p).2.log = s.log ∧
    s.ticks ≤ (s.requestedAddress cfg w p).2.ticks := by
  have same : s.leases = s.leases ∧ s.log = s.log ∧ s.ticks ≤ s.ticks := ⟨rfl,rfl,le_rfl⟩
  simp only [requestedAddress]
  split
  · exact same
  split
  · split
    · exact same
    split
    next late equal => obtain ⟨_,rfl⟩ := mk.inj equal; exact ⟨rfl,rfl,le_succ _⟩
    next late equal => obtain ⟨_,rfl⟩ := mk.inj equal; exact ⟨rfl,rfl,le_succ _⟩
  · exact same

theorem requestedAddress_some (unique : NoSharing s.leases) (asked : s.requestedAddress cfg w p = (some addr,next)) :
    ntohl cfg.endian cfg.start ≤ ntohl cfg.endian addr ∧
    ntohl cfg.endian addr ≤ ntohl cfg.endian cfg.finish ∧ (addr ≠ 0 → Vacant w next addr) := by
  simp only [requestedAddress] at asked
  split at asked
  · cases asked
  split at asked
  next range =>
    split at asked
    next missing =>
      cases asked
      exact ⟨range.1,range.2,fun _ => vacant_of_none missing⟩
    next i found =>
      split at asked
      next late expired =>
        obtain ⟨rfl,rfl⟩ := mk.inj asked |>.imp_left some.inj
        exact ⟨range.1,range.2,fun nonzero => vacant_of_expired unique nonzero found expired⟩
      · cases asked
  · cases asked

theorem offerAddress_moves {time : UInt32} (unique : NoSharing s.leases)
    (dynamic : getIpByMac cfg.staticLeases p.chaddr = 0) (asked : messageType p = some dhcpDiscover)
    (done : s.offerAddress cfg w fuel p = some (addr,time,next)) :
    Moves cfg w p s s next ∧
      (addr = 0 ∨ Chosen cfg w p s addr ∧ (Owner next p.chaddr addr ∨ Vacant w next addr)) := by
  simp only [offerAddress] at done
  cases found : s.findLeaseByChaddr p.chaddr with
  | some i =>
    obtain ⟨slot,present,value,mine⟩ := findLeaseByChaddr_some found
    have chosen : Chosen cfg w p s slot.yiaddr := .held dynamic i found (congrArg _ value)
    simp only [found,leaseExpired,Server.time,value] at done
    split at done
    next late expired =>
      obtain ⟨_,rfl⟩ := mk.inj expired
      cases done
      exact ⟨moves_time cfg w p s s,.inr ⟨chosen,.inl ⟨i,slot,present,mine,rfl⟩⟩⟩
    next late fresh =>
      obtain ⟨_,rfl⟩ := mk.inj fresh
      cases done
      exact ⟨(moves_time cfg w p s s).trans (moves_time cfg w p s _),.inr ⟨chosen,.inl ⟨i,slot,present,mine,rfl⟩⟩⟩
  | none =>
    simp only [found] at done
    obtain ⟨leases,log,later⟩ := requestedAddress_idle cfg w s p
    split at done
    next requested late granted =>
      rw [granted] at leases log later
      cases done
      refine ⟨.single (.idle _ _ leases log later),?_⟩
      by_cases zero : addr = 0
      · exact .inl zero
      · exact .inr ⟨.requested dynamic asked found (by rw [granted]) zero,
          .inr ((requestedAddress_some cfg w unique granted).2.2 zero)⟩
    next late refused =>
      rw [refused] at leases log later
      have first : Moves cfg w p s s late := .single (.idle _ _ leases log later)
      split at done
      · cases done
      next free middle searched =>
        obtain ⟨search,result⟩ := findAddress_moves cfg w p s
          (leases ▸ unique) searched
        split at done
        next nonzero =>
          cases done
          refine ⟨first.trans search,?_⟩
          rcases result with zero | ⟨vacant,scan⟩
          · exact absurd zero nonzero
          · exact .inr ⟨.scanned dynamic asked found (by rw [refused]) scan,.inr vacant⟩
        next zero =>
          split at done
          · cases done
          next old last again =>
            cases done
            obtain ⟨second,result⟩ := findAddress_moves cfg w p s
              (Moves.noSharing (first.trans search) unique) again
            refine ⟨(first.trans search).trans second,?_⟩
            rcases result with zero | ⟨vacant,scan⟩
            · exact .inl zero
            · exact .inr ⟨.scanned dynamic asked found (by rw [refused]) scan,.inr vacant⟩

theorem sendPacket_moves (s origin : Server) (p packet : DhcpMessage) (force : Bool)
    (answer : ∀ t : Server, t.leases = s.leases → Answer cfg w p origin t packet) :
    Moves cfg w p origin s (s.sendPacket cfg w packet force).2 := by
  simp only [sendPacket,Server.time]
  split
  · exact .single (.idle _ _ rfl rfl (le_succ _))
  have first : Move cfg w p origin s { s with sends := s.sends + 1 } := .idle _ _ rfl rfl le_rfl
  exact .tail (.single first) (.send _ packet (route cfg packet force) (answer _ rfl))

theorem sendNAK_moves (s origin : Server) (p : DhcpMessage) : Moves cfg w p origin s (s.sendNAK cfg w p) :=
  sendPacket_moves cfg w s origin p _ true fun _ _ => .refuse (initPacket_type cfg p dhcpNak)

theorem sendInform_moves (s origin : Server) (asked : messageType p = some dhcpInform) :
    Moves cfg w p origin s (s.sendInform cfg w p) :=
  sendPacket_moves cfg w s origin p (informPacket cfg p) false fun _ _ =>
    .inform asked (informPacket_type cfg p) (informPacket_yiaddr cfg p)

theorem sendOffer_moves (unique : NoSharing s.leases) (asked : messageType p = some dhcpDiscover)
    (done : s.sendOffer cfg w fuel p = some next) :
    Moves cfg w p s s next := by
  simp only [sendOffer] at done
  split at done
  next dynamic =>
    split at done
    · cases done
    next addr time late chosen =>
      obtain ⟨moves,reason⟩ := offerAddress_moves cfg w unique dynamic asked chosen
      split at done
      next zero => cases done; exact moves
      next nonzero =>
        obtain ⟨choice,claim⟩ := reason.resolve_left nonzero
        have grant : Move cfg w p s late _ := .grant late addr cfg.offerTime choice (.inr claim)
        split at done
        next full failed =>
          cases done
          rw [failed] at grant
          exact moves.tail grant
        next j full added =>
          cases done
          have entry := addLease_some w (by rw [added])
          rw [added] at grant entry
          refine (moves.tail grant).trans (sendPacket_moves cfg w full s p _ false ?_)
          intro t leases
          refine .grant addr (.inl ⟨asked,grantPacket_type cfg p dhcpOffer addr _,nonzero⟩)
            (grantPacket_chaddr cfg p dhcpOffer addr _)
            (grantPacket_yiaddr cfg p dhcpOffer addr _) choice (.inr ⟨j,⟨p.chaddr,addr,_⟩,leases ▸ entry.1,rfl,rfl⟩)
  next static =>
    cases done
    refine sendPacket_moves cfg w s s p _ false fun t _ => ?_
    exact .grant _ (.inl ⟨asked,grantPacket_type cfg p dhcpOffer _ _,static⟩)
      (grantPacket_chaddr cfg p dhcpOffer _ _)
      (grantPacket_yiaddr cfg p dhcpOffer _ _) (.static rfl static) (.inl static)

theorem sendACK_moves (s : Server) (p : DhcpMessage) (addr : UInt32) (asked : messageType p = some dhcpRequest)
    (chosen : Chosen cfg w p s addr) (owner : getIpByMac cfg.staticLeases p.chaddr ≠ 0 ∨ Owner s p.chaddr addr) :
    Moves cfg w p s s (s.sendACK cfg w p addr) := by
  have sending := sendPacket_moves cfg w s s p (ackPacket cfg p addr) false (by
    intro t leases
    refine .grant addr (.inr ⟨asked,grantPacket_type cfg p dhcpAck addr _⟩) (grantPacket_chaddr cfg p dhcpAck addr _)
      (grantPacket_yiaddr cfg p dhcpAck addr _) chosen ?_
    rcases owner with static | ⟨i,slot,here,mine⟩
    · exact .inl static
    · exact .inr ⟨i,slot,by rw [leases]; exact here,mine⟩)
  have table : (s.sendPacket cfg w (ackPacket cfg p addr) false).2.leases = s.leases := by
    simp only [sendPacket,Server.time]
    split <;> rfl
  simp only [sendACK]
  split
  next late failed => rw [failed] at sending; exact sending
  next late sent =>
    rw [sent] at sending table
    refine sending.tail (.grant late addr _ chosen ?_)
    rcases owner with static | ⟨i,slot,here,mine⟩
    · exact .inl static
    · exact .inr (.inl ⟨i,slot,by rw [table]; exact here,mine⟩)

theorem requestKnown_moves (asked : messageType p = some dhcpRequest) (chosen : Chosen cfg w p s lease.yiaddr)
    (owner : getIpByMac cfg.staticLeases p.chaddr ≠ 0 ∨ Owner s p.chaddr lease.yiaddr) :
    Moves cfg w p s s (s.requestKnown cfg w p lease) := by
  have acknowledge := sendACK_moves cfg w s p lease.yiaddr asked chosen owner
  have refuse := sendNAK_moves cfg w s s p
  simp only [requestKnown]
  split
  · split
    · exact acknowledge
    · exact .refl
  · split
    · split
      · exact acknowledge
      · exact refuse
    · split
      · exact acknowledge
      · exact refuse

theorem requestUnknown_moves (s origin : Server) (p : DhcpMessage) :
    Moves cfg w p origin s (s.requestUnknown cfg w p) := by
  simp only [requestUnknown]
  split
  · exact .refl
  split
  · exact .refl
  next requested _ =>
    split
    next i found =>
      obtain ⟨slot,present,value,same⟩ := findLeaseByYiaddr_some found
      simp only [leaseExpired,value]
      split
      next late expired =>
        obtain ⟨old,rfl⟩ := mk.inj expired
        refine (moves_time cfg w p origin s).tail ?_
        have here : (s.time w).2.slot i = slot := value
        rw [here]
        exact .orphan _ i slot present ⟨s.ticks,lt_succ_self _,of_decide_eq_true old⟩
      next late fresh =>
        obtain ⟨_,rfl⟩ := mk.inj fresh
        exact (moves_time cfg w p origin s).trans (sendNAK_moves cfg w _ origin p)
    · split
      · exact sendNAK_moves cfg w s origin p
      · exact .refl

/-- A write through the pointer `lease` is a write to the sender's own slot. -/
theorem update_moves (found : s.leaseOf cfg p = some ref) (leases : late.leases = s.leases)
    (yiaddr : new.yiaddr = (s.deref ref).yiaddr)
    (chaddr : new.chaddr = (s.deref ref).chaddr ∨ new.chaddr = blankChaddr) :
    Moves cfg w p s late (late.update ref new) := by
  simp only [leaseOf] at found
  split at found
  · cases found
    exact .refl
  obtain ⟨i,present,rfl⟩ := map_eq_some_iff.mp found
  obtain ⟨slot,here,value,mine⟩ := findLeaseByChaddr_some present
  have content : s.deref (.table i) = slot := value
  rw [content] at yiaddr chaddr
  exact .single (.own late i slot new (leases ▸ here) mine yiaddr chaddr)

theorem leaseOf_chosen (found : s.leaseOf cfg p = some ref) :
    Chosen cfg w p s (s.deref ref).yiaddr ∧
    (getIpByMac cfg.staticLeases p.chaddr ≠ 0 ∨ Owner s p.chaddr (s.deref ref).yiaddr) := by
  simp only [leaseOf] at found
  split at found
  next static =>
    cases found
    exact ⟨.static rfl static,.inl static⟩
  next dynamic =>
    obtain ⟨i,present,rfl⟩ := map_eq_some_iff.mp found
    obtain ⟨slot,here,value,mine⟩ := findLeaseByChaddr_some present
    exact ⟨.held (not_not.mp dynamic) i present rfl,.inr ⟨i,slot,here,mine,congrArg DhcpOfferedAddr.yiaddr value.symm⟩⟩

theorem dispatch_moves (fuel : Nat) (s next : Server) (p : DhcpMessage) (type : UInt8) (unique : NoSharing s.leases)
    (asked : messageType p = some type) (done : s.dispatch cfg w fuel p type = some next) : Moves cfg w p s s next := by
  simp only [dispatch] at done
  split at done
  next discover => exact sendOffer_moves cfg w unique (discover ▸ asked) done
  split at done
  next request =>
    split at done
    next ref found =>
      cases done
      obtain ⟨chosen,owner⟩ := leaseOf_chosen cfg w found
      exact requestKnown_moves cfg w (request ▸ asked) chosen owner
    next missing =>
      cases done
      exact requestUnknown_moves cfg w s s p
  split at done
  next declined =>
    split at done
    next ref found =>
      cases done
      exact (moves_time cfg w p s s).trans (update_moves cfg w found rfl
        (by cases ref <;> rfl) (.inr rfl))
    · cases done; exact .refl
  split at done
  next released =>
    split at done
    next ref found =>
      cases done
      exact (moves_time cfg w p s s).trans (update_moves cfg w found rfl
        (by cases ref <;> rfl) (.inl (by cases ref <;> rfl)))
    · cases done; exact .refl
  split at done
  next inform => cases done; exact sendInform_moves cfg w s s (inform ▸ asked)
  · cases done; exact .refl

theorem serve_moves (unique : NoSharing s.leases) (done : s.serve cfg w fuel packet = some next) :
    next = s ∨ ∃ p, udhcpGetPacket cfg.endian packet = some p ∧
      Moves cfg w p (s.receive w p) (s.receive w p) next := by
  simp only [serve] at done
  split at done
  · cases done; exact .inl rfl
  next p accepted =>
    refine .inr ⟨p,accepted,?_⟩
    split at done
    · cases done; exact .refl
    next type asked => exact dispatch_moves cfg w fuel _ next p type unique asked done

end Stablebox.Udhcp
