import Stablebox.Udhcp.Moves

/-! The lease table over whole runs: no two slots ever share an address, and while a
lease has not expired only its owner can change it or be named its address. -/
namespace Stablebox.Udhcp

open DhcpMessage Server Option
open List hiding Vector

def IsGrant (packet : DhcpMessage) : Prop :=
  messageType packet = some dhcpOffer ∨ messageType packet = some dhcpAck

/-- What entered the history between two states. -/
def newEvents (s next : Server) : List Event := next.log.drop s.log.length

variable {cfg : ServerConfig} {w : World}

/-- The clock has not passed the expiry of the slot at any reading so far. -/
def Fresh (w : World) (slot : DhcpOfferedAddr) (s : Server) : Prop :=
  ∀ n < s.ticks, w.clock n ≤ slot.expires.toNat

variable {slot : DhcpOfferedAddr} {s next : Server}

theorem Fresh.earlier (fresh : Fresh w slot next) (later : s.ticks ≤ next.ticks) : Fresh w slot s :=
  fun n bound => fresh n (lt_of_lt_of_le bound later)

variable {i : Nat}

theorem Vacant.apart (vacant : Vacant w s addr) (here : s.leases[i]? = some slot) (fresh : Fresh w slot s) :
    slot.yiaddr ≠ addr := by
  intro same
  obtain ⟨n,bound,expired⟩ := vacant i slot here same
  have := fresh n bound
  omega

theorem Owner.apart {chaddr : Chaddr} (owner : Owner s chaddr addr) (unique : NoSharing s.leases)
    (here : s.leases[i]? = some slot) (nonzero : slot.yiaddr ≠ 0) (other : chaddr ≠ slot.chaddr) :
    slot.yiaddr ≠ addr := by
  intro same
  obtain ⟨j,old,present,mine,address⟩ := owner
  have index := unique.yiaddr i j slot old here present (same.trans address.symm) nonzero
  subst index
  rw [here] at present
  obtain rfl := some.inj present
  exact other mine.symm

variable {p : DhcpMessage}

section

variable (dynamic : getIpByMac cfg.staticLeases p.chaddr = 0) (unique : NoSharing s.leases)
  (here : s.leases[i]? = some slot) (other : p.chaddr ≠ slot.chaddr) (fresh : Fresh w slot next)

include dynamic unique here other fresh

theorem Move.keeps (move : Move cfg w p origin s next) : next.leases[i]? = some slot := by
  have before : Fresh w slot s := fresh.earlier move.ticks
  cases move with
  | idle _ leases => rw [leases]; exact here
  | reserve addr vacant =>
    exact addLease_keeps w _ here (fresh _ (addLease_ticks w s _ addr _)) (.inl rfl)
      (.inr (vacant.apart here before))
  | grant addr lease _ claim =>
    refine addLease_keeps w lease here (fresh _ (addLease_ticks w s _ addr lease))
      (.inr other.symm) ?_
    by_cases zero : addr = 0
    · exact .inl zero
    right
    rcases claim with static | owner | vacant
    · exact absurd dynamic static
    · exact fun same => owner.apart unique here (same ▸ zero) other same
    · exact vacant.apart here before
  | orphan j old present expired =>
    have different : j ≠ i := by
      rintro rfl
      rw [here] at present
      obtain rfl := some.inj present
      obtain ⟨n,bound,age⟩ := expired
      have := before n bound
      omega
    simpa [setSlot,getElem?_set_ne different] using here
  | own j old new present mine _ _ =>
    have different : j ≠ i := by
      rintro rfl
      rw [here] at present
      obtain rfl := some.inj present
      exact other mine.symm
    simpa [setSlot,getElem?_set_ne different] using here
  | send => exact here

theorem Moves.keeps (moves : Moves cfg w p origin s next) : next.leases[i]? = some slot := by
  induction moves with
  | refl => exact here
  | tail moves move ih =>
    exact move.keeps dynamic (Moves.noSharing moves unique) (ih (fresh.earlier move.ticks)) other fresh

end

theorem Move.log (move : Move cfg w p origin s next) :
    next.log = s.log ∨ ∃ packet route, Answer cfg w p origin s packet ∧
      next.ticks = s.ticks + 1 ∧ next.log = s.log ++ [.sent (w.clock s.ticks) packet route] := by
  cases move with
  | idle _ _ log => exact .inl log
  | reserve => exact .inl (addLease_log w _ _ _ _)
  | grant => exact .inl (addLease_log w _ _ _ _)
  | orphan => exact .inl rfl
  | own => exact .inl rfl
  | send packet route answer => exact .inr ⟨packet,route,answer,rfl,rfl⟩

/-- Everything that was sent was sent from a state on the way, at its reading of the clock. -/
theorem Moves.log (moves : Moves cfg w p origin s next) :
    ∃ new, next.log = s.log ++ new ∧ ∀ event ∈ new, ∃ middle packet route,
      Moves cfg w p origin s middle ∧ Answer cfg w p origin middle packet ∧ middle.ticks < next.ticks ∧
      event = .sent (w.clock middle.ticks) packet route := by
  induction moves with
  | refl => exact ⟨[],by simp,by simp⟩
  | @tail middle last moves move ih =>
    obtain ⟨new,log,origins⟩ := ih
    have later := move.ticks
    rcases move.log with same | ⟨packet,route,answer,tick,added⟩
    · refine ⟨new,same.trans log,?_⟩
      intro event member
      obtain ⟨state,packet,route,reach,answer,before,equal⟩ := origins event member
      exact ⟨state,packet,route,reach,answer,by omega,equal⟩
    · refine ⟨new ++ [.sent (w.clock middle.ticks) packet route],by rw [added,log,append_assoc],?_⟩
      intro event member
      rcases mem_append.mp member with member | member
      · obtain ⟨state,packet,route,reach,answer,before,equal⟩ := origins event member
        exact ⟨state,packet,route,reach,answer,by omega,equal⟩
      · exact ⟨middle,packet,route,moves,answer,by omega,mem_singleton.mp member⟩

variable {packet : DhcpMessage}

theorem Answer.apart (answer : Answer cfg w p origin s packet) (grant : IsGrant packet)
    (dynamic : getIpByMac cfg.staticLeases p.chaddr = 0) (unique : NoSharing s.leases)
    (here : s.leases[i]? = some slot) (nonzero : slot.yiaddr ≠ 0) (other : p.chaddr ≠ slot.chaddr) :
    packet.yiaddr cfg.endian ≠ slot.yiaddr := by
  cases answer with
  | refuse type =>
    rcases grant with kind | kind <;> rw [type] at kind <;> exact absurd kind (by decide)
  | inform _ _ nothing => rw [nothing]; exact nonzero.symm
  | grant addr _ _ yiaddr _ owner =>
    rw [yiaddr]
    rcases owner with static | owner
    · exact absurd dynamic static
    · exact (owner.apart unique here nonzero other).symm

theorem receive_log (s : Server) (p : DhcpMessage) :
    (s.receive w p).log = s.log ++ [.received (w.clock s.ticks) p] := rfl

variable (cfg w)

variable {fuel : Nat}

theorem serve_history {s next : Server} (unique : NoSharing s.leases) (done : s.serve cfg w fuel packet = some next) :
    (next = s) ∨ ∃ p new, udhcpGetPacket cfg.endian packet = some p ∧
      Moves cfg w p (s.receive w p) (s.receive w p) next ∧
      next.log = s.log ++ .received (w.clock s.ticks) p :: new ∧
      ∀ event ∈ new, ∃ middle answer route, Moves cfg w p (s.receive w p) (s.receive w p) middle ∧
        Answer cfg w p (s.receive w p) middle answer ∧ middle.ticks < next.ticks ∧
        event = .sent (w.clock middle.ticks) answer route := by
  rcases serve_moves cfg w unique done with same | ⟨p,accepted,moves⟩
  · exact .inl same
  obtain ⟨new,log,origins⟩ := Moves.log moves
  refine .inr ⟨p,new,accepted,moves,?_,origins⟩
  rw [log,receive_log,append_assoc]
  rfl

theorem udhcpGetPacket_chaddr (accepted : udhcpGetPacket e packet = some p) : p.chaddr = packet.chaddr := by
  have offsets := places
  simp only [udhcpGetPacket] at accepted
  split at accepted
  · cases accepted
  split at accepted
  · split at accepted
    · cases accepted; rfl
    split at accepted
    · cases accepted
      apply Vector.ext
      intro i bound
      simp only [DhcpMessage.chaddr,Vector.getElem_ofFn,Memory.store16]
      exact Memory.put_after _ (by rw [Endian.split16_length]; omega)
    · cases accepted; rfl
  · cases accepted; rfl

theorem serve_exclusive {s next : Server} {slot : DhcpOfferedAddr} (unique : NoSharing s.leases)
    (dynamic : cfg.staticLeases = []) (done : s.serve cfg w fuel packet = some next) (here : s.leases[i]? = some slot)
    (other : packet.chaddr ≠ slot.chaddr) :
    (Fresh w slot next → next.leases[i]? = some slot) ∧
    (slot.yiaddr ≠ 0 → ∀ t answer route, .sent t answer route ∈ newEvents s next → t ≤ slot.expires.toNat →
      IsGrant answer → answer.yiaddr cfg.endian ≠ slot.yiaddr) := by
  rcases serve_history cfg w unique done with rfl | ⟨p,new,accepted,moves,log,origins⟩
  · refine ⟨fun _ => here,?_⟩
    intro _ t answer route member
    simp [newEvents] at member
  · have sender := udhcpGetPacket_chaddr accepted
    rw [← sender] at other
    have none : getIpByMac cfg.staticLeases p.chaddr = 0 := by rw [dynamic]; rfl
    refine ⟨fun fresh => Moves.keeps (s := s.receive w p) none unique here other fresh moves,?_⟩
    intro nonzero t answer route member early grant
    simp only [newEvents,log,drop_left,mem_cons,reduceCtorEq,false_or] at member
    obtain ⟨middle,sent,way,reach,reason,_,equal⟩ := origins _ member
    cases equal
    have fresh : Fresh w slot middle := fun n bound =>
      le_trans (w.monotone (le_of_lt bound)) early
    have kept := Moves.keeps (s := s.receive w p) none unique here other fresh reach
    exact reason.apart grant none (Moves.noSharing reach unique) kept nonzero other

theorem writeLeasesLoop_idle (curr : Nat) (slots : List DhcpOfferedAddr) (s : Server) :
    (writeLeasesLoop w cfg curr slots s).2.leases = s.leases ∧
    (writeLeasesLoop w cfg curr slots s).2.log = s.log ∧
    s.ticks ≤ (writeLeasesLoop w cfg curr slots s).2.ticks := by
  have expiry (s : Server) (slot : DhcpOfferedAddr) :
      (savedExpiry w cfg curr s slot).2.leases = s.leases ∧ (savedExpiry w cfg curr s slot).2.log = s.log ∧
      s.ticks ≤ (savedExpiry w cfg curr s slot).2.ticks := by
    simp only [savedExpiry,leaseExpired,Server.time]
    split
    · split
      next late equal => obtain ⟨_,rfl⟩ := Prod.mk.inj equal; exact ⟨rfl,rfl,Nat.le_succ _⟩
      next late equal => obtain ⟨_,rfl⟩ := Prod.mk.inj equal; exact ⟨rfl,rfl,Nat.le_succ _⟩
    · exact ⟨rfl,rfl,le_rfl⟩
  induction slots generalizing s with
  | nil => exact ⟨rfl,rfl,le_rfl⟩
  | cons slot rest ih =>
    simp only [writeLeasesLoop]
    split
    · obtain ⟨leases,log,later⟩ := expiry s slot
      obtain ⟨leases2,log2,later2⟩ := ih (savedExpiry w cfg curr s slot).2
      exact ⟨leases2.trans leases,log2.trans log,le_trans later later2⟩
    · exact ih s

theorem writeLeases_idle (s : Server) :
    (s.writeLeases w cfg).2.leases = s.leases ∧ (s.writeLeases w cfg).2.log = s.log ∧
    s.ticks ≤ (s.writeLeases w cfg).2.ticks := by
  obtain ⟨leases,log,later⟩ := writeLeasesLoop_idle cfg w (s.time w).1 (s.time w).2.leases (s.time w).2
  exact ⟨leases,log,le_trans (Nat.le_succ _) later⟩

theorem readLease_eq (s : Server) (lease : DhcpOfferedAddr) :
    ∃ (late : Server) (time : Nat), late.leases = s.leases ∧ late.log = s.log ∧ s.ticks ≤ late.ticks ∧
      s.readLease w cfg lease = late.addLease w lease.chaddr lease.yiaddr time := by
  simp only [readLease]
  split
  · exact ⟨s,_,rfl,rfl,le_rfl,rfl⟩
  · exact ⟨(s.time w).2,_,rfl,rfl,Nat.le_succ _,rfl⟩

variable {cfg w}

theorem act_cases (unique : NoSharing s.leases) (done : s.act cfg w fuel action = some next) :
    (next.leases = s.leases ∧ next.log = s.log ∧ s.ticks ≤ next.ticks) ∨
    (∃ lease, ∃ late : Server, ∃ time, action = .record lease ∧ acceptsRecord cfg lease ∧ late.leases = s.leases ∧
      late.log = s.log ∧ s.ticks ≤ late.ticks ∧ next = (late.addLease w lease.chaddr lease.yiaddr time).2) ∨
    ∃ packet p, action = .message packet ∧ udhcpGetPacket cfg.endian packet = some p ∧
      Moves cfg w p (s.receive w p) (s.receive w p) next := by
  cases action with
  | record lease =>
    simp only [act,some.injEq] at done
    subst done
    split
    next accepted =>
      obtain ⟨late,time,leases,log,later,equal⟩ := readLease_eq cfg w s lease
      exact .inr (.inl ⟨lease,late,time,rfl,accepted,leases,log,later,by rw [equal]⟩)
    · exact .inl ⟨rfl,rfl,le_rfl⟩
  | message packet =>
    rcases serve_moves cfg w unique done with rfl | ⟨p,accepted,moves⟩
    · exact .inl ⟨rfl,rfl,le_rfl⟩
    · exact .inr (.inr ⟨packet,p,rfl,accepted,moves⟩)
  | save =>
    simp only [act,some.injEq] at done
    subst done
    exact .inl (writeLeases_idle cfg w s)

theorem act_noSharing (unique : NoSharing s.leases) (done : s.act cfg w fuel action = some next) :
    NoSharing next.leases := by
  rcases act_cases unique done with ⟨leases,_⟩ | ⟨_,_,_,_,_,leases,_,_,rfl⟩ | ⟨_,_,_,_,moves⟩
  · exact leases ▸ unique
  · exact addLease_noSharing w _ _ _ (leases ▸ unique)
  · exact Moves.noSharing moves unique

variable (cfg w)

theorem run_noSharing (reached : run cfg w fuel actions (initial cfg) = some s) : NoSharing s.leases :=
  runActions_invariant (act cfg w fuel) (fun s => NoSharing s.leases)
    (fun _ _ _ unique done => act_noSharing unique done)
    actions (initial cfg) s (noSharing_zero _) reached

/-- A message from anybody else leaves every unexpired lease and its address alone. -/
def OthersApart (fuel : Nat) (s : Server) : Prop :=
  ∀ (packet : DhcpMessage) (next : Server) (i : Nat) (slot : DhcpOfferedAddr),
    s.serve cfg w fuel packet = some next → s.leases[i]? = some slot →
    slot.chaddr ≠ blankChaddr → packet.chaddr ≠ slot.chaddr →
    (∀ n < next.ticks, w.clock n ≤ slot.expires.toNat) →
    next.leases[i]? = some slot ∧
    (slot.yiaddr ≠ 0 → ∀ t answer route, .sent t answer route ∈ newEvents s next → IsGrant answer →
      answer.yiaddr cfg.endian ≠ slot.yiaddr)

theorem others_apart {s : Server} (unique : NoSharing s.leases) (dynamic : cfg.staticLeases = []) :
    OthersApart cfg w fuel s := by
  intro packet next i slot done here _ other fresh
  obtain ⟨kept,quiet⟩ := serve_exclusive cfg w unique dynamic done here other
  refine ⟨kept fresh,?_⟩
  intro nonzero t answer route member grant
  rcases serve_history cfg w unique done with rfl | ⟨p,new,_,_,log,origins⟩
  · simp [newEvents] at member
  have sent := member
  simp only [newEvents,log,drop_left,mem_cons,reduceCtorEq,false_or] at sent
  obtain ⟨middle,_,_,_,_,before,equal⟩ := origins _ sent
  cases equal
  exact quiet nonzero _ answer route member (fresh _ before) grant

/-- In every reachable state the table is free of sharing, and without static leases a
message from anybody else leaves an unexpired lease and its address alone. -/
theorem reachable_exclusive (fuel : Nat) (actions : List Action) (s : Server)
    (reached : run cfg w fuel actions (initial cfg) = some s) :
    NoSharing s.leases ∧
    (cfg.staticLeases = [] → ∀ (packet : DhcpMessage) (next : Server) (i : Nat) (slot : DhcpOfferedAddr),
      s.serve cfg w fuel packet = some next → s.leases[i]? = some slot →
      slot.chaddr ≠ blankChaddr → packet.chaddr ≠ slot.chaddr →
      (∀ n < next.ticks, w.clock n ≤ slot.expires.toNat) →
      next.leases[i]? = some slot ∧
      (slot.yiaddr ≠ 0 → ∀ t answer route, .sent t answer route ∈ newEvents s next → IsGrant answer →
        answer.yiaddr cfg.endian ≠ slot.yiaddr)) := by
  have unique := run_noSharing cfg w reached
  exact ⟨unique,others_apart cfg w unique⟩

/-- So it is after a restart, whatever the lease file holds. -/
theorem restart_exclusive (fuel : Nat) (file : List UInt8) (actions : List Action) (s : Server)
    (reached : run cfg w fuel actions ((initial cfg).readLeases w cfg file) = some s) :
    NoSharing s.leases ∧ (cfg.staticLeases = [] → OthersApart cfg w fuel s) := by
  obtain ⟨read,_,loaded⟩ := readLeases_run cfg w fuel (initial cfg) file
  have whole : run cfg w fuel (read.map .record ++ actions) (initial cfg) = some s := by
    rw [run,runActions_append,bind_eq_some_iff]
    exact ⟨_,loaded,reached⟩
  have unique := run_noSharing cfg w whole
  exact ⟨unique,others_apart cfg w unique⟩

def craft (e : Endian) (chaddr : Chaddr) (ciaddr : UInt32) (options : List UInt8) : DhcpMessage :=
  let p : DhcpMessage := fun _ => 0
  let p := p.put 0 [bootRequest,1,6]
  let p := p.store32 e ciaddrAt ciaddr
  let p := p.put chaddrAt chaddr.toList
  let p := p.store32 e cookieAt (htonl e dhcpMagic)
  p.put optionsAt options

def sampleConfig : ServerConfig where
  endian := .little
  server := 0x0100a8c0
  start := 0x1400a8c0
  finish := 0xfe00a8c0
  options := []
  lease := 864000
  maxLeases := 2
  remaining := true
  declineTime := 3600
  conflictTime := 3600
  offerTime := 60
  minLease := 60
  siaddr := 0
  sname := none
  bootFile := none
  staticLeases := []

def sampleClient (k : UInt8) : Chaddr := (Vector.replicate 16 0).set 5 k

/-- A network on which no probe is answered, and a clock that jumps at one reading. -/
def sampleWorld (turn early late : Nat) (order : early ≤ late) : World where
  clock := fun n => if n < turn then early else late
  monotone := by
    intro a b le
    dsimp only
    split <;> split <;> omega
  arpping := fun _ => 1
  delivery := fun _ => 576

theorem sampleWorld_clock (turn early late : Nat) (order : early ≤ late) (n : Nat) :
    (sampleWorld turn early late order).clock n ≤ late := by
  simp only [sampleWorld]
  split <;> omega

def sampleMessage (k : UInt8) (options : List UInt8) : DhcpMessage :=
  craft .little (sampleClient k) 0 options

def sampleDiscover : List UInt8 := [53,1,1,255]

def sampleDiscoverAsking : List UInt8 := [53,1,1,50,4,192,168,0,20,255]

def sampleSelect : List UInt8 := [53,1,3,50,4,192,168,0,20,54,4,192,168,0,1,255]

/-- A client takes a lease, and another one comes: the lease and its address stay apart. -/
theorem reachable_exclusive_sample : ∃ s next,
    run sampleConfig (sampleWorld 0 1000 1000 (by decide)) 300
      [.message (sampleMessage 7 sampleDiscover),.message (sampleMessage 7 sampleSelect)]
      (initial sampleConfig) = some s ∧
    s.serve sampleConfig (sampleWorld 0 1000 1000 (by decide)) 300 (sampleMessage 8 sampleDiscoverAsking) =
      some next ∧
    NoSharing s.leases ∧ next.leases[0]? = some ⟨sampleClient 7,0x1400a8c0,865000⟩ ∧
    ∀ t answer route, .sent t answer route ∈ newEvents s next → IsGrant answer →
      answer.yiaddr .little ≠ 0x1400a8c0 := by
  let w := sampleWorld 0 1000 1000 (by decide)
  let actions : List Action :=
    [.message (sampleMessage 7 sampleDiscover),.message (sampleMessage 7 sampleSelect)]
  let s := (run sampleConfig w 300 actions (initial sampleConfig)).get (by decide +kernel)
  let next := (s.serve sampleConfig w 300 (sampleMessage 8 sampleDiscoverAsking)).get (by decide +kernel)
  obtain ⟨unique,exclusive⟩ := reachable_exclusive sampleConfig w 300 actions s (some_get _).symm
  obtain ⟨kept,quiet⟩ := exclusive rfl (sampleMessage 8 sampleDiscoverAsking) next 0
    ⟨sampleClient 7,0x1400a8c0,865000⟩ (some_get _).symm (by decide +kernel) (by decide +kernel)
    (by decide +kernel) (fun n _ => le_trans (sampleWorld_clock 0 1000 1000 (by decide) n) (by decide))
  exact ⟨s,next,(some_get _).symm,(some_get _).symm,unique,kept,quiet (by decide)⟩

/-- A damaged file: two clients with one address, and the beginning of a record. -/
def sampleFile : List UInt8 :=
  (DhcpOfferedAddr.mk (sampleClient 7) 0x1400a8c0 (htonl .little 500)).image .little ++
    (DhcpOfferedAddr.mk (sampleClient 8) 0x1400a8c0 (htonl .little 700)).image .little ++ [1,2,3]

theorem restart_exclusive_damaged : ∃ s next,
    run sampleConfig (sampleWorld 0 1000 1000 (by decide)) 300 [.message (sampleMessage 7 sampleDiscover)]
      ((initial sampleConfig).readLeases (sampleWorld 0 1000 1000 (by decide)) sampleConfig sampleFile) = some s ∧
    s.serve sampleConfig (sampleWorld 0 1000 1000 (by decide)) 300 (sampleMessage 9 sampleDiscoverAsking) =
      some next ∧
    NoSharing s.leases ∧ next.leases[0]? = some ⟨sampleClient 8,0x1400a8c0,1700⟩ ∧
    ∀ t answer route, .sent t answer route ∈ newEvents s next → IsGrant answer →
      answer.yiaddr .little ≠ 0x1400a8c0 := by
  let w := sampleWorld 0 1000 1000 (by decide)
  let actions : List Action := [.message (sampleMessage 7 sampleDiscover)]
  let s := (run sampleConfig w 300 actions ((initial sampleConfig).readLeases w sampleConfig sampleFile)).get
    (by decide +kernel)
  let next := (s.serve sampleConfig w 300 (sampleMessage 9 sampleDiscoverAsking)).get (by decide +kernel)
  obtain ⟨unique,exclusive⟩ := restart_exclusive sampleConfig w 300 sampleFile actions s (some_get _).symm
  obtain ⟨kept,quiet⟩ := exclusive rfl (sampleMessage 9 sampleDiscoverAsking) next 0
    ⟨sampleClient 8,0x1400a8c0,1700⟩ (some_get _).symm (by decide +kernel) (by decide +kernel)
    (by decide +kernel) (fun n _ => le_trans (sampleWorld_clock 0 1000 1000 (by decide) n) (by decide))
  exact ⟨s,next,(some_get _).symm,(some_get _).symm,unique,kept,quiet (by decide)⟩

/-- A pool that begins at 0.0.0.0 admits a record without an address, and the ACK of an
INFORM names that very address to another client. -/
theorem zero_address_is_shared : ∃ s next,
    run { sampleConfig with start := 0 } (sampleWorld 0 1000 1000 (by decide)) 300
      [.record ⟨sampleClient 7,0,htonl .little 500⟩] (initial { sampleConfig with start := 0 }) = some s ∧
    s.serve { sampleConfig with start := 0 } (sampleWorld 0 1000 1000 (by decide)) 300
      (sampleMessage 8 [53,1,8,255]) = some next ∧
    s.leases[0]? = some ⟨sampleClient 7,0,1500⟩ ∧ sampleClient 7 ≠ blankChaddr ∧
    (sampleMessage 8 [53,1,8,255]).chaddr ≠ sampleClient 7 ∧
    (∀ n, (sampleWorld 0 1000 1000 (by decide)).clock n = 1000) ∧
    ∃ t answer route, .sent t answer route ∈ newEvents s next ∧ IsGrant answer ∧
      answer.yiaddr .little = 0 := by
  let cfg := { sampleConfig with start := 0 }
  let w := sampleWorld 0 1000 1000 (by decide)
  let s := (run cfg w 300 [.record ⟨sampleClient 7,0,htonl .little 500⟩] (initial cfg)).get (by decide +kernel)
  let next := (s.serve cfg w 300 (sampleMessage 8 [53,1,8,255])).get (by decide +kernel)
  have seen : .sent 1000 (some dhcpAck) (sampleClient 8) 0 none ∈
      (newEvents s next).map (observe .little) := by decide +kernel
  obtain ⟨answer,route,member,type,_,address,_⟩ := observed_sent seen
  exact ⟨s,next,(some_get _).symm,(some_get _).symm,by decide +kernel,by decide +kernel,
    by decide +kernel,fun n => rfl,1000,answer,route,member,.inr type,address⟩

end Stablebox.Udhcp
