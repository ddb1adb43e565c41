import Stablebox.Udhcp.Exclusive

/-! Which addresses the server names to a client: what the table may hold and what each
step may add, so that reserved addresses and addresses outside the pool stay out. -/
namespace Stablebox.Udhcp

open DhcpMessage Server List Option

section

variable (cfg : ServerConfig) (w : World)

/-- The client asks for an address of the pool that is free or whose lease has expired. -/
def Requestable (s : Server) (p : DhcpMessage) (addr : UInt32) : Prop :=
  (getOption p dhcpRequestedIp).map (p.load32 cfg.endian) = some addr ∧
  ntohl cfg.endian cfg.start ≤ ntohl cfg.endian addr ∧
  ntohl cfg.endian addr ≤ ntohl cfg.endian cfg.finish ∧
  ∀ i, s.findLeaseByYiaddr addr = some i → (s.slot i).expires.toNat < w.clock s.ticks

theorem requestedAddress_eq_some (s : Server) (p : DhcpMessage) (addr : UInt32) :
    (s.requestedAddress cfg w p).1 = some addr ↔ Requestable cfg w s p addr := by
  simp only [requestedAddress,Requestable,leaseExpired,Server.time]
  cases getOption p dhcpRequestedIp with
  | none => simp
  | some req =>
    simp only [map_some,Option.some.injEq]
    split
    next range =>
      split
      next missing =>
        refine ⟨?_,fun asked => congrArg some asked.1⟩
        intro same
        obtain rfl := some.inj same
        refine ⟨rfl,range.1,range.2,?_⟩
        intro i found
        cases missing.symm.trans found
      next i found =>
        split
        next late expired =>
          refine ⟨?_,fun asked => congrArg some asked.1⟩
          intro same
          obtain rfl := some.inj same
          refine ⟨rfl,range.1,range.2,?_⟩
          intro j again
          obtain rfl := mem_unique found again
          exact of_decide_eq_true (Prod.mk.inj expired).1
        next late fresh =>
          refine ⟨fun never => (by cases never),?_⟩
          rintro ⟨rfl,_,_,expired⟩
          exact absurd (expired i found) (of_decide_eq_false (Prod.mk.inj fresh).1)
    next outside =>
      refine ⟨fun never => (by cases never),?_⟩
      rintro ⟨rfl,low,high,_⟩
      exact absurd ⟨low,high⟩ outside

variable (allowed : Chaddr → UInt32 → Prop)

/-- A step that gives no client an address it is not allowed: a record belongs to
nobody, to a client with a static lease, or is allowed; a client without a hardware
address does not come upon a slot it is not allowed; neither the address a client asks
for nor those of a scan are forbidden to it. -/
def Admits (s : Server) : Action → Prop
  | .save => True
  | .record lease => acceptsRecord cfg lease = true → lease.chaddr = blankChaddr ∨
      getIpByMac cfg.staticLeases lease.chaddr ≠ 0 ∨ allowed lease.chaddr lease.yiaddr
  | .message packet => ∀ p, udhcpGetPacket cfg.endian packet = some p →
      getIpByMac cfg.staticLeases p.chaddr = 0 →
      (∀ i, s.findLeaseByChaddr p.chaddr = some i → p.chaddr = blankChaddr →
        (messageType p = some dhcpDiscover → (s.slot i).yiaddr = 0 ∨ allowed p.chaddr (s.slot i).yiaddr) ∧
        (messageType p = some dhcpRequest → allowed p.chaddr (s.slot i).yiaddr)) ∧
      (messageType p = some dhcpDiscover → s.findLeaseByChaddr p.chaddr = none →
        (∀ addr, addr ≠ 0 → Requestable cfg w (s.receive w p) p addr → allowed p.chaddr addr) ∧
        ((∀ addr, ¬ Requestable cfg w (s.receive w p) p addr) →
          ∀ addr, Scanned cfg addr → allowed p.chaddr addr))

/-- Every step of a run, in the state it starts from, meets a condition. -/
def Throughout (fuel : Nat) (actions : List Action) (condition : Server → Action → Prop) : Prop :=
  ∀ before action after s, actions = before ++ action :: after →
    run cfg w fuel before (initial cfg) = some s → condition s action

/-- The answers to a DISCOVER or a REQUEST name only allowed addresses. -/
def Names (s next : Server) (packet : DhcpMessage) : Prop :=
  ∀ p, udhcpGetPacket cfg.endian packet = some p →
    messageType p = some dhcpDiscover ∨ messageType p = some dhcpRequest →
    ∀ t answer route, .sent t answer route ∈ newEvents s next → IsGrant answer →
      allowed p.chaddr (answer.yiaddr cfg.endian)

/-- A slot is nobody's, or it belongs to a client with a static lease, or it is allowed. -/
def Held (s : Server) : Prop :=
  ∀ slot ∈ s.leases, slot.chaddr = blankChaddr ∨ getIpByMac cfg.staticLeases slot.chaddr ≠ 0 ∨
    allowed slot.chaddr slot.yiaddr

end

section

variable {cfg : ServerConfig} {w : World} {allowed : Chaddr → UInt32 → Prop}

variable {p : DhcpMessage} {s : Server}

section

variable {next : Server}
  (choices : ∀ addr, Chosen cfg w p origin addr → p.chaddr = blankChaddr ∨ getIpByMac cfg.staticLeases p.chaddr ≠ 0 ∨
    allowed p.chaddr addr)
  (holds : Held cfg allowed s)

include choices holds

theorem Move.held (move : Move cfg w p origin s next) : Held cfg allowed next := by
  cases move with
  | idle _ leases => rw [Held,leases]; exact holds
  | reserve addr => exact addLease_all w (.inl rfl) (fun _ => .inl rfl) holds
  | grant addr lease chosen =>
    exact addLease_all w (.inl rfl) (fun _ => choices addr chosen) holds
  | orphan i slot here =>
    intro other member
    rcases mem_or_eq_of_mem_set member with member | rfl
    · exact holds other member
    · exact .inl rfl
  | own i slot new here mine yiaddr chaddr =>
    intro other member
    rcases mem_or_eq_of_mem_set member with member | rfl
    · exact holds other member
    rcases chaddr with keep | blank
    · rw [keep,yiaddr]
      exact holds slot (mem_of_getElem? here)
    · exact .inl blank
  | send => exact holds

theorem Moves.held (moves : Moves cfg w p origin s next) : Held cfg allowed next := by
  induction moves with
  | refl => exact holds
  | tail _ move ih => exact move.held choices ih

end

/-- What an admitted message may choose for its sender. An address that a client without
a hardware address finds in the table need not be allowed unless it is used. -/
theorem Chosen.admitted (chosen : Chosen cfg w p (s.receive w p) addr)
    (accepted : udhcpGetPacket cfg.endian packet = some p) (admits : Admits cfg w allowed s (.message packet))
    (held : Held cfg allowed s)
    (static : ∀ c, getIpByMac cfg.staticLeases c ≠ 0 → allowed c (getIpByMac cfg.staticLeases c)) :
    allowed p.chaddr addr ∨ p.chaddr = blankChaddr ∧ getIpByMac cfg.staticLeases p.chaddr = 0 ∧
      ∃ i, s.findLeaseByChaddr p.chaddr = some i ∧ (s.slot i).yiaddr = addr := by
  cases chosen with
  | static own nonzero =>
    subst own
    exact .inl (static p.chaddr nonzero)
  | held dynamic i found same =>
    obtain ⟨slot,here,value,mine⟩ := findLeaseByChaddr_some found
    have content : slot.yiaddr = addr := by rw [← value]; exact same
    rcases held slot (mem_of_getElem? here) with blank | owned | fine
    · exact .inr ⟨mine ▸ blank,dynamic,i,found,same⟩
    · rw [mine] at owned
      exact absurd dynamic owned
    · rw [mine,content] at fine
      exact .inl fine
  | requested dynamic discover unknown asked nonzero =>
    obtain ⟨_,fresh⟩ := admits p accepted dynamic
    exact .inl ((fresh discover unknown).1 addr nonzero ((requestedAddress_eq_some cfg w _ p addr).mp asked))
  | scanned dynamic discover unknown refused scan =>
    obtain ⟨_,fresh⟩ := admits p accepted dynamic
    refine .inl ((fresh discover unknown).2 ?_ addr scan)
    intro other asked
    rw [← requestedAddress_eq_some,refused] at asked
    cases asked

end

variable (cfg : ServerConfig) (w : World) (allowed : Chaddr → UInt32 → Prop)

section

variable {next : Server} (static : ∀ c, getIpByMac cfg.staticLeases c ≠ 0 → allowed c (getIpByMac cfg.staticLeases c))

include static

theorem act_held (unique : NoSharing s.leases) (held : Held cfg allowed s) (admits : Admits cfg w allowed s action)
    (done : s.act cfg w fuel action = some next) : Held cfg allowed next := by
  rcases act_cases unique done with ⟨leases,_⟩ | ⟨_,_,_,rfl,accepted,leases,_,_,rfl⟩ | ⟨_,_,rfl,accepted,moves⟩
  · rw [Held,leases]
    exact held
  · exact addLease_all w (.inl rfl) (fun _ => admits accepted) (leases ▸ held)
  refine Moves.held (s := s.receive w _) ?_ held moves
  intro addr chosen
  rcases chosen.admitted accepted admits held static with fine | ⟨blank,_⟩
  · exact .inr (.inr fine)
  · exact .inl blank

theorem serve_names (unique : NoSharing s.leases) (held : Held cfg allowed s)
    (admits : Admits cfg w allowed s (.message packet)) (done : s.serve cfg w fuel packet = some next) :
    Names cfg allowed s next packet := by
  intro p accepted asked t answer route member grant
  rcases serve_history cfg w unique done with rfl | ⟨q,new,same,_,log,origins⟩
  · simp [newEvents] at member
  obtain rfl := mem_unique accepted same
  simp only [newEvents,log,drop_left,mem_cons,reduceCtorEq,false_or] at member
  obtain ⟨middle,sent,way,_,reason,_,equal⟩ := origins _ member
  cases equal
  cases reason with
  | refuse type =>
    rcases grant with kind | kind <;> rw [type] at kind <;> exact absurd kind (by decide)
  | inform informed =>
    rcases asked with kind | kind <;> rw [informed] at kind <;> exact absurd kind (by decide)
  | grant addr type _ yiaddr chosen =>
    rw [yiaddr]
    rcases chosen.admitted accepted admits held static with fine | ⟨blank,dynamic,i,found,rfl⟩
    · exact fine
    obtain ⟨meets,_⟩ := admits p accepted dynamic
    obtain ⟨offers,acks⟩ := meets i found blank
    rcases type with ⟨discover,_,nonzero⟩ | ⟨request,_⟩
    · exact (offers discover).resolve_left nonzero
    · exact acks request

theorem run_names (admitted : Throughout cfg w fuel actions (Admits cfg w allowed)) {before after : List Action}
    (split : actions = before ++ .message packet :: after) (reached : run cfg w fuel before (initial cfg) = some s)
    (done : s.serve cfg w fuel packet = some next) :
    Names cfg allowed s next packet := by
  have invariant : NoSharing s.leases ∧ Held cfg allowed s := by
    refine runActions_invariant_of (act cfg w fuel) (fun s => NoSharing s.leases ∧ Held cfg allowed s)
      (Admits cfg w allowed) ?_ before (initial cfg) s ⟨noSharing_zero _,?_⟩ ?_ reached
    · rintro s action next ⟨unique,held⟩ admits stepped
      exact ⟨act_noSharing unique stepped,act_held cfg w allowed static unique held admits stepped⟩
    · intro slot member
      obtain rfl := eq_of_mem_replicate member
      exact .inl rfl
    · intro first action rest middle inner ran
      exact admitted first action (rest ++ .message packet :: after) middle (by simp [split,inner]) ran
  exact serve_names cfg w allowed static invariant.1 invariant.2
    (admitted before _ after s split reached) done

end

theorem throughout_single (fuel : Nat) (meets : condition (initial cfg) action) :
    Throughout cfg w fuel [action] condition := by
  intro before other after s split reached
  cases before with
  | nil =>
    obtain ⟨rfl,rfl⟩ := List.cons.inj split
    cases reached
    exact meets
  | cons head rest => simp at split

theorem not_names (s next : Server) (packet : DhcpMessage) (t : Nat) (type : UInt8) (c : Chaddr) (ip : UInt32)
    (lease : Option UInt32)
    (asked : (udhcpGetPacket cfg.endian packet).any fun p =>
      messageType p = some dhcpDiscover ∨ messageType p = some dhcpRequest)
    (seen : .sent t (some type) c ip lease ∈ (newEvents s next).map (observe cfg.endian))
    (grant : type = dhcpOffer ∨ type = dhcpAck) (forbidden : ¬ allowed packet.chaddr ip) :
    ¬ Names cfg allowed s next packet := by
  intro names
  obtain ⟨p,accepted,kind⟩ := (any_eq_true _ _).mp asked
  obtain ⟨answer,route,member,sort,_,rfl,_⟩ := observed_sent seen
  have granted : IsGrant answer := by
    rw [IsGrant,sort]
    exact grant.imp (congrArg some) (congrArg some)
  have fine := names p accepted (of_decide_eq_true kind) t answer route member granted
  rw [udhcpGetPacket_chaddr accepted] at fine
  exact forbidden fine

/-! Static reservations. -/

theorem reservedIp_eq_true (list : List StaticLease) (ip : UInt32) :
    reservedIp list ip = true ↔ ∃ lease ∈ list, lease.ip = ip := by
  have scan (found : Bool) : list.foldl (fun found cur => if cur.ip = ip then true else found) found = true ↔
      found = true ∨ ∃ lease ∈ list, lease.ip = ip := by
    induction list generalizing found with
    | nil => simp
    | cons cur rest ih =>
      rw [foldl_cons,ih]
      by_cases same : cur.ip = ip <;> simp [same]
  rw [reservedIp,scan]
  simp

/-- A client without a static lease is not given what is reserved for another one. -/
def Unreserved (c : Chaddr) (addr : UInt32) : Prop :=
  getIpByMac cfg.staticLeases c = 0 → ∀ lease ∈ cfg.staticLeases, lease.mac ≠ macOf c → lease.ip ≠ addr

theorem Scanned.unreserved (c : Chaddr) (addr : UInt32) (scan : Scanned cfg addr) : Unreserved cfg c addr := by
  obtain ⟨_,_,_,_,free,_⟩ := scan
  intro _ lease member _ same
  rw [(reservedIp_eq_true _ _).mpr ⟨lease,member,same⟩] at free
  cases free

/-- A step that does not depend on a check the code leaves out: the lease file gives no
client an address that is reserved for another one, no client asks for such an address
while it is free, and none without a hardware address comes upon it in the table. -/
def SparesReserved (s : Server) : Action → Prop
  | .save => True
  | .record lease => acceptsRecord cfg lease = true →
      lease.chaddr = blankChaddr ∨ Unreserved cfg lease.chaddr lease.yiaddr
  | .message packet => ∀ p, udhcpGetPacket cfg.endian packet = some p →
      (∀ i, s.findLeaseByChaddr p.chaddr = some i → p.chaddr = blankChaddr →
        (messageType p = some dhcpDiscover →
          (s.slot i).yiaddr = 0 ∨ Unreserved cfg p.chaddr (s.slot i).yiaddr) ∧
        (messageType p = some dhcpRequest → Unreserved cfg p.chaddr (s.slot i).yiaddr)) ∧
      (messageType p = some dhcpDiscover → s.findLeaseByChaddr p.chaddr = none →
        ∀ addr, addr ≠ 0 → Requestable cfg w (s.receive w p) p addr → Unreserved cfg p.chaddr addr)

theorem SparesReserved.admits (s : Server) (action : Action) (spares : SparesReserved cfg w s action) :
    Admits cfg w (Unreserved cfg) s action := by
  cases action with
  | record lease => exact fun accepted => (spares accepted).imp_right .inr
  | message packet =>
    intro p accepted _
    obtain ⟨table,asked⟩ := spares p accepted
    refine ⟨table,fun discover unknown => ⟨asked discover unknown,?_⟩⟩
    exact fun _ addr scan => scan.unreserved cfg p.chaddr addr
  | save => trivial

/-- Reservations hold in every run all of whose steps spare the reserved addresses. -/
theorem reservations_kept (fuel : Nat) (actions : List Action)
    (spares : Throughout cfg w fuel actions (SparesReserved cfg w)) (before after : List Action)
    (packet : DhcpMessage) (s next : Server) (split : actions = before ++ .message packet :: after)
    (reached : run cfg w fuel before (initial cfg) = some s) (done : s.serve cfg w fuel packet = some next) :
    Names cfg (Unreserved cfg) s next packet := by
  refine run_names cfg w (Unreserved cfg) (fun _ static dynamic => absurd dynamic static) ?_ split reached done
  exact fun first action rest middle inner ran =>
    SparesReserved.admits cfg w middle action (spares first action rest middle inner ran)

def reservingConfig : ServerConfig :=
  { sampleConfig with staticLeases := [⟨macOf (sampleClient 9),0x1400a8c0⟩] }

/-- A client that asks for nothing in particular is not offered the reserved address. -/
theorem reservations_kept_sample : ∃ next,
    (initial reservingConfig).serve reservingConfig (sampleWorld 0 1000 1000 (by decide)) 300
      (sampleMessage 7 sampleDiscover) = some next ∧
    .sent 1000 (some dhcpOffer) (sampleClient 7) 0x1500a8c0 (some 864000) ∈ next.history .little ∧
    Names reservingConfig (Unreserved reservingConfig) (initial reservingConfig) next
      (sampleMessage 7 sampleDiscover) := by
  let w := sampleWorld 0 1000 1000 (by decide)
  let next := ((initial reservingConfig).serve reservingConfig w 300 (sampleMessage 7 sampleDiscover)).get
    (by decide +kernel)
  have nothing : (udhcpGetPacket .little (sampleMessage 7 sampleDiscover)).all fun p =>
      getOption p dhcpRequestedIp = none := by decide +kernel
  have unknown : (initial reservingConfig).findLeaseByChaddr (sampleMessage 7 sampleDiscover).chaddr = none := by
    decide +kernel
  have spares : SparesReserved reservingConfig w (initial reservingConfig)
      (.message (sampleMessage 7 sampleDiscover)) := by
    intro p accepted
    rw [show reservingConfig.endian = .little from rfl] at accepted
    rw [accepted] at nothing
    rw [← udhcpGetPacket_chaddr accepted] at unknown
    refine ⟨fun i found => (nomatch (unknown.symm.trans found)),?_⟩
    intro _ _ addr _ asked
    rw [Requestable,of_decide_eq_true nothing] at asked
    cases asked.1
  refine ⟨next,(some_get _).symm,by decide +kernel,?_⟩
  exact reservations_kept reservingConfig w 300 _ (throughout_single reservingConfig w 300 spares) [] []
    _ (initial reservingConfig) next rfl rfl (some_get _).symm

/-- A client without a static lease asks for the reserved address and is offered it. -/
theorem reserved_address_offered : ∃ next,
    (initial reservingConfig).serve reservingConfig (sampleWorld 0 1000 1000 (by decide)) 300
      (sampleMessage 7 sampleDiscoverAsking) = some next ∧
    ¬ Names reservingConfig (Unreserved reservingConfig) (initial reservingConfig) next
      (sampleMessage 7 sampleDiscoverAsking) := by
  let next := ((initial reservingConfig).serve reservingConfig (sampleWorld 0 1000 1000 (by decide)) 300
    (sampleMessage 7 sampleDiscoverAsking)).get (by decide +kernel)
  refine ⟨next,(some_get _).symm,?_⟩
  refine not_names reservingConfig _ _ next _ 1000 dhcpOffer (sampleClient 7) 0x1400a8c0 (some 864000)
    (by decide +kernel) (by decide +kernel) (.inl rfl) ?_
  intro unreserved
  exact unreserved (by decide +kernel) ⟨macOf (sampleClient 9),0x1400a8c0⟩ (by decide +kernel)
    (by decide +kernel) rfl

/-! The pool. -/

def Pooled (c : Chaddr) (addr : UInt32) : Prop :=
  addr ≠ 0 ∧ (addr = getIpByMac cfg.staticLeases c ∨
    ntohl cfg.endian cfg.start ≤ ntohl cfg.endian addr ∧ ntohl cfg.endian addr ≤ ntohl cfg.endian cfg.finish)

theorem requestable_pooled (c : Chaddr) (nonzero : addr ≠ 0) (asked : Requestable cfg w s p addr) : Pooled cfg c addr :=
  ⟨nonzero,.inr ⟨asked.2.1,asked.2.2.1⟩⟩

theorem Scanned.pooled (c : Chaddr) (addr : UInt32) (scan : Scanned cfg addr)
    (inside : ntohl cfg.endian cfg.finish ≠ 0xffffffff) : Pooled cfg c addr := by
  have nonzero := scan.nonzero
  obtain ⟨host,rfl,high,_,_,low⟩ := scan
  rw [Pooled,ntohl_htonl]
  exact ⟨nonzero,.inr ⟨low.resolve_right inside,high⟩⟩

/-- A step that does not depend on a check the code leaves out: the lease file holds
only addresses of the pool, no client without a hardware address comes upon a slot
without one, and no scan runs past the last address of all. -/
def KeepsToPool (s : Server) : Action → Prop
  | .save => True
  | .record lease => acceptsRecord cfg lease = true → lease.chaddr = blankChaddr ∨
      getIpByMac cfg.staticLeases lease.chaddr ≠ 0 ∨ Pooled cfg lease.chaddr lease.yiaddr
  | .message packet => ∀ p, udhcpGetPacket cfg.endian packet = some p →
      getIpByMac cfg.staticLeases p.chaddr = 0 →
      (∀ i, s.findLeaseByChaddr p.chaddr = some i → p.chaddr = blankChaddr →
        (messageType p = some dhcpDiscover → (s.slot i).yiaddr = 0 ∨ Pooled cfg p.chaddr (s.slot i).yiaddr) ∧
        (messageType p = some dhcpRequest → Pooled cfg p.chaddr (s.slot i).yiaddr)) ∧
      (messageType p = some dhcpDiscover → s.findLeaseByChaddr p.chaddr = none →
        (∀ addr, ¬ Requestable cfg w (s.receive w p) p addr) → ntohl cfg.endian cfg.finish ≠ 0xffffffff)

theorem KeepsToPool.admits (s : Server) (action : Action) (keeps : KeepsToPool cfg w s action) :
    Admits cfg w (Pooled cfg) s action := by
  cases action with
  | record lease => exact keeps
  | message packet =>
    intro p accepted dynamic
    obtain ⟨table,last⟩ := keeps p accepted dynamic
    refine ⟨table,fun discover unknown => ⟨?_,?_⟩⟩
    · exact fun addr nonzero asked => requestable_pooled cfg w p.chaddr nonzero asked
    · exact fun refused addr scan => scan.pooled cfg p.chaddr addr (last discover unknown refused)
  | save => trivial

/-- Only addresses of the pool and static leases are named in every run all of whose
steps keep to the pool. -/
theorem pool_kept (fuel : Nat) (actions : List Action) (keeps : Throughout cfg w fuel actions (KeepsToPool cfg w))
    (before after : List Action) (packet : DhcpMessage) (s next : Server)
    (split : actions = before ++ .message packet :: after) (reached : run cfg w fuel before (initial cfg) = some s)
    (done : s.serve cfg w fuel packet = some next) : Names cfg (Pooled cfg) s next packet := by
  refine run_names cfg w (Pooled cfg) (fun _ static => ⟨static,.inl rfl⟩) ?_ split reached done
  exact fun first action rest middle inner ran =>
    KeepsToPool.admits cfg w middle action (keeps first action rest middle inner ran)

/-- A client that the table does not know is offered an address of the pool. -/
theorem pool_kept_sample : ∃ next,
    (initial sampleConfig).serve sampleConfig (sampleWorld 0 1000 1000 (by decide)) 300
      (sampleMessage 7 sampleDiscover) = some next ∧
    .sent 1000 (some dhcpOffer) (sampleClient 7) 0x1400a8c0 (some 864000) ∈ next.history .little ∧
    Names sampleConfig (Pooled sampleConfig) (initial sampleConfig) next (sampleMessage 7 sampleDiscover) := by
  let w := sampleWorld 0 1000 1000 (by decide)
  let next := ((initial sampleConfig).serve sampleConfig w 300 (sampleMessage 7 sampleDiscover)).get
    (by decide +kernel)
  have unknown : (initial sampleConfig).findLeaseByChaddr (sampleMessage 7 sampleDiscover).chaddr = none := by
    decide +kernel
  have keeps : KeepsToPool sampleConfig w (initial sampleConfig)
      (.message (sampleMessage 7 sampleDiscover)) := by
    intro p accepted _
    rw [← udhcpGetPacket_chaddr accepted] at unknown
    refine ⟨fun i found => (nomatch (unknown.symm.trans found)),?_⟩
    exact fun _ _ _ => by decide
  refine ⟨next,(some_get _).symm,by decide +kernel,?_⟩
  exact pool_kept sampleConfig w 300 _ (throughout_single sampleConfig w 300 keeps) [] []
    _ (initial sampleConfig) next rfl rfl (some_get _).symm

/-- A REQUEST without a hardware address meets a free slot and is granted 0.0.0.0; and a
record for 0.0.0.32 passes the test of the lease file, so that its client is granted an
address far from the pool. -/
theorem address_outside_pool_granted :
    (∃ next, (initial sampleConfig).serve sampleConfig (sampleWorld 0 1000 1000 (by decide)) 300
        (sampleMessage 0 [53,1,3,50,4,0,0,0,0,255]) = some next ∧
      ¬ Names sampleConfig (Pooled sampleConfig) (initial sampleConfig) next
        (sampleMessage 0 [53,1,3,50,4,0,0,0,0,255])) ∧
    ∃ s next, run sampleConfig (sampleWorld 0 1000 1000 (by decide)) 300
        [.record ⟨sampleClient 7,0x20000000,htonl .little 500⟩] (initial sampleConfig) = some s ∧
      s.serve sampleConfig (sampleWorld 0 1000 1000 (by decide)) 300
        (sampleMessage 7 [53,1,3,50,4,0,0,0,32,255]) = some next ∧
      ¬ Names sampleConfig (Pooled sampleConfig) s next (sampleMessage 7 [53,1,3,50,4,0,0,0,32,255]) := by
  let w := sampleWorld 0 1000 1000 (by decide)
  constructor
  · let next := ((initial sampleConfig).serve sampleConfig w 300
      (sampleMessage 0 [53,1,3,50,4,0,0,0,0,255])).get (by decide +kernel)
    refine ⟨next,(some_get _).symm,?_⟩
    refine not_names sampleConfig _ _ next _ 1000 dhcpAck (sampleClient 0) 0 (some 864000)
      (by decide +kernel) (by decide +kernel) (.inr rfl) ?_
    exact fun pooled => pooled.1 rfl
  · let s := (run sampleConfig w 300 [.record ⟨sampleClient 7,0x20000000,htonl .little 500⟩]
      (initial sampleConfig)).get (by decide +kernel)
    let next := (s.serve sampleConfig w 300 (sampleMessage 7 [53,1,3,50,4,0,0,0,32,255])).get
      (by decide +kernel)
    refine ⟨s,next,(some_get _).symm,(some_get _).symm,?_⟩
    refine not_names sampleConfig _ _ next _ 1000 dhcpAck (sampleClient 7) 0x20000000 (some 864000)
      (by decide +kernel) (by decide +kernel) (.inr rfl) ?_
    rintro ⟨_,own | ⟨low,_⟩⟩
    · exact absurd own (by decide +kernel)
    · exact absurd low (by decide +kernel)

end Stablebox.Udhcp
