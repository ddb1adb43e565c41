import Stablebox.Udhcp.Exclusive

/-! The promise of an ACK: how long the address of a client stays its own, seen from
the wire. Later reservations of the same client replace the entry of the table, so
the promise reaches as far as the shortest of them. -/
namespace Stablebox.Udhcp

open DhcpMessage Server List Option UInt32 Prod Nat

variable (cfg : ServerConfig) (w : World)

/-- An owned slot exists only after a clock reading that is not zero. -/
def Started (s : Server) : Prop :=
  ∀ (i : Nat) (slot : DhcpOfferedAddr), s.leases[i]? = some slot → slot.chaddr ≠ blankChaddr →
    ∃ n < s.ticks, 0 < w.clock n

variable {cfg w}

variable {s next : Server}

theorem Started.later (started : Started w s) (leases : next.leases = s.leases)
    (later : s.ticks ≤ next.ticks) : Started w next := by
  intro i slot here owned
  rw [leases] at here
  obtain ⟨n,bound,positive⟩ := started i slot here owned
  exact ⟨n,lt_of_lt_of_le bound later,positive⟩

theorem Started.setSlot (started : Started w s) (i : Nat) (slot new : DhcpOfferedAddr)
    (here : s.leases[i]? = some slot) (chaddr : new.chaddr = slot.chaddr ∨ new.chaddr = blankChaddr) :
    Started w (s.setSlot i new) := by
  intro j old present owned
  by_cases same : i = j
  · subst same
    have bound := (List.getElem?_eq_some_iff.mp here).1
    have value : new = old := by simpa [Server.setSlot,bound] using present
    subst value
    rcases chaddr with keep | blank
    · exact started i slot here (keep ▸ owned)
    · exact absurd blank owned
  · have before : s.leases[j]? = some old := by
      simpa [Server.setSlot,getElem?_set_ne same] using present
    exact started j old before owned

theorem Started.addLease (started : Started w s) (chaddr : Chaddr) (yiaddr : UInt32) (lease : Nat) :
    Started w (s.addLease w chaddr yiaddr lease).2 := by
  rcases addLease_cases w s chaddr yiaddr lease with failed | ⟨j,slot,_,expired,done⟩
  · rw [failed]
    intro i slot here owned
    rcases clearLease_origin here with rfl | before
    · exact absurd rfl owned
    · obtain ⟨n,bound,positive⟩ := started i slot before owned
      exact ⟨n,lt_succ_of_lt bound,positive⟩
  · rw [done]
    intro i slot here owned
    exact ⟨s.ticks,Nat.lt_add_of_pos_right (by decide),Nat.lt_of_le_of_lt (Nat.zero_le _) expired⟩

variable {p : DhcpMessage}

theorem Moves.started (moves : Moves cfg w p origin s next) (started : Started w s) : Started w next := by
  induction moves with
  | refl => exact started
  | tail _ move ih =>
    cases move with
    | idle _ leases _ later => exact ih.later leases later
    | reserve => exact ih.addLease _ _ _
    | grant => exact ih.addLease _ _ _
    | orphan i slot here => exact ih.setSlot i slot _ here (.inr rfl)
    | own i slot new here _ _ chaddr => exact ih.setSlot i slot new here chaddr
    | send => exact ih.later rfl (le_succ _)

variable {fuel : Nat}

theorem act_started (unique : NoSharing s.leases) (started : Started w s) (done : s.act cfg w fuel action = some next) :
    Started w next := by
  rcases act_cases unique done with ⟨leases,_,later⟩ | ⟨_,_,_,_,_,leases,_,later,rfl⟩ | ⟨_,_,_,_,moves⟩
  · exact started.later leases later
  · exact (started.later leases later).addLease _ _ _
  · exact Moves.started moves (started.later rfl (le_succ _))

variable (cfg w)

theorem sendPacket_cases (s : Server) (packet : DhcpMessage) (force : Bool) :
    s.sendPacket cfg w packet force = (false,{ s with sends := s.sends + 1, ticks := s.ticks + 1 }) ∨
    s.sendPacket cfg w packet force = (true,{ s with
      sends := s.sends + 1, ticks := s.ticks + 1,
      log := s.log ++ [.sent (w.clock s.ticks) packet (route cfg packet force)] }) := by
  simp only [sendPacket,Server.time]
  split
  · exact .inl rfl
  · exact .inr rfl

theorem sendPacket_table (s : Server) (packet : DhcpMessage) (force : Bool) :
    (s.sendPacket cfg w packet force).2.leases = s.leases ∧
      (s.sendPacket cfg w packet force).2.ticks = s.ticks + 1 := by
  rcases sendPacket_cases cfg w s packet force with failed | sent
  · rw [failed]
    exact ⟨rfl,rfl⟩
  · rw [sent]
    exact ⟨rfl,rfl⟩

variable {i : Nat} {slot : DhcpOfferedAddr}

theorem sendACK_own (addr : UInt32) (here : s.leases[i]? = some slot) (mine : slot.chaddr = p.chaddr)
    (nonblank : p.chaddr ≠ blankChaddr) (started : 0 < w.clock s.ticks) :
    ((s.sendACK cfg w p addr).leases = s.leases ∧ (s.sendACK cfg w p addr).log = s.log) ∨
    ∃ j : Nat, (s.sendACK cfg w p addr).leases[j]? =
        some ⟨p.chaddr,addr,ofNat (w.clock (s.ticks + 2) + (ackLeaseTime cfg p).toNat)⟩ ∧
      (s.sendACK cfg w p addr).ticks = s.ticks + 3 ∧
      (s.sendACK cfg w p addr).log = s.log ++
        [.sent (w.clock s.ticks) (ackPacket cfg p addr) (route cfg (ackPacket cfg p addr) false)] := by
  rcases sendPacket_cases cfg w s (ackPacket cfg p addr) false with failed | sent
  · left
    simp only [sendACK,failed]
    exact ⟨trivial,trivial⟩
  · right
    simp only [sendACK,sent]
    have positive : 0 < w.clock (s.ticks + 1) := lt_of_lt_of_le started (w.monotone (le_succ _))
    obtain ⟨j,done⟩ := addLease_own w { s with
      sends := s.sends + 1, ticks := s.ticks + 1,
      log := s.log ++ [.sent (w.clock s.ticks) (ackPacket cfg p addr) (route cfg (ackPacket cfg p addr) false)] }
      p.chaddr addr (ackLeaseTime cfg p).toNat i slot here mine nonblank positive
    obtain ⟨entry,ticks,_⟩ := addLease_some w done
    exact ⟨j,entry,ticks,addLease_log w _ _ _ _⟩

theorem request_outcome (dynamic : getIpByMac cfg.staticLeases p.chaddr = 0)
    (done : s.dispatch cfg w fuel p dhcpRequest = some next) :
    (∃ (i : Nat) (slot : DhcpOfferedAddr), s.leases[i]? = some slot ∧ slot.chaddr = p.chaddr ∧
      next = s.sendACK cfg w p slot.yiaddr) ∨
    (∀ event ∈ newEvents s next, ∃ t route, event = .sent t (initPacket cfg p dhcpNak) route) ∧
      (s.findLeaseByChaddr p.chaddr ≠ none → next.leases = s.leases) := by
  have refused (s : Server) : (∀ event ∈ newEvents s (s.sendNAK cfg w p), ∃ t route,
      event = .sent t (initPacket cfg p dhcpNak) route) ∧ (s.sendNAK cfg w p).leases = s.leases := by
    simp only [sendNAK,newEvents]
    rcases sendPacket_cases cfg w s (initPacket cfg p dhcpNak) true with failed | sent
    · rw [failed]; simp
    · rw [sent]; simp
  have silent (s late : Server) (log : late.log = s.log) : ∀ event ∈ newEvents s late,
      ∃ t route, event = .sent t (initPacket cfg p dhcpNak) route := by
    simp [newEvents,log]
  have order : dhcpRequest ≠ dhcpDiscover := by decide
  simp only [dispatch,order,if_false,if_true,leaseOf,dynamic,ne_eq,not_true_eq_false] at done
  cases found : s.findLeaseByChaddr p.chaddr with
  | some i =>
    obtain ⟨slot,present,value,mine⟩ := findLeaseByChaddr_some found
    simp only [found,map_some,some.injEq,deref,value] at done
    have outcome : next = s.sendACK cfg w p slot.yiaddr ∨ next = s.sendNAK cfg w p ∨ next = s := by
      rw [← done]
      simp only [requestKnown]
      split
      · split
        · exact .inl rfl
        · exact .inr (.inr rfl)
      · split <;> split
        · exact .inl rfl
        · exact .inr (.inl rfl)
        · exact .inl rfl
        · exact .inr (.inl rfl)
    rcases outcome with acknowledged | rfl | rfl
    · exact .inl ⟨i,slot,present,mine,acknowledged⟩
    · exact .inr ⟨(refused s).1,fun _ => (refused s).2⟩
    · exact .inr ⟨silent _ _ rfl,fun _ => rfl⟩
  | none =>
    right
    refine ⟨?_,fun known => absurd rfl known⟩
    simp only [found,map_none,some.injEq] at done
    subst done
    simp only [requestUnknown]
    split
    · exact silent _ _ rfl
    split
    · exact silent _ _ rfl
    split
    · split
      next late expired =>
        obtain ⟨_,rfl⟩ := mk.inj expired
        exact silent _ _ rfl
      next late unexpired =>
        obtain ⟨_,rfl⟩ := mk.inj unexpired
        exact (refused (s.time w).2).1
    · split
      · exact (refused s).1
      · exact silent _ _ rfl

theorem discover_own (unique : NoSharing s.leases) (dynamic : getIpByMac cfg.staticLeases p.chaddr = 0)
    (here : s.leases[i]? = some slot) (mine : slot.chaddr = p.chaddr) (nonblank : p.chaddr ≠ blankChaddr)
    (nonzero : slot.yiaddr ≠ 0) (started : 0 < w.clock s.ticks) (done : s.sendOffer cfg w fuel p = some next) :
    ∃ (j n : Nat), s.ticks ≤ n ∧ n < next.ticks ∧ next.leases[j]? =
      some ⟨p.chaddr,slot.yiaddr,ofNat (w.clock n + cfg.offerTime)⟩ := by
  have found : s.findLeaseByChaddr p.chaddr = some i := by
    cases search : s.findLeaseByChaddr p.chaddr with
    | none => exact absurd mine (findLeaseByChaddr_none search here)
    | some j =>
      obtain ⟨other,present,_,same⟩ := findLeaseByChaddr_some search
      rw [unique.chaddr j i other slot present here (same.trans mine.symm) (same ▸ nonblank)]
  have value : s.slot i = slot := by simp [Server.slot,getD_eq_getElem?_getD,here]
  obtain ⟨time,late,choice,leases,later⟩ : ∃ time late,
      s.offerAddress cfg w fuel p = some (slot.yiaddr,time,late) ∧ late.leases = s.leases ∧
      s.ticks ≤ late.ticks := by
    simp only [offerAddress,found,value,leaseExpired]
    split
    next late expired =>
      obtain ⟨_,rfl⟩ := mk.inj expired
      exact ⟨_,_,rfl,rfl,le_succ _⟩
    next late unexpired =>
      obtain ⟨_,rfl⟩ := mk.inj unexpired
      exact ⟨_,_,rfl,rfl,by simp [Server.time]; omega⟩
  have positive : 0 < w.clock late.ticks := lt_of_lt_of_le started (w.monotone later)
  obtain ⟨j,added⟩ := addLease_own w late p.chaddr slot.yiaddr cfg.offerTime i slot (leases ▸ here) mine
    nonblank positive
  obtain ⟨entry,ticks,_⟩ := addLease_some w added
  have pair : late.addLease w p.chaddr slot.yiaddr cfg.offerTime =
      (some j,(late.addLease w p.chaddr slot.yiaddr cfg.offerTime).2) := Prod.ext added rfl
  simp only [sendOffer,dynamic,if_true,choice,nonzero,if_false] at done
  rw [pair] at done
  simp only [some.injEq] at done
  subst done
  refine ⟨j,late.ticks + 1,by omega,?_,?_⟩
  · rw [(sendPacket_table cfg w _ _ _).2,ticks]
    omega
  · rw [(sendPacket_table cfg w _ _ _).1]
    exact entry

theorem ackLeaseTime_le (p : DhcpMessage) : (ackLeaseTime cfg p).toNat ≤ cfg.lease := by
  have whole : (ofNat cfg.lease).toNat ≤ cfg.lease := by
    exact mod_le _ _
  simp only [ackLeaseTime]
  split
  · exact whole
  split
  · exact whole
  split
  · exact whole
  · omega

variable {type : UInt8}

/-- What a message of a client does to the client's own slot, a release or a decline
excepted: it stays, or it is entered anew for an offer or for the ACK that was sent. -/
theorem dispatch_own (unique : NoSharing s.leases) (dynamic : getIpByMac cfg.staticLeases p.chaddr = 0)
    (here : s.leases[i]? = some slot) (mine : slot.chaddr = p.chaddr) (nonblank : p.chaddr ≠ blankChaddr)
    (nonzero : slot.yiaddr ≠ 0) (started : 0 < w.clock s.ticks) (stays : type ≠ dhcpRelease ∧ type ≠ dhcpDecline)
    (done : s.dispatch cfg w fuel p type = some next) :
    ∃ (j : Nat) (new : DhcpOfferedAddr), next.leases[j]? = some new ∧ new.chaddr = p.chaddr ∧
      new.yiaddr = slot.yiaddr ∧
      (new.expires = slot.expires ∨
        (type = dhcpDiscover ∧ ∃ n, s.ticks ≤ n ∧ n < next.ticks ∧
          new.expires = ofNat (w.clock n + cfg.offerTime)) ∨
        ∃ n route, s.ticks ≤ n ∧ n < next.ticks ∧
          next.log = s.log ++ [.sent (w.clock s.ticks) (ackPacket cfg p slot.yiaddr) route] ∧
          new.expires = ofNat (w.clock n + (ackLeaseTime cfg p).toNat)) := by
  by_cases discover : type = dhcpDiscover
  · subst discover
    obtain ⟨j,n,low,high,entry⟩ := discover_own cfg w unique dynamic here mine nonblank
      nonzero started done
    exact ⟨j,_,entry,rfl,rfl,.inr (.inl ⟨rfl,n,low,high,rfl⟩)⟩
  by_cases request : type = dhcpRequest
  · subst request
    rcases request_outcome cfg w dynamic done with ⟨k,other,present,same,rfl⟩ | ⟨_,unchanged⟩
    · have index := unique.chaddr k i other slot present here (same.trans mine.symm) (same ▸ nonblank)
      subst index
      rw [here] at present
      obtain rfl := Option.some.inj present
      rcases sendACK_own cfg w slot.yiaddr here mine nonblank started with
        ⟨leases,_⟩ | ⟨j,entry,ticks,log⟩
      · exact ⟨k,slot,leases ▸ here,mine,rfl,.inl rfl⟩
      · exact ⟨j,_,entry,rfl,rfl,.inr (.inr ⟨s.ticks + 2,_,by omega,by omega,log,rfl⟩)⟩
    · have known : s.findLeaseByChaddr p.chaddr ≠ none := by
        intro missing
        exact findLeaseByChaddr_none missing here mine
      exact ⟨i,slot,(unchanged known) ▸ here,mine,rfl,.inl rfl⟩
  · have table : next.leases = s.leases := by
      simp only [dispatch,discover,request,stays.1,stays.2,if_false] at done
      split at done
      · cases done
        exact (sendPacket_table cfg w s _ _).1
      · cases done; rfl
    exact ⟨i,slot,table ▸ here,mine,rfl,.inl rfl⟩

/-- Nothing in this part of the history ends the client's claim before `bound`: no
release, no decline, and no offer or ACK that reserves for less. -/
structure Unshortened (part : List Observation) (c : Chaddr) (bound : Nat) : Prop where
  stays : ∀ t type, .received t type c ∈ part → type ≠ some dhcpRelease ∧ type ≠ some dhcpDecline
  offers : ∀ t, .received t (some dhcpDiscover) c ∈ part → bound ≤ t + cfg.offerTime
  acks : ∀ t ip lease, .sent t (some dhcpAck) c ip (some lease) ∈ part → bound ≤ t + lease.toNat

def NoWrap (s : Server) : Prop :=
  ∀ n < s.ticks, w.clock n + cfg.lease < 4294967296 ∧ w.clock n + cfg.offerTime < 4294967296

/-- Every promise that was made is still backed by a slot, or its time is over. -/
def Guarded (s : Server) : Prop :=
  ∀ before part t c ip lease bound, s.history cfg.endian = before ++ .sent t (some dhcpAck) c ip (some lease) :: part →
    c ≠ blankChaddr → ip ≠ 0 → Unshortened cfg part c bound → bound ≤ t + lease.toNat →
    (∃ n < s.ticks, bound < w.clock n) ∨
    ∃ (i : Nat) (slot : DhcpOfferedAddr), s.leases[i]? = some slot ∧ slot.chaddr = c ∧ slot.yiaddr = ip ∧
      bound ≤ slot.expires.toNat

variable {cfg w}

variable {c : Chaddr}

theorem Unshortened.left (unshortened : Unshortened cfg (first ++ second) c bound) : Unshortened cfg first c bound where
  stays t type member := unshortened.stays t type (mem_append_left _ member)
  offers t member := unshortened.offers t (mem_append_left _ member)
  acks t ip lease member := unshortened.acks t ip lease (mem_append_left _ member)

theorem Unshortened.right (unshortened : Unshortened cfg (first ++ second) c bound) :
    Unshortened cfg second c bound where
  stays t type member := unshortened.stays t type (mem_append_right _ member)
  offers t member := unshortened.offers t (mem_append_right _ member)
  acks t ip lease member := unshortened.acks t ip lease (mem_append_right _ member)

theorem Answer.sender (answer : Answer cfg w p origin s packet) (grant : IsGrant packet)
    (nonzero : packet.yiaddr cfg.endian ≠ 0) : packet.chaddr = p.chaddr := by
  cases answer with
  | refuse type => rcases grant with kind | kind <;> rw [type] at kind <;> exact absurd kind (by decide)
  | inform _ _ nothing => exact absurd nothing nonzero
  | grant _ _ chaddr => exact chaddr

theorem split_grown (equal : old ++ new = before ++ entry :: part) :
    (∃ rest, old = before ++ entry :: rest ∧ part = rest ++ new) ∨
    ∃ front, before = old ++ front ∧ new = front ++ entry :: part := by
  rcases append_eq_append_iff.mp equal with ⟨front,outer,inner⟩ | ⟨rest,outer,inner⟩
  · exact .inr ⟨front,outer,inner⟩
  cases rest with
  | nil => exact .inr ⟨[],by simpa using outer.symm,by simpa using inner.symm⟩
  | cons first rest =>
    obtain ⟨rfl,tail⟩ := cons.inj inner
    exact .inl ⟨rest,outer,tail⟩

theorem Guarded.later (guarded : Guarded cfg w s) (leases : next.leases = s.leases)
    (log : next.log = s.log) (later : s.ticks ≤ next.ticks) : Guarded cfg w next := by
  intro before part t c ip lease bound history nonblank nonzero unshortened inside
  rw [Server.history,log] at history
  rcases guarded before part t c ip lease bound history nonblank nonzero unshortened inside with
    ⟨n,early,passed⟩ | backed
  · exact .inl ⟨n,lt_of_lt_of_le early later,passed⟩
  · exact .inr (leases ▸ backed)

variable (cfg w)

theorem expiry_noWrap (noWrap : NoWrap cfg w s) (early : n < s.ticks)
    (small : extra ≤ cfg.lease ∨ extra = cfg.offerTime) (reach : bound ≤ w.clock n + extra) :
    bound ≤ (ofNat (w.clock n + extra)).toNat := by
  have room := noWrap n early
  rw [toNat_ofNat',mod_eq_of_lt (by omega)]
  exact reach

section

variable (unique : NoSharing s.leases) (started : Started w s) (dynamic : cfg.staticLeases = [])
  (noWrap : NoWrap cfg w next) (asked : messageType p = some type) (done : s.dispatch cfg w fuel p type = some next)
  (log : next.log = s.log ++ new)

include unique started dynamic noWrap asked done log

theorem dispatch_guarded (here : s.leases[i]? = some slot) (nonblank : slot.chaddr ≠ blankChaddr)
    (nonzero : slot.yiaddr ≠ 0) (reach : bound ≤ slot.expires.toNat) (early : t ≤ w.clock s.ticks)
    (unshortened : Unshortened cfg
      (.received t (messageType p) p.chaddr :: new.map (observe cfg.endian)) slot.chaddr bound) :
    (∃ n < next.ticks, bound < w.clock n) ∨
    ∃ (j : Nat) (entry : DhcpOfferedAddr), next.leases[j]? = some entry ∧ entry.chaddr = slot.chaddr ∧
      entry.yiaddr = slot.yiaddr ∧ bound ≤ entry.expires.toNat := by
  have none : getIpByMac cfg.staticLeases p.chaddr = 0 := by rw [dynamic]; rfl
  by_cases passed : ∃ n < next.ticks, bound < w.clock n
  · exact .inl passed
  right
  by_cases mine : slot.chaddr = p.chaddr
  · obtain ⟨n,before,positive⟩ := started i slot here nonblank
    have now : 0 < w.clock s.ticks := lt_of_lt_of_le positive (w.monotone (le_of_lt before))
    have stays := unshortened.stays t (messageType p) (by rw [mine]; exact mem_cons_self)
    rw [asked] at stays
    obtain ⟨j,entry,present,owner,address,reason⟩ := dispatch_own cfg w unique none
      here mine (mine ▸ nonblank) nonzero now
      ⟨fun equal => stays.1 (congrArg some equal),fun equal => stays.2 (congrArg some equal)⟩ done
    refine ⟨j,entry,present,owner.trans mine.symm,address,?_⟩
    rcases reason with same | ⟨discover,n,low,high,expires⟩ | ⟨n,route,low,high,sent,expires⟩
    · rw [same]; exact reach
    · have offer := unshortened.offers t (by rw [mine,asked,discover]; exact mem_cons_self)
      have order := w.monotone low
      rw [expires]
      exact expiry_noWrap cfg w noWrap high (.inr rfl) (by omega)
    · have event : new = [.sent (w.clock s.ticks) (ackPacket cfg p slot.yiaddr) route] :=
        append_cancel_left (log.symm.trans sent)
      have acknowledged := unshortened.acks (w.clock s.ticks) slot.yiaddr (ackLeaseTime cfg p) (by
        rw [event,mine]
        simp [observe,ackPacket_eq])
      have order := w.monotone low
      rw [expires]
      exact expiry_noWrap cfg w noWrap high (.inl (ackLeaseTime_le cfg p)) (by omega)
  · have fresh : Fresh w slot next := by
      intro n before
      by_contra late
      exact passed ⟨n,before,by omega⟩
    have moves := dispatch_moves cfg w fuel s next p type unique asked done
    exact ⟨i,slot,Moves.keeps none unique here (Ne.symm mine) fresh moves,rfl,rfl,reach⟩

theorem dispatch_promises
    (here : new.map (observe cfg.endian) = front ++ .sent t (some dhcpAck) c ip (some lease) :: part)
    (nonblank : c ≠ blankChaddr) (nonzero : ip ≠ 0) (inside : bound ≤ t + lease.toNat) :
    ∃ (j : Nat) (entry : DhcpOfferedAddr), next.leases[j]? = some entry ∧ entry.chaddr = c ∧
      entry.yiaddr = ip ∧ bound ≤ entry.expires.toNat := by
  have none : getIpByMac cfg.staticLeases p.chaddr = 0 := by rw [dynamic]; rfl
  have moves := dispatch_moves cfg w fuel s next p type unique asked done
  have member : .sent t (some dhcpAck) c ip (some lease) ∈ new.map (observe cfg.endian) := by
    rw [here]
    simp
  obtain ⟨packet,route,inNew,kind,owner,address,_⟩ := observed_sent member
  obtain ⟨added,grown,origins⟩ := Moves.log moves
  obtain rfl : added = new := append_cancel_left (grown.symm.trans log)
  obtain ⟨middle,_,_,_,answer,_,equal⟩ := origins _ inNew
  obtain ⟨_,rfl,_⟩ := Event.sent.inj equal
  have sender : p.chaddr = c := (answer.sender (.inr kind) (address ▸ nonzero)).symm.trans owner
  have request : type = dhcpRequest := by
    cases answer with
    | refuse refused => rw [refused] at kind; exact absurd kind (by decide)
    | inform _ _ nothing => exact absurd (nothing.symm.trans address).symm nonzero
    | grant _ reason =>
      rcases reason with ⟨_,offered,_⟩ | ⟨requested,_⟩
      · rw [offered] at kind; exact absurd kind (by decide)
      · exact mem_unique asked requested
  subst request
  rcases request_outcome cfg w none done with ⟨k,slot,present,mine,rfl⟩ | ⟨refusals,_⟩
  · obtain ⟨m,before,positive⟩ := started k slot present (by rw [mine,sender]; exact nonblank)
    have now : 0 < w.clock s.ticks := lt_of_lt_of_le positive (w.monotone (le_of_lt before))
    rcases sendACK_own cfg w slot.yiaddr present mine (by rw [sender]; exact nonblank) now with
      ⟨_,silent⟩ | ⟨j,entry,ticks,sent⟩
    · have empty : added = [] := by
        rw [silent] at log
        simpa using log.symm
      rw [empty] at member
      simp at member
    · have only : added = [.sent (w.clock s.ticks) (ackPacket cfg p slot.yiaddr) _] :=
        append_cancel_left (log.symm.trans sent)
      rw [only] at member
      simp only [map_cons,map_nil,mem_singleton,observe,ackPacket_eq,grantPacket_type,grantPacket_chaddr,
        grantPacket_yiaddr,grantPacket_leaseTime,Observation.sent.injEq,some.injEq] at member
      obtain ⟨rfl,_,rfl,rfl,rfl⟩ := member
      refine ⟨j,_,entry,rfl,rfl,?_⟩
      have order := w.monotone (show s.ticks ≤ s.ticks + 2 by omega)
      exact expiry_noWrap cfg w noWrap (by omega) (.inl (ackLeaseTime_le cfg p))
        (by omega)
  · have entered : .sent t packet route ∈ newEvents s next := by
      simpa [newEvents,log] using inNew
    obtain ⟨_,_,equal⟩ := refusals _ entered
    cases equal
    rw [initPacket_type] at kind
    exact absurd kind (by decide)

end

theorem serve_turn (done : s.serve cfg w fuel packet = some next) :
    next = s ∨ ∃ p, udhcpGetPacket cfg.endian packet = some p ∧
      (messageType p = none ∧ next = s.receive w p ∨
        ∃ type, messageType p = some type ∧ (s.receive w p).dispatch cfg w fuel p type = some next) := by
  simp only [serve] at done
  split at done
  · cases done; exact .inl rfl
  next p accepted =>
    refine .inr ⟨p,accepted,?_⟩
    split at done
    next untyped => cases done; exact .inl ⟨untyped,rfl⟩
    next type asked => exact .inr ⟨type,asked,done⟩

theorem receive_history (s : Server) (p : DhcpMessage) :
    (s.receive w p).history cfg.endian =
      s.history cfg.endian ++ [.received (w.clock s.ticks) (messageType p) p.chaddr] := by
  simp [Server.history,receive_log,observe]

theorem serve_guarded (unique : NoSharing s.leases)
    (started : Started w s) (dynamic : cfg.staticLeases = []) (guarded : Guarded cfg w s)
    (noWrap : NoWrap cfg w next) (done : s.serve cfg w fuel packet = some next) : Guarded cfg w next := by
  rcases serve_turn cfg w done with rfl | ⟨p,_,⟨_,rfl⟩ | ⟨type,asked,handled⟩⟩
  · exact guarded
  · intro before part t c ip lease bound history nonblank nonzero unshortened inside
    rw [receive_history] at history
    rcases split_grown history with ⟨rest,old,rfl⟩ | ⟨front,_,new⟩
    · rcases guarded before rest t c ip lease bound old nonblank nonzero unshortened.left inside with
        ⟨n,early,passed⟩ | backed
      · exact .inl ⟨n,lt_succ_of_lt early,passed⟩
      · exact .inr backed
    · cases front with
      | nil => cases new
      | cons first front => simp at new
  · have moves := dispatch_moves cfg w fuel (s.receive w p) next p type unique asked handled
    obtain ⟨new,log,_⟩ := Moves.log moves
    have later : s.ticks + 1 ≤ next.ticks := Moves.ticks moves
    have begun : Started w (s.receive w p) := started.later rfl (le_succ _)
    have grown : next.history cfg.endian = s.history cfg.endian ++
        (.received (w.clock s.ticks) (messageType p) p.chaddr :: new.map (observe cfg.endian)) := by
      rw [Server.history,log,map_append]
      change (s.receive w p).history cfg.endian ++ _ = _
      rw [receive_history,append_assoc]
      rfl
    intro before part t c ip lease bound history nonblank nonzero unshortened inside
    rw [grown] at history
    rcases split_grown history with ⟨rest,old,rfl⟩ | ⟨front,_,added⟩
    · rcases guarded before rest t c ip lease bound old nonblank nonzero unshortened.left inside with
        ⟨n,early,passed⟩ | ⟨i,slot,here,rfl,rfl,reach⟩
      · exact .inl ⟨n,by omega,passed⟩
      · exact dispatch_guarded cfg w (s := s.receive w p) unique begun dynamic noWrap asked handled log here nonblank
          nonzero reach (w.monotone (le_succ _)) unshortened.right
    · cases front with
      | nil => cases added
      | cons first front =>
        obtain ⟨_,sent⟩ := cons.inj added
        exact .inr (dispatch_promises cfg w (s := s.receive w p) unique begun dynamic noWrap asked handled log sent
          nonblank nonzero inside)

/-- No promise on record has been broken. -/
def Kept (s : Server) : Prop :=
  ∀ before part after t c ip lease u type d other, s.history cfg.endian =
      before ++ .sent t (some dhcpAck) c ip (some lease) :: (part ++ .sent u type d ip other :: after) →
    c ≠ blankChaddr → ip ≠ 0 → (type = some dhcpOffer ∨ type = some dhcpAck) → d ≠ c →
    Unshortened cfg part c u → t + lease.toNat < u

theorem serve_kept (unique : NoSharing s.leases) (dynamic : cfg.staticLeases = []) (guarded : Guarded cfg w s)
    (kept : Kept cfg s) (done : s.serve cfg w fuel packet = some next) : Kept cfg next := by
  rcases serve_history cfg w unique done with rfl | ⟨p,new,accepted,_,log,origins⟩
  · exact kept
  have grown : next.history cfg.endian = s.history cfg.endian ++
      (.received (w.clock s.ticks) (messageType p) p.chaddr :: new.map (observe cfg.endian)) := by
    rw [Server.history,log,map_append]
    rfl
  have grantee (t : Nat) (type : Option UInt8) (c : Chaddr) (ip : UInt32) (lease : Option UInt32)
      (member : .sent t type c ip lease ∈ new.map (observe cfg.endian))
      (kind : type = some dhcpOffer ∨ type = some dhcpAck) (nonzero : ip ≠ 0) :
      c = p.chaddr ∧ ∃ answer route, .sent t answer route ∈ newEvents s next ∧ IsGrant answer ∧
        answer.yiaddr cfg.endian = ip ∧ w.clock s.ticks ≤ t := by
    obtain ⟨answer,route,inNew,rfl,rfl,rfl,_⟩ := observed_sent member
    obtain ⟨middle,_,_,reach,reason,_,equal⟩ := origins _ inNew
    cases equal
    have later : s.ticks + 1 ≤ middle.ticks := Moves.ticks reach
    refine ⟨reason.sender kind nonzero,answer,route,?_,kind,rfl,w.monotone (by omega)⟩
    simpa [newEvents,log] using inNew
  intro before part after t c ip lease u type d other history nonblank nonzero kind stranger unshortened
  rw [grown,← cons_append,← append_assoc] at history
  rcases split_grown history with ⟨rest,old,_⟩ | ⟨front,old,added⟩
  · refine kept before part rest t c ip lease u type d other ?_ nonblank nonzero kind stranger unshortened
    rw [old,append_assoc,cons_append]
  cases front with
  | nil => cases added
  | cons first front =>
    obtain ⟨rfl,sent⟩ := cons.inj added
    obtain ⟨rfl,answer,route,entered,grant,address,later⟩ := grantee u type d ip other
      (by rw [sent]; simp) kind nonzero
    rcases split_grown old.symm with ⟨rest,ends,rfl⟩ | ⟨lead,_,both⟩
    · by_contra early
      rcases guarded before rest t c ip lease u ends nonblank nonzero unshortened.left (by omega) with
        ⟨n,bound,passed⟩ | ⟨i,slot,here,rfl,rfl,reach⟩
      · have order := w.monotone (le_of_lt bound)
        omega
      · have sender := udhcpGetPacket_chaddr accepted
        exact (serve_exclusive cfg w unique dynamic done here
          (sender ▸ stranger)).2 nonzero u answer route entered reach grant address
    · cases lead with
      | nil => cases both
      | cons head lead =>
        obtain ⟨_,tail⟩ := cons.inj both
        have mine := (grantee t (some dhcpAck) c ip (some lease) (by rw [sent,tail]; simp) (.inr rfl)
          nonzero).1
        exact absurd mine.symm stranger

theorem act_ticks (unique : NoSharing s.leases) (done : s.act cfg w fuel action = some next) :
    s.ticks ≤ next.ticks := by
  rcases act_cases unique done with ⟨_,_,later⟩ | ⟨_,late,_,_,_,_,_,later,rfl⟩ | ⟨_,_,_,_,moves⟩
  · exact later
  · exact le_trans later (le_of_lt (addLease_ticks w late _ _ _))
  · exact le_of_succ_le (Moves.ticks moves)

theorem run_ticks (unique : NoSharing s.leases) (ran : run cfg w fuel actions s = some final) :
    s.ticks ≤ final.ticks := by
  induction actions generalizing s with
  | nil => cases ran; exact le_rfl
  | cons action rest ih =>
    obtain ⟨next,stepped,ran⟩ := (runActions_cons _ action rest s final).mp ran
    exact le_trans (act_ticks cfg w unique stepped)
      (ih (act_noSharing unique stepped) ran)

theorem loop_kept (loop : ∀ action ∈ turns, ∀ lease, action ≠ .record lease) (dynamic : cfg.staticLeases = [])
    (noWrap : NoWrap cfg w final) (unique : NoSharing s.leases) (started : Started w s) (guarded : Guarded cfg w s)
    (kept : Kept cfg s) (ran : run cfg w fuel turns s = some final) : Kept cfg final := by
  induction turns generalizing s with
  | nil => cases ran; exact kept
  | cons action rest ih =>
    obtain ⟨next,stepped,onward⟩ := (runActions_cons _ action rest s final).mp ran
    have uniqueNext := act_noSharing unique stepped
    have later := run_ticks cfg w uniqueNext onward
    have noWrapNext : NoWrap cfg w next := fun n bound => noWrap n (lt_of_lt_of_le bound later)
    have startedNext := act_started unique started stepped
    have remaining : ∀ action ∈ rest, ∀ lease, action ≠ .record lease :=
      (forall_mem_cons.mp loop).2
    cases action with
    | record lease => exact absurd rfl (loop _ (.head _) lease)
    | message packet =>
      exact ih remaining uniqueNext startedNext
        (serve_guarded cfg w unique started dynamic guarded noWrapNext stepped)
        (serve_kept cfg w unique dynamic guarded kept stepped) onward
    | save =>
      simp only [act,some.injEq] at stepped
      obtain ⟨leases,log,tick⟩ := writeLeases_idle cfg w s
      rw [stepped] at leases log tick
      refine ih remaining uniqueNext startedNext (guarded.later leases log tick) ?_ onward
      intro before part after t c ip lease u type d other history
      rw [Server.history,log] at history
      exact kept before part after t c ip lease u type d other history

theorem records_silent {records : List DhcpOfferedAddr} (unique : NoSharing s.leases) (started : Started w s)
    (ran : run cfg w fuel (records.map .record) s = some final) :
    final.log = s.log ∧ NoSharing final.leases ∧ Started w final := by
  induction records generalizing s with
  | nil => cases ran; exact ⟨rfl,unique,started⟩
  | cons lease rest ih =>
    obtain ⟨next,stepped,onward⟩ :=
      (runActions_cons (act cfg w fuel) (Action.record lease) (rest.map Action.record) s final).mp ran
    obtain ⟨log,result⟩ := ih (act_noSharing unique stepped)
      (act_started unique started stepped) onward
    refine ⟨log.trans ?_,result⟩
    rcases act_cases unique stepped with ⟨_,same,_⟩ | ⟨_,late,_,_,_,_,same,_,rfl⟩ | ⟨_,_,other,_⟩
    · exact same
    · exact (addLease_log w late _ _ _).trans same
    · cases other

/-- The lease promise: after an ACK of `ip` for `lease` seconds to `c`, and until the
first of the times up to which the server reserves `ip` for `c`, nobody else is
offered or granted `ip`. -/
theorem lease_promise (fuel : Nat) (records : List DhcpOfferedAddr) (turns : List Action) (s : Server)
    (dynamic : cfg.staticLeases = []) (loop : ∀ action ∈ turns, ∀ lease, action ≠ .record lease)
    (reached : run cfg w fuel (records.map .record ++ turns) (initial cfg) = some s)
    (noWrap : NoWrap cfg w s)
    (before part after : List Observation) (t u : Nat) (c d : Chaddr) (ip lease : UInt32)
    (type : Option UInt8) (other : Option UInt32)
    (history : s.history cfg.endian =
      before ++ .sent t (some dhcpAck) c ip (some lease) :: (part ++ .sent u type d ip other :: after))
    (nonblank : c ≠ blankChaddr) (nonzero : ip ≠ 0) (grant : type = some dhcpOffer ∨ type = some dhcpAck)
    (stranger : d ≠ c) (unshortened : Unshortened cfg part c u) : t + lease.toNat < u := by
  have empty (r : Server) (log : r.log = []) : Guarded cfg w r ∧ Kept cfg r := by
    constructor
    · intro before part t c ip lease bound history
      simp [Server.history,log] at history
    · intro before part after t c ip lease u type d other history
      simp [Server.history,log] at history
  rw [run,runActions_append,bind_eq_some_iff] at reached
  obtain ⟨booted,loaded,looped⟩ := reached
  have blank : Started w (initial cfg) := by
    intro i slot here owned
    obtain rfl := eq_of_mem_replicate (mem_of_getElem? here)
    exact absurd rfl owned
  obtain ⟨log,unique,started⟩ := records_silent cfg w (noSharing_zero _) blank loaded
  obtain ⟨guarded,kept⟩ := empty booted log
  exact loop_kept cfg w loop dynamic noWrap unique started guarded kept looped before part
    after t c ip lease u type d other history nonblank nonzero grant stranger unshortened

/-- A lease of ten days is over when the address goes to another client. -/
theorem lease_promise_sample : ∃ s,
    run sampleConfig (sampleWorld 9 1000 900000 (by decide)) 300
      ([].map .record ++ [.message (sampleMessage 7 sampleDiscover),.message (sampleMessage 7 sampleSelect),
        .message (sampleMessage 8 sampleDiscoverAsking)]) (initial sampleConfig) = some s ∧
    .sent 1000 (some dhcpAck) (sampleClient 7) 0x1400a8c0 (some 864000) ∈ s.history .little ∧
    .sent 900000 (some dhcpOffer) (sampleClient 8) 0x1400a8c0 (some 864000) ∈ s.history .little ∧
    1000 + (864000 : UInt32).toNat < 900000 := by
  let w := sampleWorld 9 1000 900000 (by decide)
  let turns : List Action := [.message (sampleMessage 7 sampleDiscover),
    .message (sampleMessage 7 sampleSelect),.message (sampleMessage 8 sampleDiscoverAsking)]
  let s := (run sampleConfig w 300 ([].map .record ++ turns) (initial sampleConfig)).get (by decide +kernel)
  let c := sampleClient 7
  let ip : UInt32 := 0x1400a8c0
  have history : s.history .little =
      [.received 1000 (some 1) c,.sent 1000 (some 2) c ip (some 864000),.received 1000 (some 3) c] ++
        .sent 1000 (some dhcpAck) c ip (some 864000) :: ([.received 1000 (some 1) (sampleClient 8)] ++
          .sent 900000 (some dhcpOffer) (sampleClient 8) ip (some 864000) :: []) := by decide +kernel
  have noWrap : NoWrap sampleConfig w s := by
    intro n _
    have early := sampleWorld_clock 9 1000 900000 (by decide) n
    simp only [w,sampleConfig]
    omega
  have other : c ≠ sampleClient 8 := by decide
  have unshortened : Unshortened sampleConfig [.received 1000 (some 1) (sampleClient 8)] c 900000 :=
    ⟨by simp [other],by simp [other],by simp⟩
  refine ⟨s,(some_get _).symm,by rw [history]; simp [c,ip],by rw [history]; simp [ip],?_⟩
  exact lease_promise sampleConfig w 300 [] turns s rfl (by simp [turns]) (some_get _).symm noWrap _ _ _ _ _ _ _ _ _ _ _
    history (by decide) (by decide) (.inl rfl) (by decide) unshortened

/-- The promise as an onlooker would state it: only a release or a decline of the
client itself ends the time that its ACK carries. -/
def PromiseKept (history : List Observation) : Prop :=
  ∀ before part after t u c d ip lease type other,
    history = before ++ .sent t (some dhcpAck) c ip (some lease) :: (part ++ .sent u type d ip other :: after) →
    c ≠ blankChaddr →
    (∀ t' type', .received t' type' c ∈ part → type' ≠ some dhcpRelease ∧ type' ≠ some dhcpDecline) →
    (type = some dhcpOffer ∨ type = some dhcpAck) → d ≠ c → t + lease.toNat ≤ u

def sampleRenewShort : List UInt8 := [53,1,3,50,4,192,168,0,20,51,4,0,0,0,60,255]

theorem breaks_promise (cfg : ServerConfig) (w : World) (actions : List Action)
    (before part : List Observation) (t u : Nat) (c d : Chaddr) (ip lease : UInt32) (type : UInt8)
    (other : Option UInt32)
    (history : (run cfg w 300 actions (initial cfg)).map (Server.history cfg.endian) =
      some (before ++ .sent t (some dhcpAck) c ip (some lease) :: (part ++ [.sent u (some type) d ip other])))
    (nonblank : c ≠ blankChaddr)
    (stays : ∀ observation ∈ part, ∀ t' type', observation = .received t' type' c →
      type' ≠ some dhcpRelease ∧ type' ≠ some dhcpDecline)
    (grant : type = dhcpOffer ∨ type = dhcpAck) (stranger : d ≠ c) (early : u < t + lease.toNat) :
    ∃ s, run cfg w 300 actions (initial cfg) = some s ∧ ¬ PromiseKept (s.history cfg.endian) := by
  obtain ⟨s,reached,seen⟩ := map_eq_some_iff.mp history
  refine ⟨s,reached,fun kept => ?_⟩
  have late := kept before part [] t u c d ip lease (some type) other seen nonblank
    (fun t' type' member => stays _ member t' type' rfl) (grant.imp (congrArg some) (congrArg some)) stranger
  omega

/-- Four ways in which the plain promise fails: the client asks again and is only
offered, it renews for a shorter time, the expiry wraps around, and the address is
0.0.0.0. -/
theorem promise_not_kept :
    (∃ s, run sampleConfig (sampleWorld 14 1000 2000 (by decide)) 300
      [.message (sampleMessage 7 sampleDiscover),.message (sampleMessage 7 sampleSelect),
        .message (sampleMessage 7 sampleDiscover),.message (sampleMessage 8 sampleDiscoverAsking)]
      (initial sampleConfig) = some s ∧ ¬ PromiseKept (s.history sampleConfig.endian)) ∧
    (∃ s, run sampleConfig (sampleWorld 12 1000 2000 (by decide)) 300
      [.message (sampleMessage 7 sampleDiscover),.message (sampleMessage 7 sampleSelect),
        .message (sampleMessage 7 sampleRenewShort),.message (sampleMessage 8 sampleDiscoverAsking)]
      (initial sampleConfig) = some s ∧ ¬ PromiseKept (s.history sampleConfig.endian)) ∧
    (∃ s, run sampleConfig (sampleWorld 0 4294900000 4294900000 (by decide)) 300
      [.message (sampleMessage 7 sampleDiscover),.message (sampleMessage 7 sampleSelect),
        .message (sampleMessage 8 sampleDiscoverAsking)]
      (initial sampleConfig) = some s ∧ ¬ PromiseKept (s.history sampleConfig.endian)) ∧
    (∃ s, run { sampleConfig with start := 0 } (sampleWorld 0 1000 1000 (by decide)) 300
      [.record ⟨sampleClient 7,0,htonl .little 500⟩,.message (sampleMessage 7 [53,1,3,50,4,0,0,0,0,255]),
        .message (sampleMessage 8 [53,1,8,255])]
      (initial { sampleConfig with start := 0 }) = some s ∧
        ¬ PromiseKept (s.history sampleConfig.endian)) := by
  let c := sampleClient 7
  let ip : UInt32 := 0x1400a8c0
  -- The first three offer the leased address to the other client.
  have offered (w : World) (actions : List Action) (t u : Nat) (part : List Observation) :=
    breaks_promise sampleConfig w actions
      [.received t (some 1) c,.sent t (some 2) c ip (some 864000),.received t (some 3) c] part
      t u c (sampleClient 8) ip 864000 dhcpOffer (some 864000)
  refine ⟨?_,?_,?_,?_⟩
  · exact offered _ _ 1000 2000
      [.received 1000 (some 1) c,.sent 1000 (some 2) c ip (some 864000),.received 2000 (some 1) (sampleClient 8)]
      (by decide +kernel) (by decide) (by simp [dhcpRelease,dhcpDecline]) (.inl rfl) (by decide) (by decide)
  · exact offered _ _ 1000 2000
      [.received 1000 (some 3) c,.sent 1000 (some 5) c ip (some 60),.received 2000 (some 1) (sampleClient 8)]
      (by decide +kernel) (by decide) (by simp [dhcpRelease,dhcpDecline]) (.inl rfl) (by decide) (by decide)
  · exact offered _ _ 4294900000 4294900000 [.received 4294900000 (some 1) (sampleClient 8)]
      (by decide +kernel) (by decide) (by simp [dhcpRelease,dhcpDecline]) (.inl rfl) (by decide) (by decide)
  · exact breaks_promise { sampleConfig with start := 0 } _ _
      [.received 1000 (some 3) c] [.received 1000 (some 8) (sampleClient 8)]
      1000 1000 c (sampleClient 8) 0 864000 dhcpAck none (by decide +kernel) (by decide)
      (by simp [dhcpRelease,dhcpDecline]) (.inr rfl) (by decide) (by decide)

end Stablebox.Udhcp
