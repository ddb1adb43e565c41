import Stablebox.Udhcp.Leases

/-! What the table operations do: lookups find a matching slot or prove that there
is none, `add_lease` takes over an expired slot and nothing else, and no operation
makes two slots share an address. -/
namespace Stablebox.Udhcp

open List Option

/-- No two slots hold the same nonzero IP, or the same hardware address that is not blank. -/
structure NoSharing (leases : List DhcpOfferedAddr) : Prop where
  yiaddr : ∀ (i j : Nat) (a b : DhcpOfferedAddr), leases[i]? = some a → leases[j]? = some b →
    a.yiaddr = b.yiaddr → a.yiaddr ≠ 0 → i = j
  chaddr : ∀ (i j : Nat) (a b : DhcpOfferedAddr), leases[i]? = some a → leases[j]? = some b →
    a.chaddr = b.chaddr → a.chaddr ≠ blankChaddr → i = j

theorem noSharing_zero (n : Nat) : NoSharing (List.replicate n zeroSlot) := by
  constructor
  · intro i j a b ha _ _ nonzero
    obtain rfl := eq_of_mem_replicate (mem_of_getElem? ha)
    exact absurd rfl nonzero
  · intro i j a b ha _ _ nonblank
    obtain rfl := eq_of_mem_replicate (mem_of_getElem? ha)
    exact absurd rfl nonblank

section

variable {κ : Type} (key : DhcpOfferedAddr → κ) (blank : κ)

/-- No two slots have the same key, unless it is blank. -/
def Distinct (leases : List DhcpOfferedAddr) : Prop := ∀ (i j : Nat) (a b : DhcpOfferedAddr),
  leases[i]? = some a → leases[j]? = some b → key a = key b → key a ≠ blank → i = j

variable {leases : List DhcpOfferedAddr} (distinct : Distinct key blank leases)

include distinct

theorem Distinct.set (free : ∀ j slot, j ≠ i → leases[j]? = some slot → key slot = key new → key new = blank) :
    Distinct key blank (leases.set i new) := by
  intro a b slotA slotB ha hb same nonblank
  rw [getElem?_set] at ha hb
  split at ha <;> split at hb <;> try split at ha
  all_goals try split at hb
  all_goals try contradiction
  · omega
  · cases ha; exact absurd (free b slotB (by omega) hb same.symm) nonblank
  · cases hb; exact absurd (same.trans (free a slotA (by omega) ha same)) nonblank
  · exact distinct a b slotA slotB ha hb same nonblank

theorem Distinct.set_same (here : leases[i]? = some slot) (same : key new = key slot ∨ key new = blank) :
    Distinct key blank (leases.set i new) := by
  refine Distinct.set key blank distinct fun j old apart present equal => ?_
  rcases same with keep | blank
  · by_contra nonblank
    exact apart (distinct j i old slot present here (equal.trans keep) fun empty => nonblank (equal ▸ empty))
  · exact blank

end

namespace Server

theorem clearLease_getElem? (s : Server) (chaddr : Chaddr) (yiaddr : UInt32) (i : Nat) :
    (s.clearLease chaddr yiaddr).leases[i]? =
      s.leases[i]?.map fun slot => if clears chaddr yiaddr slot then zeroSlot else slot := by
  simp [clearLease]

theorem clears_iff (chaddr : Chaddr) (yiaddr : UInt32) (slot : DhcpOfferedAddr) :
    clears chaddr yiaddr slot = true ↔
      (chaddr ≠ blankChaddr ∧ slot.chaddr = chaddr) ∨ (yiaddr ≠ 0 ∧ slot.yiaddr = yiaddr) := by
  simp [clears]

variable {s : Server} {i : Nat} {slot : DhcpOfferedAddr}

theorem clearLease_gone (here : (s.clearLease chaddr yiaddr).leases[i]? = some slot) :
    (slot.chaddr = chaddr → chaddr = blankChaddr) ∧ (slot.yiaddr = yiaddr → yiaddr = 0) := by
  rw [clearLease_getElem?,map_eq_some_iff] at here
  obtain ⟨old,_,value⟩ := here
  by_cases cleared : clears chaddr yiaddr old = true
  · rw [if_pos cleared] at value
    subst value
    exact ⟨fun same => same.symm,fun same => same.symm⟩
  · rw [if_neg cleared] at value
    subst value
    rw [clears_iff] at cleared
    constructor
    · intro same
      by_contra nonblank
      exact cleared (.inl ⟨nonblank,same⟩)
    · intro same
      by_contra nonzero
      exact cleared (.inr ⟨nonzero,same⟩)

theorem clearLease_origin (here : (s.clearLease chaddr yiaddr).leases[i]? = some slot) :
    slot = zeroSlot ∨ s.leases[i]? = some slot := by
  rw [clearLease_getElem?,map_eq_some_iff] at here
  obtain ⟨old,present,value⟩ := here
  split at value
  · exact .inl value.symm
  · exact .inr (value ▸ present)

theorem clearLease_distinct {κ : Type} (key : DhcpOfferedAddr → κ) (chaddr : Chaddr) (yiaddr : UInt32)
    (distinct : Distinct key (key zeroSlot) s.leases) :
    Distinct key (key zeroSlot) (s.clearLease chaddr yiaddr).leases := by
  intro i j a b ha hb same nonblank
  rcases clearLease_origin ha with rfl | ha
  · exact absurd rfl nonblank
  rcases clearLease_origin hb with rfl | hb
  · exact absurd same nonblank
  exact distinct i j a b ha hb same nonblank

theorem clearLease_keeps (here : s.leases[i]? = some slot) (other : chaddr = blankChaddr ∨ slot.chaddr ≠ chaddr)
    (apart : yiaddr = 0 ∨ slot.yiaddr ≠ yiaddr) : (s.clearLease chaddr yiaddr).leases[i]? = some slot := by
  have stays : ¬ clears chaddr yiaddr slot = true := by
    rw [clears_iff]
    rintro (⟨nonblank,same⟩ | ⟨nonzero,same⟩)
    · rcases other with blank | different
      · exact nonblank blank
      · exact different same
    · rcases apart with zero | different
      · exact nonzero zero
      · exact different same
  simp [clearLease_getElem?,here,stays]

theorem oldestExpiredLoop_some (leases : List DhcpOfferedAddr) (i bound : Nat) (oldest : Option Nat) (j : Nat)
    (found : oldestExpiredLoop leases i bound oldest = some j) :
    oldest = some j ∨ i ≤ j ∧ ∃ slot, leases[j - i]? = some slot ∧ slot.expires.toNat < bound := by
  induction leases generalizing i bound oldest with
  | nil => exact .inl found
  | cons slot rest ih =>
    simp only [oldestExpiredLoop] at found
    split at found
    next older =>
      rcases ih (i + 1) slot.expires.toNat (some i) found with here | ⟨after,old,present,age⟩
      · obtain rfl := some.inj here
        exact .inr ⟨Nat.le_refl i,slot,by simp,older⟩
      · refine .inr ⟨by omega,old,?_,by omega⟩
        rw [show j - i = (j - (i + 1)) + 1 by omega,getElem?_cons_succ]
        exact present
    next younger =>
      rcases ih (i + 1) bound oldest found with here | ⟨after,old,present,age⟩
      · exact .inl here
      refine .inr ⟨by omega,old,?_,age⟩
      rw [show j - i = (j - (i + 1)) + 1 by omega,getElem?_cons_succ]
      exact present

theorem oldestExpiredLoop_isSome (leases : List DhcpOfferedAddr) (i bound : Nat) (oldest : Option Nat)
    (expired : oldest.isSome ∨ ∃ slot ∈ leases, slot.expires.toNat < bound) :
    (oldestExpiredLoop leases i bound oldest).isSome := by
  induction leases generalizing i bound oldest with
  | nil =>
    rcases expired with known | ⟨slot,member,_⟩
    · exact known
    · simp at member
  | cons slot rest ih =>
    simp only [oldestExpiredLoop]
    split
    next older => exact ih _ _ _ (.inl rfl)
    next younger =>
      apply ih
      rcases expired with known | ⟨old,member,age⟩
      · exact .inl known
      rcases mem_cons.mp member with rfl | member
      · exact absurd age younger
      · exact .inr ⟨old,member,age⟩

variable (w : World)

theorem addLease_cases (s : Server) (chaddr : Chaddr) (yiaddr : UInt32) (lease : Nat) :
    s.addLease w chaddr yiaddr lease =
      (none,{ s.clearLease chaddr yiaddr with ticks := s.ticks + 1 }) ∨
    ∃ j slot, (s.clearLease chaddr yiaddr).leases[j]? = some slot ∧
      slot.expires.toNat < w.clock s.ticks ∧
      s.addLease w chaddr yiaddr lease =
        (some j,{ (s.clearLease chaddr yiaddr).setSlot j
          ⟨chaddr,yiaddr,UInt32.ofNat (w.clock (s.ticks + 1) + lease)⟩ with ticks := s.ticks + 2 }) := by
  cases found : oldestExpiredLoop (s.clearLease chaddr yiaddr).leases 0 (w.clock s.ticks) none with
  | none =>
    left
    have scan : (s.clearLease chaddr yiaddr).oldestExpiredLease w =
        (none,{ s.clearLease chaddr yiaddr with ticks := s.ticks + 1 }) := by
      exact Prod.ext found rfl
    simp only [addLease,scan]
  | some j =>
    right
    have scan : (s.clearLease chaddr yiaddr).oldestExpiredLease w =
        (some j,{ s.clearLease chaddr yiaddr with ticks := s.ticks + 1 }) := by
      exact Prod.ext found rfl
    rcases oldestExpiredLoop_some _ _ _ _ _ found with impossible | ⟨_,slot,present,age⟩
    · cases impossible
    · refine ⟨j,slot,by simpa using present,age,?_⟩
      simp only [addLease,scan,time,setSlot]

theorem addLease_log (s : Server) (chaddr : Chaddr) (yiaddr : UInt32) (lease : Nat) :
    (s.addLease w chaddr yiaddr lease).2.log = s.log := by
  rcases addLease_cases w s chaddr yiaddr lease with failed | ⟨j,slot,_,_,done⟩
  · rw [failed]; rfl
  · rw [done]; rfl

theorem addLease_ticks (s : Server) (chaddr : Chaddr) (yiaddr : UInt32) (lease : Nat) :
    s.ticks < (s.addLease w chaddr yiaddr lease).2.ticks := by
  rcases addLease_cases w s chaddr yiaddr lease with failed | ⟨j,slot,_,_,done⟩
  · rw [failed]; exact Nat.lt_succ_self _
  · rw [done]; exact Nat.lt_add_of_pos_right (by decide)

theorem addLease_noSharing (chaddr : Chaddr) (yiaddr : UInt32) (lease : Nat)
    (unique : NoSharing s.leases) : NoSharing (s.addLease w chaddr yiaddr lease).2.leases := by
  have yiaddrs := clearLease_distinct (·.yiaddr) chaddr yiaddr unique.yiaddr
  have chaddrs := clearLease_distinct (·.chaddr) chaddr yiaddr unique.chaddr
  rcases addLease_cases w s chaddr yiaddr lease with failed | ⟨j,slot,_,_,done⟩
  · rw [failed]; exact ⟨yiaddrs,chaddrs⟩
  rw [done]
  exact ⟨yiaddrs.set _ _ fun _ _ _ present => (clearLease_gone present).2,
    chaddrs.set _ _ fun _ _ _ present => (clearLease_gone present).1⟩

theorem addLease_keeps (lease : Nat) (here : s.leases[i]? = some slot)
    (unexpired : w.clock s.ticks ≤ slot.expires.toNat) (other : chaddr = blankChaddr ∨ slot.chaddr ≠ chaddr)
    (apart : yiaddr = 0 ∨ slot.yiaddr ≠ yiaddr) : (s.addLease w chaddr yiaddr lease).2.leases[i]? = some slot := by
  have kept := clearLease_keeps here other apart
  rcases addLease_cases w s chaddr yiaddr lease with failed | ⟨j,old,present,expired,done⟩
  · rw [failed]; exact kept
  rw [done]
  have different : j ≠ i := by
    rintro rfl
    rw [kept] at present
    obtain rfl := some.inj present
    omega
  simpa [setSlot,getElem?_set_ne different] using kept

theorem addLease_all {property : DhcpOfferedAddr → Prop} (zero : property zeroSlot)
    (new : ∀ expires, property ⟨chaddr,yiaddr,expires⟩) (all : ∀ slot ∈ s.leases, property slot) :
    ∀ slot ∈ (s.addLease w chaddr yiaddr lease).2.leases, property slot := by
  have cleared : ∀ slot ∈ (s.clearLease chaddr yiaddr).leases, property slot := by
    intro slot member
    obtain ⟨i,present⟩ := mem_iff_getElem?.mp member
    rcases clearLease_origin present with rfl | before
    · exact zero
    · exact all slot (mem_of_getElem? before)
  rcases addLease_cases w s chaddr yiaddr lease with failed | ⟨j,old,_,_,done⟩
  · rw [failed]; exact cleared
  rw [done]
  intro slot member
  rcases mem_or_eq_of_mem_set member with member | rfl
  · exact cleared slot member
  · exact new _

theorem addLease_some (done : (s.addLease w chaddr yiaddr lease).1 = some j) :
    (s.addLease w chaddr yiaddr lease).2.leases[j]? =
      some ⟨chaddr,yiaddr,UInt32.ofNat (w.clock (s.ticks + 1) + lease)⟩ ∧
    (s.addLease w chaddr yiaddr lease).2.ticks = s.ticks + 2 ∧ 0 < w.clock s.ticks := by
  rcases addLease_cases w s chaddr yiaddr lease with failed | ⟨k,old,present,expired,result⟩
  · rw [failed] at done; cases done
  rw [result] at done ⊢
  obtain rfl := some.inj done
  have bound := (List.getElem?_eq_some_iff.mp present).1
  exact ⟨by simp [setSlot,bound],rfl,by omega⟩

theorem addLease_own (s : Server) (chaddr : Chaddr) (yiaddr : UInt32) (lease i : Nat) (slot : DhcpOfferedAddr)
    (here : s.leases[i]? = some slot) (mine : slot.chaddr = chaddr) (nonblank : chaddr ≠ blankChaddr)
    (started : 0 < w.clock s.ticks) : ∃ j, (s.addLease w chaddr yiaddr lease).1 = some j := by
  have wiped : (s.clearLease chaddr yiaddr).leases[i]? = some zeroSlot := by
    have cleared : clears chaddr yiaddr slot = true := by
      rw [clears_iff]
      exact .inl ⟨nonblank,mine⟩
    simp [clearLease_getElem?,here,cleared]
  have room := oldestExpiredLoop_isSome (s.clearLease chaddr yiaddr).leases 0 (w.clock s.ticks) none
    (.inr ⟨zeroSlot,mem_of_getElem? wiped,started⟩)
  obtain ⟨j,found⟩ := isSome_iff_exists.mp room
  refine ⟨j,?_⟩
  have scan : ((s.clearLease chaddr yiaddr).oldestExpiredLease w).1 = some j := found
  simp only [addLease]
  split
  next equal => simp [equal] at scan
  next oldest _ equal =>
    rw [equal] at scan
    exact scan

theorem findLeaseByChaddr_some (found : s.findLeaseByChaddr chaddr = some i) :
    ∃ slot, s.leases[i]? = some slot ∧ s.slot i = slot ∧ slot.chaddr = chaddr := by
  obtain ⟨bound,fits,_⟩ := findIdx?_eq_some_iff_getElem.mp found
  exact ⟨s.leases[i],getElem?_eq_getElem bound,by simp [slot,bound],of_decide_eq_true fits⟩

theorem findLeaseByChaddr_none (missing : s.findLeaseByChaddr chaddr = none)
    (here : s.leases[i]? = some slot) : slot.chaddr ≠ chaddr := by
  have all := findIdx?_eq_none_iff.mp missing slot (mem_of_getElem? here)
  simpa using all

theorem findLeaseByYiaddr_some (found : s.findLeaseByYiaddr yiaddr = some i) :
    ∃ slot, s.leases[i]? = some slot ∧ s.slot i = slot ∧ slot.yiaddr = yiaddr := by
  obtain ⟨bound,fits,_⟩ := findIdx?_eq_some_iff_getElem.mp found
  exact ⟨s.leases[i],getElem?_eq_getElem bound,by simp [slot,bound],of_decide_eq_true fits⟩

theorem findLeaseByYiaddr_none (missing : s.findLeaseByYiaddr yiaddr = none)
    (here : s.leases[i]? = some slot) : slot.yiaddr ≠ yiaddr := by
  have all := findIdx?_eq_none_iff.mp missing slot (mem_of_getElem? here)
  simpa using all

end Server

end Stablebox.Udhcp
