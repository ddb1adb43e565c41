import Mathlib.Data.UInt

/-! The timers of `udhcpc_main`: what an ACK sets and what a timeout does in each state, with an `unsigned long` of
32 bits. The packets that are sent and the scripts that are run are effects. -/
namespace Stablebox.Udhcp.LeaseTimers

open UInt32 Nat

/-! ### The client -/

inductive ClientState where
  | initSelecting
  | requesting
  | bound
  | renewing
  | rebinding
  | renewRequested
  | released
deriving DecidableEq

inductive ListenMode where
  | none
  | kernel
  | raw
deriving DecidableEq

inductive Effect where
  | sendDiscover
  | sendSelecting
  | sendRenew (unicast : Bool)
  | runScript (name : String)
  | changeMode (mode : ListenMode)
  | background
deriving DecidableEq

structure ClientConfig where
  retries : Int
  timeout : UInt32
  backgroundIfNoLease : Bool
  abortIfNoLease : Bool

structure Client where
  state : ClientState
  timeout : UInt32
  packetNum : Int
  lease : UInt32
  t1 : UInt32
  t2 : UInt32
  start : UInt32
deriving DecidableEq

/-- Enter the bound state with the lease time of an ACK, or with an hour if it has none. -/
def ackReceived (now : UInt32) (leaseTime : Option UInt32) (c : Client) : Client :=
  let lease := leaseTime.getD (60 * 60)
  let t1 := lease / 2
  -- little fixed point for n * .875
  let t2 := (lease * 0x7) >>> 3
  { c with lease,t1,t2,start := now,timeout := t1 + now,state := .bound }

/-- The code at `case RENEWING`: set a new T1, or enter the rebinding state. -/
def renew (now : UInt32) (c : Client) : Client × List Effect :=
  if c.t2 - c.t1 ≤ c.lease / 14400 + 1 then ({ c with state := .rebinding,timeout := now + (c.t2 - c.t1) },[])
  else
    let t1 := (c.t2 - c.t1) / 2 + c.t1
    ({ c with t1,timeout := t1 + c.start },[.sendRenew true])

/-- The code at `case REBINDING`: set a new T2, or enter the init state. -/
def rebind (now : UInt32) (c : Client) : Client × List Effect :=
  if c.lease - c.t2 ≤ c.lease / 14400 + 1 then
    ({ c with state := .initSelecting,timeout := now,packetNum := 0 },[.runScript "deconfig",.changeMode .raw])
  else
    let t2 := (c.lease - c.t2) / 2 + c.t2
    ({ c with t2,timeout := t2 + c.start },[.sendRenew false])

/-- Timeout dropped to zero; no client: `udhcpc_main` returns. -/
def timedOut (cfg : ClientConfig) (now : UInt32) (c : Client) : Option Client × List Effect :=
  match c.state with
  | .initSelecting =>
    if c.packetNum < cfg.retries then
      (some { c with timeout := now + cfg.timeout,packetNum := c.packetNum + 1 },[.sendDiscover])
    else if cfg.backgroundIfNoLease then
      (some { c with packetNum := 0,timeout := now + 60 },[.runScript "leasefail",.background])
    else if cfg.abortIfNoLease then (none,[.runScript "leasefail"])
    else (some { c with packetNum := 0,timeout := now + 60 },[.runScript "leasefail"])
  | .renewRequested =>
    if c.packetNum < cfg.retries then
      (some { c with timeout := now + (if c.packetNum = 2 then 10 else 2),packetNum := c.packetNum + 1 },
        [.sendRenew true])
    else
      (some { c with state := .initSelecting,timeout := now,packetNum := 0 },[.runScript "deconfig",.changeMode .raw])
  | .requesting =>
    if c.packetNum < cfg.retries then
      (some { c with timeout := now + (if c.packetNum = 2 then 10 else 2),packetNum := c.packetNum + 1 },
        [.sendSelecting])
    else (some { c with state := .initSelecting,timeout := now,packetNum := 0 },[.changeMode .raw])
  | .bound =>
    let (next,effects) := renew now { c with state := .renewing }
    (some next,.changeMode .kernel :: effects)
  | .renewing =>
    let (next,effects) := renew now c
    (some next,effects)
  | .rebinding =>
    let (next,effects) := rebind now c
    (some next,effects)
  | .released => (some { c with timeout := 0x7fffffff },[])

/-! ### Runs of timeouts -/

def Leased (c : Client) : Prop := c.state = .bound ∨ c.state = .renewing ∨ c.state = .rebinding

/-- A number of timeouts and nothing else, up to the end of the lease; `Due` relates the timeout that was scheduled to
the time when it is handled. -/
inductive Timeouts (cfg : ClientConfig) (Due : UInt32 → UInt32 → Prop) (first : Client) : Nat → Client → Prop
  | start : Timeouts cfg Due first 0 first
  | fires {count : Nat} {c next : Client} {now : UInt32} : Timeouts cfg Due first count c → Leased c →
      Due c.timeout now → (timedOut cfg now c).1 = some next → Timeouts cfg Due first (count + 1) next

/-- What is wanted of the timers of a lease of `leaseTime` seconds that is acknowledged at `now`. Timeouts may be
handled late; only the bounds on the clock need them to be handled when they are due. -/
structure TimersKept (cfg : ClientConfig) (now leaseTime : UInt32) (first : Client) : Prop where
  ordered : ∀ count c, Timeouts cfg (· ≤ ·) first count c → c.t1 ≤ c.t2 ∧ c.t2 ≤ leaseTime
  increases : ∀ count c later next, Timeouts cfg (· ≤ ·) first count c → c.state = .renewing ∨ c.state = .rebinding →
    c.timeout ≤ later → (timedOut cfg later c).1 = some next → next.state = c.state → c.t1 < next.t1 ∨ c.t2 < next.t2
  finite : ∃ most, ∀ count c, Timeouts cfg (· ≤ ·) first count c → count ≤ most
  scheduled : ∀ count c, Timeouts cfg (· = ·) first count c → c.timeout.toNat ≤ now.toNat + leaseTime.toNat
  lost : ∃ count c, Timeouts cfg (· = ·) first count c ∧ c.state = .initSelecting

/-! ### One timeout -/

theorem toNat_halfway {a b : UInt32} (le : a ≤ b) : ((b - a) / 2 + a).toNat = (b.toNat - a.toNat) / 2 + a.toNat := by
  have bound := b.toNat_lt
  have order : a.toNat ≤ b.toNat := UInt32.le_iff_toNat_le.1 le
  rw [UInt32.toNat_add,UInt32.toNat_div,UInt32.toNat_sub_of_le _ _ le]
  change ((b.toNat - a.toNat) / 2 + a.toNat) % 2 ^ 32 = _
  exact mod_eq_of_lt (by omega)

theorem one_le_limit (lease : UInt32) : 1 ≤ (lease / 14400 + 1).toNat := by
  have bound := lease.toNat_lt
  change 1 ≤ (lease.toNat / 14400 + 1) % 2 ^ 32
  omega

variable {cfg : ClientConfig} {now : UInt32} {c : Client}

theorem timedOut_cases (leased : Leased c) (fires : (timedOut cfg now c).1 = some next) :
    ((c.state = .bound ∨ c.state = .renewing) ∧
      (next = { c with state := .rebinding,timeout := now + (c.t2 - c.t1) } ∨
        (c.lease / 14400 + 1 < c.t2 - c.t1 ∧ next = ({ c with
          state := .renewing
          t1 := (c.t2 - c.t1) / 2 + c.t1
          timeout := (c.t2 - c.t1) / 2 + c.t1 + c.start })))) ∨
    (c.state = .rebinding ∧
      (next = { c with state := .initSelecting,timeout := now,packetNum := 0 } ∨
        (c.lease / 14400 + 1 < c.lease - c.t2 ∧ next = ({ c with
          state := .rebinding
          t2 := (c.lease - c.t2) / 2 + c.t2
          timeout := (c.lease - c.t2) / 2 + c.t2 + c.start })))) := by
  rcases leased with state | state | state
  · refine .inl ⟨.inl state,?_⟩
    simp only [timedOut,state,renew] at fires
    split at fires
    · cases fires
      exact .inl rfl
    · rename_i far
      cases fires
      exact .inr ⟨UInt32.not_le.1 far,rfl⟩
  · refine .inl ⟨.inr state,?_⟩
    simp only [timedOut,state,renew] at fires
    split at fires
    · cases fires
      exact .inl rfl
    · rename_i far
      cases fires
      refine .inr ⟨UInt32.not_le.1 far,?_⟩
      rw [← state]
  · refine .inr ⟨state,?_⟩
    simp only [timedOut,state,rebind] at fires
    split at fires
    · cases fires
      exact .inl rfl
    · rename_i far
      cases fires
      exact .inr ⟨UInt32.not_le.1 far,rfl⟩

theorem timedOut_isSome (cfg : ClientConfig) (now : UInt32) (leased : Leased c) :
    ∃ next, (timedOut cfg now c).1 = some next := by
  rcases leased with state | state | state
  · exact ⟨(renew now { c with state := .renewing }).1,by simp only [timedOut,state]⟩
  · exact ⟨(renew now c).1,by simp only [timedOut,state]⟩
  · exact ⟨(rebind now c).1,by simp only [timedOut,state]⟩

structure Ordered (leaseTime : UInt32) (c : Client) : Prop where
  lease : c.lease = leaseTime
  first : c.t1.toNat ≤ c.t2.toNat
  second : c.t2.toNat ≤ leaseTime.toNat
  state : Leased c ∨ c.state = .initSelecting

/-- How much is left: of the timers, and of the states to come. -/
def weight (c : Client) : Nat :=
  (c.lease.toNat - c.t1.toNat) + (c.lease.toNat - c.t2.toNat) +
    match c.state with
    | .bound => 3
    | .renewing => 2
    | .rebinding => 1
    | _ => 0

variable {leaseTime : UInt32}

/-- One timeout keeps the order, and less is left behind it. A state that is not changed has a later timer. -/
theorem Ordered.timedOut (ordered : Ordered leaseTime c)
    (leased : Leased c) (fires : (timedOut cfg now c).1 = some next) :
    Ordered leaseTime next ∧ weight next < weight c ∧ (next.state = c.state → c.t1 < next.t1 ∨ c.t2 < next.t2) := by
  obtain ⟨rfl,first,second,_⟩ := ordered
  have limit := one_le_limit c.lease
  rcases timedOut_cases leased fires with ⟨state,rfl | ⟨far,rfl⟩⟩ | ⟨state,rfl | ⟨far,rfl⟩⟩
  · refine ⟨⟨rfl,first,second,.inl (.inr (.inr rfl))⟩,?_,fun same => ?_⟩
    · rcases state with state | state <;> simp only [weight,state] <;> omega
    · rcases state with state | state <;> rw [state] at same <;> cases same
  · have le : c.t1 ≤ c.t2 := le_iff_toNat_le.2 first
    have apart : 1 < c.t2.toNat - c.t1.toNat := by
      have less := UInt32.lt_iff_toNat_lt.1 far
      rw [UInt32.toNat_sub_of_le _ _ le] at less
      omega
    have half := toNat_halfway le
    refine ⟨⟨rfl,?_,second,.inl (.inr (.inl rfl))⟩,?_,fun _ => .inl ?_⟩
    · change ((c.t2 - c.t1) / 2 + c.t1).toNat ≤ c.t2.toNat
      omega
    · rcases state with state | state <;> simp only [weight,state] <;> omega
    · change c.t1.toNat < ((c.t2 - c.t1) / 2 + c.t1).toNat
      omega
  · refine ⟨⟨rfl,first,second,.inr rfl⟩,?_,fun same => ?_⟩
    · simp only [weight,state]
      omega
    · rw [state] at same
      cases same
  · have le : c.t2 ≤ c.lease := le_iff_toNat_le.2 second
    have apart : 1 < c.lease.toNat - c.t2.toNat := by
      have less := UInt32.lt_iff_toNat_lt.1 far
      rw [UInt32.toNat_sub_of_le _ _ le] at less
      omega
    have half := toNat_halfway le
    refine ⟨⟨rfl,?_,?_,.inl (.inr (.inr rfl))⟩,?_,fun _ => .inr ?_⟩
    · change c.t1.toNat ≤ ((c.lease - c.t2) / 2 + c.t2).toNat
      omega
    · change ((c.lease - c.t2) / 2 + c.t2).toNat ≤ c.lease.toNat
      omega
    · simp only [weight,state]
      omega
    · change c.t2.toNat < ((c.lease - c.t2) / 2 + c.t2).toNat
      omega

/-! ### Whole runs -/

variable {count : Nat}

theorem Timeouts.ordered (begins : Ordered leaseTime first) (run : Timeouts cfg Due first count c) :
    Ordered leaseTime c ∧ weight c + count ≤ weight first := by
  induction run with
  | start => exact ⟨begins,le_rfl⟩
  | fires _ leased _ fires ih =>
    obtain ⟨ordered,less,_⟩ := ih.1.timedOut leased fires
    exact ⟨ordered,by omega⟩

/-- Handled when they are due, the timeouts go from timer to timer. -/
structure Punctual (now : UInt32) (c : Client) : Prop where
  start : c.start = now
  waits : c.state = .bound ∨ c.state = .renewing → c.timeout.toNat = now.toNat + c.t1.toNat
  rebinds : c.state = .rebinding → c.timeout.toNat = now.toNat + c.t2.toNat
  within : c.timeout.toNat ≤ now.toNat + c.lease.toNat

theorem Punctual.timedOut (punctual : Punctual now c)
    (ordered : Ordered leaseTime c) (fits : now.toNat + leaseTime.toNat < 2 ^ 32) (leased : Leased c)
    (fires : (timedOut cfg c.timeout c).1 = some next) : Punctual now next := by
  obtain ⟨rfl,first,second,_⟩ := ordered
  obtain ⟨rfl,waits,rebinds,within⟩ := punctual
  rcases timedOut_cases leased fires with ⟨state,rfl | ⟨far,rfl⟩⟩ | ⟨state,rfl | ⟨far,rfl⟩⟩
  · have due := waits state
    have le : c.t1 ≤ c.t2 := le_iff_toNat_le.2 first
    have sum : (c.timeout + (c.t2 - c.t1)).toNat = c.start.toNat + c.t2.toNat := by
      rw [UInt32.toNat_add,UInt32.toNat_sub_of_le _ _ le]
      omega
    refine ⟨rfl,fun other => ?_,fun _ => sum,sum.le.trans (by dsimp only; omega)⟩
    rcases other with other | other <;> cases other
  · have le : c.t1 ≤ c.t2 := le_iff_toNat_le.2 first
    have half := toNat_halfway le
    have sum : ((c.t2 - c.t1) / 2 + c.t1 + c.start).toNat = c.start.toNat + ((c.t2 - c.t1) / 2 + c.t1).toNat := by
      rw [UInt32.toNat_add,mod_eq_of_lt (by omega),add_comm]
    refine ⟨rfl,fun _ => sum,fun other => ?_,sum.le.trans (by dsimp only; omega)⟩
    cases other
  · refine ⟨rfl,fun other => ?_,fun other => ?_,within⟩
    · rcases other with other | other <;> cases other
    · cases other
  · have le : c.t2 ≤ c.lease := le_iff_toNat_le.2 second
    have half := toNat_halfway le
    have sum : ((c.lease - c.t2) / 2 + c.t2 + c.start).toNat =
        c.start.toNat + ((c.lease - c.t2) / 2 + c.t2).toNat := by
      rw [UInt32.toNat_add,mod_eq_of_lt (by omega),add_comm]
    refine ⟨rfl,fun other => ?_,fun _ => sum,sum.le.trans (by dsimp only; omega)⟩
    rcases other with other | other <;> cases other

theorem Timeouts.punctual (begins : Ordered leaseTime first) (starts : Punctual now first)
    (fits : now.toNat + leaseTime.toNat < 2 ^ 32) (run : Timeouts cfg (· = ·) first count c) : Punctual now c := by
  induction run with
  | start => exact starts
  | fires run leased due fires ih =>
    cases due
    exact ih.timedOut (run.ordered begins).1 fits leased fires

theorem exists_lost (begins : Ordered leaseTime first) (run : Timeouts cfg (· = ·) first count c) :
    ∃ more lost, Timeouts cfg (· = ·) first more lost ∧ lost.state = .initSelecting := by
  induction left : weight c using Nat.strong_induction_on generalizing count c with
  | _ left ih =>
    have ordered := (run.ordered begins).1
    rcases ordered.state with leased | lost
    · obtain ⟨next,fires⟩ := timedOut_isSome cfg c.timeout leased
      obtain ⟨_,less,_⟩ := ordered.timedOut leased fires
      exact ih (weight next) (by omega) (.fires run leased rfl fires) rfl
    · exact ⟨count,c,run,lost⟩

/-! ### The lease -/

theorem toNat_t2 (lease : UInt32) : ((lease * 0x7) >>> 3).toNat = lease.toNat * 7 % 2 ^ 32 / 8 := by
  exact shiftRight_eq_div_pow _ 3

theorem toNat_t1 (lease : UInt32) : (lease / 2).toNat = lease.toNat / 2 := UInt32.toNat_div ..

/-- The timers of a lease are kept if and only if seven times the lease time is less than 2^32. -/
theorem leaseTimers_kept_iff (cfg : ClientConfig) (now leaseTime : UInt32) (up : now.toNat < 2 ^ 31) (c : Client) :
    TimersKept cfg now leaseTime (ackReceived now (some leaseTime) c) ↔ leaseTime.toNat * 7 < 2 ^ 32 := by
  have size := leaseTime.toNat_lt
  constructor
  · intro kept
    have order := UInt32.le_iff_toNat_le.1 (kept.ordered 0 _ .start).1
    change (leaseTime / 2).toNat ≤ ((leaseTime * 0x7) >>> 3).toNat at order
    rw [toNat_t1,toNat_t2] at order
    by_contra large
    have split := div_add_mod (leaseTime.toNat * 7) (2 ^ 32)
    have wraps : 1 ≤ leaseTime.toNat * 7 / 2 ^ 32 := by omega
    have rest := mod_lt (leaseTime.toNat * 7) (by decide : 0 < 2 ^ 32)
    omega
  · intro small
    have fits : now.toNat + leaseTime.toNat < 2 ^ 32 := by omega
    have t2 : ((leaseTime * 0x7) >>> 3).toNat = leaseTime.toNat * 7 / 8 := by
      rw [toNat_t2,mod_eq_of_lt small]
    have begins : Ordered leaseTime (ackReceived now (some leaseTime) c) := by
      refine ⟨rfl,?_,?_,.inl (.inl rfl)⟩
      · change (leaseTime / 2).toNat ≤ ((leaseTime * 0x7) >>> 3).toNat
        rw [toNat_t1,t2]
        omega
      · change ((leaseTime * 0x7) >>> 3).toNat ≤ leaseTime.toNat
        rw [t2]
        omega
    have starts : Punctual now (ackReceived now (some leaseTime) c) := by
      have sum : (leaseTime / 2 + now).toNat = now.toNat + (leaseTime / 2).toNat := by
        rw [UInt32.toNat_add,toNat_t1,mod_eq_of_lt (by omega),add_comm]
      refine ⟨rfl,fun _ => sum,fun other => ?_,sum.le.trans ?_⟩
      · cases other
      · rw [toNat_t1]
        exact Nat.add_le_add_left (Nat.div_le_self _ _) _
    refine ⟨fun count d run => ?_,fun count d later next run state _ fires same => ?_,?_,fun count d run => ?_,
      exists_lost begins .start⟩
    · have ordered := (run.ordered begins).1
      exact ⟨le_iff_toNat_le.2 ordered.first,le_iff_toNat_le.2 ordered.second⟩
    · exact ((run.ordered begins).1.timedOut (.inr state) fires).2.2 same
    · refine ⟨weight (ackReceived now (some leaseTime) c),fun count d run => ?_⟩
      have counted := (run.ordered begins).2
      exact le_of_add_left_le counted
    · have within := (run.punctual begins starts fits).within
      rwa [(run.ordered begins).1.lease] at within

def defaultConfig : ClientConfig := ⟨3,3,false,false⟩

def freshClient : Client := ⟨.requesting,0,0,0,0,0,0⟩

theorem leaseTimers_kept_hour : TimersKept defaultConfig 1000 3600 (ackReceived 1000 (some 3600) freshClient) :=
  (leaseTimers_kept_iff defaultConfig 1000 3600 (by decide) freshClient).2 (by decide)

/-- A lease of a little more than 19 years: the product wraps, `t2` is 0, and the next renewal is scheduled for a time
more than 50 years after the end of the lease. -/
theorem lease_outlived : ∃ c, Timeouts defaultConfig (· = ·) (ackReceived 1000 (some 613566757) freshClient) 1 c ∧
    c.t2 < c.t1 ∧ 1000 + 613566757 < c.timeout.toNat :=
  ⟨_,.fires .start (.inl rfl) rfl rfl,by decide,by decide⟩

end Stablebox.Udhcp.LeaseTimers
