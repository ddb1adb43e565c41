import Stablebox.Networking.TelnetdStream

/-! The counters of both buffers of a `telnetd` session, as the signed numbers that they are. A pass of the main loop
is the steps below in their order, each of which may be left out. -/
namespace Stablebox.Telnetd.Buffers

open List

structure Buffer where
  rdidx : Int
  wridx : Int
  size : Int

/-- The bytes of `buf2` are only passed on. -/
structure Tsession where
  buf1 : Memory
  first : Buffer
  second : Buffer

namespace Buffer

variable (b : Buffer)

def offered : Int := min (bufSize - b.wridx) b.size

def maxlen : Int := min (bufSize - b.rdidx) (bufSize - b.size)

def emptied (w : Int) : Buffer :=
  { b with wridx := if b.wridx + w = bufSize then 0 else b.wridx + w,size := b.size - w }

def filled (r : Int) : Buffer :=
  { b with rdidx := if b.rdidx + r = bufSize then 0 else b.rdidx + r,size := b.size + r }

def reset : Buffer := if b.size = 0 then { b with rdidx := 0,wridx := 0 } else b

end Buffer

def sendIac (b : Buffer) : Buffer := { b with rdidx := b.rdidx + 3,size := b.size + 3 }

def makeNewSession : Tsession :=
  ⟨fun _ => 0,⟨0,0,0⟩,sendIac (sendIac (sendIac (sendIac (sendIac ⟨0,0,0⟩))))⟩

/-- The results of the calls; a `read` that gives none returns -1 with `EINTR`. The test for a null byte at the end
may then look at a byte in `front` of `buf1`. -/
inductive Event where
  | writePty (w : Nat)
  | writeSocket (w : Nat)
  | readSocket (front : UInt8) (got : Option (List UInt8))
  | readPty (got : Option Nat)
  | reset

/-- By how much an interrupted `read` moves the counters of `buf1` back. -/
def Tsession.lost (ts : Tsession) (front : UInt8) : Int :=
  if (if ts.first.rdidx < 2 then front else ts.buf1 (ts.first.rdidx - 2).toNat) = 0 then 2 else 1

def Tsession.step (ts : Tsession) : Event → Tsession
  | .writePty w =>
    if ts.first.size = 0 then ts
    else
      let part := ts.buf1.get ts.first.wridx.toNat ts.first.offered.toNat
      let (totty,left) := scan part
      let gone := part.length - left.length - totty.length
      { ts with
        buf1 := (ts.buf1.put ts.first.wridx.toNat totty).put (ts.first.wridx.toNat + gone) totty
        first := ts.first.emptied (gone + min w totty.length : Nat) }
  | .writeSocket w =>
    if ts.second.size = 0 then ts else { ts with second := ts.second.emptied (min w ts.second.offered.toNat : Nat) }
  | .readSocket front got =>
    if ts.first.size < bufSize then
      match got with
      | some bytes =>
        let bytes := bytes.take ts.first.maxlen.toNat
        { ts with
          buf1 := ts.buf1.put ts.first.rdidx.toNat bytes
          first := if arrived bytes = 0 then ts.first else ts.first.filled (arrived bytes) }
      | none => { ts with first := ts.first.filled (-ts.lost front) }
    else ts
  | .readPty got =>
    if ts.second.size < bufSize then
      match got with
      | some r => { ts with second := ts.second.filled (min r ts.second.maxlen.toNat : Nat) }
      | none => { ts with second := ts.second.filled (-1) }
    else ts
  | .reset => { ts with first := ts.first.reset,second := ts.second.reset }

structure Buffer.Wf (b : Buffer) : Prop where
  size : 0 ≤ b.size ∧ b.size ≤ bufSize
  rdidx : 0 ≤ b.rdidx ∧ b.rdidx < bufSize
  wridx : 0 ≤ b.wridx ∧ b.wridx < bufSize
  next : b.rdidx = (b.wridx + b.size) % bufSize

def Tsession.Wf (ts : Tsession) : Prop := ts.first.Wf ∧ ts.second.Wf

/-- There are as many bytes, and as many places in front of the index, as an interrupted `read` takes off. -/
def Spared (ts : Tsession) : Event → Prop
  | .readSocket front none => ts.first.size < bufSize → ts.lost front ≤ ts.first.size ∧ ts.lost front ≤ ts.first.rdidx
  | .readPty none => ts.second.size < bufSize → 1 ≤ ts.second.size ∧ 1 ≤ ts.second.rdidx
  | _ => True

def SparedRun : Tsession → List Event → Prop
  | _,[] => True
  | ts,event :: events => Spared ts event ∧ SparedRun (ts.step event) events

section

variable {b : Buffer} (wf : b.Wf)

include wf

theorem emptied_wf (most : w ≤ b.offered.toNat) : (b.emptied w).Wf := by
  obtain ⟨size,rdidx,wridx,next⟩ := wf
  simp only [Buffer.offered,bufSize] at most size rdidx wridx next
  constructor <;> simp only [Buffer.emptied,bufSize] <;> omega

theorem filled_wf (most : r ≤ b.maxlen.toNat) : (b.filled r).Wf := by
  obtain ⟨size,rdidx,wridx,next⟩ := wf
  simp only [Buffer.maxlen,bufSize] at most size rdidx wridx next
  constructor <;> simp only [Buffer.filled,bufSize] <;> omega

theorem filled_back_wf_iff (positive : 0 < d) : (b.filled (-d)).Wf ↔ d ≤ b.size ∧ d ≤ b.rdidx := by
  obtain ⟨size,rdidx,wridx,next⟩ := wf
  simp only [bufSize] at size rdidx wridx next
  constructor
  · rintro ⟨back,place,-,-⟩
    simp only [Buffer.filled,bufSize] at back place
    omega
  · intro enough
    constructor <;> simp only [Buffer.filled,bufSize] <;> omega

theorem reset_wf : b.reset.Wf := by
  unfold Buffer.reset
  split
  · rename_i empty
    exact ⟨wf.size,(by decide : (0 : Int) ≤ 0 ∧ (0 : Int) < bufSize),
      (by decide : (0 : Int) ≤ 0 ∧ (0 : Int) < bufSize),by simp [empty]⟩
  · exact wf

end

theorem lost_pos (ts : Tsession) (front : UInt8) : 0 < ts.lost front := by
  unfold Tsession.lost
  generalize (if ts.first.rdidx < 2 then front else _) = byte
  split <;> decide

theorem arrived_le (bytes : List UInt8) : arrived bytes ≤ bytes.length := by
  unfold arrived
  split <;> omega

theorem step_wf_iff (wf : ts.Wf) (event : Event) : (ts.step event).Wf ↔ Spared ts event := by
  obtain ⟨first,second⟩ := wf
  cases event with
  | writePty w =>
    refine iff_of_true ?_ trivial
    simp only [Tsession.step]
    split
    · exact ⟨first,second⟩
    have leaves := (scan_leaves (ts.buf1.get ts.first.wridx.toNat ts.first.offered.toNat)).2.2
    rw [Memory.get_length] at leaves
    exact ⟨emptied_wf first (by rw [Memory.get_length]; omega),second⟩
  | writeSocket w =>
    refine iff_of_true ?_ trivial
    simp only [Tsession.step]
    split
    · exact ⟨first,second⟩
    · exact ⟨first,emptied_wf second (by omega)⟩
  | readSocket front got =>
    cases got with
    | some bytes =>
      refine iff_of_true ?_ trivial
      have counted := arrived_le (bytes.take ts.first.maxlen.toNat)
      rw [length_take] at counted
      simp only [Tsession.step]
      split
      · refine ⟨?_,second⟩
        split
        · exact first
        · exact filled_wf first (by omega)
      · exact ⟨first,second⟩
    | none =>
      have back := filled_back_wf_iff first (lost_pos ts front)
      by_cases room : ts.first.size < bufSize <;> simp [Tsession.step,Tsession.Wf,Spared,room,first,second,back]
  | readPty got =>
    cases got with
    | some r =>
      refine iff_of_true ?_ trivial
      simp only [Tsession.step]
      split
      · exact ⟨first,filled_wf second (by omega)⟩
      · exact ⟨first,second⟩
    | none =>
      have back := filled_back_wf_iff second one_pos
      by_cases room : ts.second.size < bufSize <;> simp [Tsession.step,Tsession.Wf,Spared,room,first,second,back]
  | reset => exact iff_of_true ⟨reset_wf first,reset_wf second⟩ trivial

theorem run_wf_iff (wf : ts.Wf) (events : List Event) :
    (∀ before, before <+: events → (before.foldl Tsession.step ts).Wf) ↔ SparedRun ts events := by
  induction events generalizing ts with
  | nil => simp [SparedRun,wf]
  | cons event events ih =>
    constructor
    · intro kept
      have next := kept [event] (by simp)
      refine ⟨(step_wf_iff wf event).mp next,(ih next).mp fun before front => ?_⟩
      exact kept (event :: before) (cons_prefix_cons.mpr ⟨rfl,front⟩)
    · rintro ⟨spared,rest⟩ before front
      cases before with
      | nil => exact wf
      | cons other before =>
        obtain ⟨rfl,shorter⟩ := cons_prefix_cons.mp front
        exact (ih ((step_wf_iff wf other).mpr spared)).mpr rest before shorter

/-- In all states of a run the counters of both buffers are in order if and only if each interrupted `read` finds
enough bytes to lose. -/
theorem buffers_kept_iff (events : List Event) :
    (∀ before, before <+: events → (before.foldl Tsession.step makeNewSession).Wf) ↔
      SparedRun makeNewSession events :=
  run_wf_iff ⟨⟨by decide,by decide,by decide,rfl⟩,⟨by decide,by decide,by decide,rfl⟩⟩ events

/-- The first `read` of a session is interrupted. -/
theorem interrupted_read : ((makeNewSession.step (.readSocket 0 none)).first.size = -2) ∧
    ¬ (makeNewSession.step (.readSocket 0 none)).Wf :=
  ⟨rfl,fun wf => absurd wf.1.size.1 (by decide)⟩

end Stablebox.Telnetd.Buffers
