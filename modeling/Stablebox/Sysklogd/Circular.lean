import Stablebox.Lib.CString
import Stablebox.Libbb.GetLine

/-! The circular buffer of `syslogd` (`circ_message`) and its two readers in `logread_main`.
The shared segment holds a header of sixteen bytes by `sizeof`, of which the last four are
the array's first byte and its padding, so four more bytes lie behind `data[size - 1]`. -/
namespace Stablebox.Syslogd

open Libbb

structure Shbuf where
  size : Nat
  head : Nat
  tail : Nat
  data : Memory

/-- A message of 1 to 1022 bytes without a null byte. -/
structure Message where
  bytes : List UInt8
  nonempty : bytes ≠ []
  short : bytes.length ≤ 1022
  plain : 0 ∉ bytes

/-- `ipcsyslog_init` on a segment with whatever `shmget` returned in it. -/
def ipcsyslogInit (size : Nat) (segment : Memory) : Shbuf := { size,head := 0,tail := 0,data := segment }

def strncpy (msg : List UInt8) (n : Nat) : List UInt8 := (msg ++ List.replicate n 0).take n

/-- The copies `circ_message` makes into `data`, in order, each with its offset. -/
def circWrites (buf : Shbuf) (msg : List UInt8) : List (Nat × List UInt8) :=
  let l := msg.length + 1
  if buf.tail + l < buf.size then [(buf.tail,strncpy msg l)]
  else
    let k := buf.tail + l - buf.size
    match buf.data.memchr k (buf.size - k) with
    | none => []
    | some _ => [(buf.tail,strncpy msg (l - k - 1)),(buf.size - 1,[0]),(0,msg.drop (l - k - 1) ++ [0])]

def circHead (buf : Shbuf) (msg : List UInt8) : Nat :=
  let l := msg.length + 1
  if buf.tail + l < buf.size then
    if buf.tail < buf.head ∧ buf.tail + l ≥ buf.head then
      let k := buf.tail + l - buf.head
      match buf.data.memchr (buf.head + k) (buf.size - (buf.head + k)) with
      | some c => c + 1
      | none => 0
    else buf.head
  else
    let k := buf.tail + l - buf.size
    match buf.data.memchr k (buf.size - k) with
    | some c => c + 1
    | none => 0

def circTail (buf : Shbuf) (msg : List UInt8) : Nat :=
  let l := msg.length + 1
  if buf.tail + l < buf.size then buf.tail + l
  else
    let k := buf.tail + l - buf.size
    match buf.data.memchr k (buf.size - k) with
    | some _ => k + 1
    | none => 0

def circMessage (buf : Shbuf) (msg : List UInt8) : Shbuf where
  size := buf.size
  head := circHead buf msg
  tail := circTail buf msg
  data := (circWrites buf msg).foldl (fun data copy => data.put copy.1 copy.2) buf.data

def circMessages (buf : Shbuf) (msgs : List Message) : Shbuf :=
  msgs.foldl (fun buf msg => circMessage buf msg.bytes) buf

def banner (buf : Shbuf) : List UInt8 := if buf.head = buf.tail then text "<empty syslog>\n" else []

def plainLoop (buf : Shbuf) : Nat → Nat → Option (List UInt8)
  | 0,_ => none
  | fuel + 1,i =>
    if i = buf.tail then some []
    else do
      let string ← buf.data.cString i (buf.size + 4)
      let next := i + string.length + 1
      let rest ← plainLoop buf fuel (if next ≥ buf.size then 0 else next)
      return string ++ rest

/-- `logread_main` without `-f`. Every turn of the loop moves at least one byte on. -/
def logreadPlain (buf : Shbuf) : Option (List UInt8) :=
  (plainLoop buf (buf.size + 2) buf.head).map (banner buf ++ ·)

def logCopy (buf : Shbuf) (i : Nat) : List UInt8 :=
  if buf.tail < i then buf.data.get i (buf.size - i) ++ buf.data.get 0 buf.tail
  else buf.data.get i (buf.tail - i)

def printCopy : Nat → List UInt8 → Option (List UInt8)
  | _,[] => some []
  | 0,_ => none
  | fuel + 1,bytes =>
    match bytes.dropWhile (· ≠ 0) with
    | [] => none
    | _ :: rest => (printCopy fuel rest).map (bytes.takeWhile (· ≠ 0) ++ ·)

/-- `logread_main` without `-f`, with `CONFIG_FEATURE_LOGREAD_REDUCED_LOCKING`. -/
def logreadReduced (buf : Shbuf) : Option (List UInt8) :=
  let copy := logCopy buf buf.head
  (printCopy copy.length copy).map (banner buf ++ ·)

/-- A step that leaves `head` at the start of a message: a message that is broken up at the end of
the buffer does not end where an old one ended, and one that is appended below `head` leaves a
whole string of the old ones in the buffer, unless no message is broken up there. -/
def Harmless (buf : Shbuf) (msg : List UInt8) : Prop :=
  let l := msg.length + 1
  if buf.tail + l < buf.size then
    buf.tail < buf.head → buf.head ≤ buf.tail + l →
      buf.data 0 = 0 ∨ buf.data (buf.size - 2) = 0 ∨
        ∃ i, buf.tail + l ≤ i ∧ i < buf.size - 1 ∧ buf.data i = 0
  else buf.data (buf.tail + l - buf.size) ≠ 0

theorem memchr_isSome (m : Memory) (start limit : Nat) :
    (m.memchr start (limit - start)).isSome ↔ ∃ i, start ≤ i ∧ i < limit ∧ m i = 0 := by
  simp only [Memory.memchr,List.find?_isSome,List.mem_range'_1,decide_eq_true_eq]
  constructor
  · rintro ⟨i,⟨behind,inside⟩,zero⟩
    exact ⟨i,behind,by omega,zero⟩
  · rintro ⟨i,behind,inside,zero⟩
    exact ⟨i,⟨behind,by omega⟩,zero⟩

instance (buf : Shbuf) (msg : List UInt8) : Decidable (Harmless buf msg) :=
  have := decidable_of_iff _ (memchr_isSome buf.data (buf.tail + (msg.length + 1)) (buf.size - 1))
  inferInstanceAs (Decidable (ite _ (_ → _ → _) _))

def HarmlessRun : Shbuf → List Message → Prop
  | _,[] => True
  | buf,msg :: msgs => Harmless buf msg.bytes ∧ HarmlessRun (circMessage buf msg.bytes) msgs

instance HarmlessRun.decidable : (buf : Shbuf) → (msgs : List Message) → Decidable (HarmlessRun buf msgs)
  | _,[] => .isTrue trivial
  | buf,msg :: msgs =>
    have : Decidable (HarmlessRun (circMessage buf msg.bytes) msgs) := decidable _ msgs
    inferInstanceAs (Decidable (_ ∧ _))

/-- Every copy of a run lies inside `data[0..size-1]`. -/
def WritesInside : Shbuf → List Message → Prop
  | _,[] => True
  | buf,msg :: msgs => (∀ copy ∈ circWrites buf msg.bytes, copy.1 + copy.2.length ≤ buf.size) ∧
      WritesInside (circMessage buf msg.bytes) msgs

/-- A run shows messages if both readers print exactly them. -/
def Shows (buf : Shbuf) (live : List Message) : Prop :=
  logreadPlain buf = some (live.flatMap Message.bytes) ∧ logreadReduced buf = some (live.flatMap Message.bytes)

end Stablebox.Syslogd
