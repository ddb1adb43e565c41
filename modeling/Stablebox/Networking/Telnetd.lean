import Stablebox.Lib.Circular

/-! The keyboard side of a `telnetd` session: bytes from the socket go into the circular buffer
`buf1`, and `remove_iacs` filters them on their way to the pty. A turn of the main loop
is a write to the pty, a read from the socket and a reset of the indices, each of which may
be left out. -/
namespace Stablebox.Telnetd

def bufSize : Nat := 4000

def iac : UInt8 := 255
def sb : UInt8 := 250
def se : UInt8 := 240
def teloptNaws : UInt8 := 31

structure Session where
  buf1 : Memory
  rdidx1 : Nat
  wridx1 : Nat
  size1 : Nat

/-- The loop of `remove_iacs` over the bytes it is given: those meant for the terminal, and
those it leaves because a sequence is not complete. -/
def scan : List UInt8 → List UInt8 × List UInt8
  | [] => ([],[])
  | c :: rest =>
    if c ≠ iac then
      match rest with
      | next :: rest' =>
        if c = 13 ∧ (next = 10 ∨ next = 0) then (c :: (scan rest').1,(scan rest').2)
        else (c :: (scan (next :: rest')).1,(scan (next :: rest')).2)
      | [] => ([c],[])
    else
      match rest with
      | verb :: option :: rest =>
        if verb = sb ∧ option = teloptNaws then
          match rest with
          | _ :: _ :: _ :: _ :: _ :: _ :: rest => scan rest
          | _ => ([],c :: verb :: option :: rest)
        else scan rest
      | _ => ([],c :: rest)

def Session.content (ts : Session) : List UInt8 := ts.buf1.around bufSize ts.wridx1 ts.size1

def Session.part (ts : Session) : List UInt8 := ts.buf1.get ts.wridx1 (min (bufSize - ts.wridx1) ts.size1)

/-- The packed bytes, and the session with the removed ones gone. -/
def removeIacs (ts : Session) : Session × List UInt8 :=
  let totty := (scan ts.part).1
  let processed := ts.part.length - (scan ts.part).2.length
  let gone := processed - totty.length
  ({ ts with
      buf1 := (ts.buf1.put ts.wridx1 totty).put (ts.wridx1 + gone) totty
      wridx1 := ts.wridx1 + gone
      size1 := ts.size1 - gone },totty)

/-- A write to the pty, which takes at most `w` bytes: the session and the bytes written. -/
def writePty (w : Nat) (ts : Session) : Session × List UInt8 :=
  if ts.size1 = 0 then (ts,[])
  else
    let (ts,totty) := removeIacs ts
    let w := min w totty.length
    let wridx1 := ts.wridx1 + w
    ({ ts with wridx1 := if wridx1 = bufSize then 0 else wridx1,size1 := ts.size1 - w },totty.take w)

def Session.maxlen (ts : Session) : Nat := min (bufSize - ts.rdidx1) (bufSize - ts.size1)

/-- The number of bytes that count after a read: a null byte at the end does not. -/
def arrived (bytes : List UInt8) : Nat :=
  if bytes.getLast? = some 0 then bytes.length - 1 else bytes.length

def readSocket (bytes : List UInt8) (ts : Session) : Session :=
  let r := arrived bytes
  let buf1 := ts.buf1.put ts.rdidx1 bytes
  if r = 0 then { ts with buf1 }
  else
    let rdidx1 := ts.rdidx1 + r
    { ts with buf1,rdidx1 := if rdidx1 = bufSize then 0 else rdidx1,size1 := ts.size1 + r }

def reset (ts : Session) : Session := if ts.size1 = 0 then { ts with rdidx1 := 0,wridx1 := 0 } else ts

/-- A session with what the client has sent and is not read yet, and what was written to the pty. -/
structure Link where
  session : Session
  incoming : List UInt8
  output : List UInt8

inductive Step where
  | write (w : Nat)
  | read (count : Nat)
  | reset

def Link.chunk (link : Link) (count : Nat) : List UInt8 := link.incoming.take (min count link.session.maxlen)

def step (link : Link) : Step → Link
  | .write w =>
    { link with session := (writePty w link.session).1,output := link.output ++ (writePty w link.session).2 }
  | .read count =>
    { link with
      session := readSocket (link.chunk count) link.session
      incoming := link.incoming.drop (min count link.session.maxlen) }
  | .reset => { link with session := reset link.session }

def run (link : Link) (steps : List Step) : Link := steps.foldl step link

def begin (stream : List UInt8) : Link :=
  { session := { buf1 := fun _ => 0,rdidx1 := 0,wridx1 := 0,size1 := 0 },incoming := stream,output := [] }

/-! ### What a client sends -/

/-- A data byte, a three-byte command or the size of the window. -/
inductive Item where
  | data (byte : UInt8) (plain : byte ≠ iac)
  | command (verb option : UInt8) (other : ¬ (verb = sb ∧ option = teloptNaws))
  | naws (a b c d : UInt8)

def Item.bytes : Item → List UInt8
  | .data byte _ => [byte]
  | .command verb option _ => [iac,verb,option]
  | .naws a b c d => [iac,sb,teloptNaws,a,b,c,d,iac,se]

def Item.isData : Item → Bool
  | .data _ _ => true
  | _ => false

def stream (items : List Item) : List UInt8 := items.flatMap Item.bytes

def dataOf (items : List Item) : List UInt8 := stream (items.filter Item.isData)

def reduce : List UInt8 → List UInt8
  | [] => []
  | c :: rest =>
    match rest with
    | next :: rest' =>
      if c = 13 ∧ (next = 10 ∨ next = 0) then c :: reduce rest' else c :: reduce (next :: rest')
    | [] => [c]

def keyboard (items : List Item) : List UInt8 := reduce (dataOf items)

def Item.isCr : Item → Bool
  | .data byte _ => byte = 13
  | _ => false

/-- The second byte of a pair that begins with CR. -/
def Item.isPartner : Item → Bool
  | .data byte _ => byte = 10 ∨ byte = 0
  | _ => false

/-- The next data byte, whatever sequences stand before it, is neither LF nor NUL. -/
def Clear (items : List Item) : Prop := ∀ byte, (dataOf items).head? = some byte → byte ≠ 10 ∧ byte ≠ 0

/-- Behind a CR stands at most one LF or NUL, directly. -/
def Tidy : List Item → Prop
  | [] => True
  | item :: items =>
    (item.isCr → match items with
      | next :: rest => (next.isPartner → Clear rest) ∧ (¬ next.isPartner → Clear (next :: rest))
      | [] => True) ∧ Tidy items

def Link.pending (link : Link) : List UInt8 := link.session.content ++ link.incoming

/-- The bytes up to the end of the buffer do not end between a CR and its LF or NUL; a null byte that a read
drops from its end is the second byte of a pair whose CR is still in the buffer. -/
def Harmless (link : Link) : Step → Prop
  | .write _ => ∀ front cr partner back, link.pending = stream (front ++ cr :: partner :: back) →
      cr.isCr → partner.isPartner → (stream (front ++ [cr])).length ≠ link.session.part.length
  | .read count => (link.chunk count).getLast? = some 0 →
      ∃ front cr partner back, link.pending = stream (front ++ cr :: partner :: back) ∧ cr.isCr ∧
        partner.isPartner ∧ (stream (front ++ [cr,partner])).length
          = link.session.size1 + (link.chunk count).length
  | .reset => True

def HarmlessRun : Link → List Step → Prop
  | _,[] => True
  | link,s :: steps => Harmless link s ∧ HarmlessRun (step link s) steps

/-- No sequence lies across the end of the buffer. -/
def Unbroken (start : Nat) (items : List Item) : Prop :=
  ∀ front item back, items = front ++ item :: back → start + (stream front).length < bufSize →
    start + (stream front).length + item.bytes.length ≤ bufSize

def accepting : List Step → Nat
  | [] => 0
  | .write w :: steps => (if w = 0 then 0 else 1) + accepting steps
  | _ :: steps => accepting steps

def stored (link : Link) : List Step → List UInt8
  | [] => []
  | .read count :: steps =>
    (link.chunk count).take (arrived (link.chunk count)) ++ stored (step link (.read count)) steps
  | s :: steps => stored (step link s) steps

end Stablebox.Telnetd
