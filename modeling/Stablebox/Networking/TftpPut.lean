import Stablebox.Networking.Tftp

/-! A put: the log of a transfer, and that it goes block by block as long as every datagram
that comes in is the one the client waits for. -/
namespace Stablebox.Tftp

open Libbb List

inductive Entry where
  | sent (port : Nat) (bytes : List UInt8)
  | received (port : Nat) (bytes : List UInt8)
deriving DecidableEq

def Event.entries : Event → List Entry
  | .datagram source bytes => [.received source bytes]
  | _ => []

def Turn.entries (turn : Turn) : List Entry := turn.sent.map fun d => .sent d.1 d.2

/-- A run from a status on; events after `tftp()` has returned do not matter. -/
def runLog : Status → List Event → Status × List Entry
  | .exit c,_ => (.exit c,[])
  | .waiting c,[] => (.waiting c,[])
  | .waiting c,event :: events =>
    let turn := step c event
    let (status,log) := runLog turn.status events
    (status,event.entries ++ turn.entries ++ log)

def putLog (port : Nat) (remotefile : List UInt8) (blocksize : Nat) (file : List UInt8) (events : List Event) :
    Status × List Entry :=
  let turn := start .put port remotefile blocksize file
  let (status,log) := runLog turn.status events
  (status,turn.entries ++ log)

/-- Every datagram sent is the data packet of the current block, the one behind those that were
acknowledged from the transfer port. -/
def Conforms (file : List UInt8) (size first tid : Nat) : Nat → List Entry → Prop
  | _,[] => True
  | acked,.sent port bytes :: log =>
    port = tid ∧ bytes = dataPacket file size first acked ∧ Conforms file size first tid acked log
  | acked,.received port bytes :: log =>
    Conforms file size first tid
      (if port = tid ∧ bytes = ackPacket (first + acked) then acked + 1 else acked) log

def ackedBlocks (first tid : Nat) : Nat → List Entry → Nat
  | acked,[] => acked
  | acked,.sent _ _ :: log => ackedBlocks first tid acked log
  | acked,.received port bytes :: log =>
    ackedBlocks first tid (if port = tid ∧ bytes = ackPacket (first + acked) then acked + 1 else acked) log

/-- What may come in: the acknowledgement of the last packet, an error before the last block is
read, the answer to the options while it is waited for; and no end of the retries, or failing
call, once the last block is read. A server that does not know the option must not have been asked
for less than the default, which is more than the buffer then holds. -/
def Harmless (c : Client) : Event → Prop
  | .timeout => c.timeout - 1 = 0 → c.finished = false
  | .failure => c.finished = false
  | .datagram source bytes => (c.opcode = wrq ∨ source = c.sa) ∧
      ((bytes = ackPacket (c.blockNr - 1).toNat ∧ (c.wantOptionAck = true → blocksizeDefault + 4 ≤ c.bufsize)) ∨
       (c.finished = false ∧ ∃ rest, bytes = word error ++ rest) ∨
       (c.wantOptionAck = true ∧ ∃ rest, bytes = word oack ++ rest))

def HarmlessRun : Status → List Event → Prop
  | .waiting c,event :: events => Harmless c event ∧ HarmlessRun (step c event).status events
  | _,_ => True

variable {file : List UInt8} {size first tid acked : Nat} {c : Client}

/-- The client waits for the acknowledgement of a block. -/
structure Waits (file : List UInt8) (size first tid acked : Nat) (c : Client) : Prop where
  cmd : c.cmd = .put
  sa : c.sa = tid
  opcode : c.opcode = data
  bufsize : c.bufsize = size + 4
  large : 8 ≤ size
  want : c.wantOptionAck = false
  blockNr : c.blockNr.toNat = (first + acked + 1) % 65536
  packet : c.packet = dataPacket file size first acked
  input : c.input = file.drop ((acked + 1) * size)
  finished : c.finished = true ↔ acked + 1 = blockCount file size
  inside : acked < blockCount file size

/-! ### Block by block -/

theorem launch_data (c : Client) (file : List UInt8) (size first acked : Nat) (cmd : c.cmd = .put) (sa : c.sa = tid)
    (opcode : c.opcode = data) (bufsize : c.bufsize = size + 4) (large : 8 ≤ size) (want : c.wantOptionAck = false)
    (blockNr : c.blockNr.toNat = (first + acked) % 65536) (input : c.input = file.drop (acked * size))
    (finished : c.finished = false) (inside : acked < blockCount file size) :
    ∃ next, launch c = { status := .waiting next,sent := [(tid,dataPacket file size first acked)] } ∧
      Waits file size first tid acked next := by
  have count : c.bufsize - 4 = size := by omega
  have built := build_data cmd opcode
  have packet : word data ++ word c.blockNr.toNat ++ c.input.take (c.bufsize - 4)
      = dataPacket file size first acked := by rw [count,input,blockNr,dataPacket,block]
  rw [packet,count,input,drop_block,finished,Bool.false_or] at built
  have launched := launch_waits built (.inr (by simp only [put,opcode]; decide))
  rw [packet_put] at launched
  subst sa
  refine ⟨_,launched,?_⟩
  refine ⟨cmd,rfl,opcode,bufsize,large,want,?_,packet_put _ _,rfl,?_,inside⟩
  · simp only [arm,put,toNat_succ,blockNr]
    omega
  · have whole := block_length file size acked (by omega)
    rw [block] at whole
    simp only [arm,put,bne_iff_ne,ne_eq,whole]
    omega

theorem step_ack (cmd : c.cmd = .put) (here : c.sa = c.port ∨ tid = c.sa) (unfinished : c.finished = false)
    (room : 4 ≤ c.bufsize) :
    ∃ c', step c (.datagram tid (ackPacket (c.blockNr - 1).toNat)) = launch c' ∧ c'.cmd = .put ∧ c'.sa = tid ∧
      c'.opcode = data ∧ c'.wantOptionAck = false ∧ c'.finished = false ∧ c'.blockNr = c.blockNr ∧
      c'.input = c.input ∧ c'.bufsize = if c.wantOptionAck then blocksizeDefault + 4 else c.bufsize := by
  have fits : (c.blockNr - 1).toNat < 65536 := UInt16.toNat_lt _
  have shape : ackPacket (c.blockNr - 1).toNat = word ack ++ word (c.blockNr - 1).toNat := by
    rw [ackPacket,Nat.mod_eq_of_lt fits]
  have code := received_opcode c tid ack (word (c.blockNr - 1).toNat) (by decide) (by omega)
  have number := received_number c tid ack (c.blockNr - 1).toNat [] fits room
  rw [append_nil,← shape] at number
  rw [← shape] at code
  obtain ⟨stepped,sa⟩ := step_datagram (ackPacket (c.blockNr - 1).toNat) here
  cases want : c.wantOptionAck with
  | true =>
    have reverted := process_revert (c := receive c tid (ackPacket (c.blockNr - 1).toNat)) unfinished want
      (by rw [code]; decide) (by rw [code]; decide) (min (ackPacket (c.blockNr - 1).toNat).length c.bufsize)
    rw [code,number,answer,if_neg (by simp [revert,settle,recode,receive,cmd]),
      if_neg (by simp [revert,settle,recode,receive,cmd]),if_pos ⟨cmd,rfl,rfl⟩] at reverted
    exact ⟨_,stepped.trans reverted,cmd,sa,rfl,rfl,unfinished,rfl,rfl,rfl⟩
  | false =>
    have answered := process_answer (c := receive c tid (ackPacket (c.blockNr - 1).toNat)) unfinished want
      (by rw [code]; decide) (min (ackPacket (c.blockNr - 1).toNat).length c.bufsize)
    rw [code,number,answer,if_neg (by simp [recode,receive,cmd]),if_neg (by simp [recode,receive,cmd]),
      if_pos ⟨cmd,rfl,rfl⟩] at answered
    exact ⟨_,stepped.trans answered,cmd,sa,rfl,want,unfinished,rfl,rfl,rfl⟩

theorem step_error (here : c.sa = c.port ∨ tid = c.sa) (unfinished : c.finished = false) (room : 2 ≤ c.bufsize)
    (rest : List UInt8) : ∃ c', step c (.datagram tid (word error ++ rest)) = ⟨.exit c',[]⟩ ∧ c'.finished = false := by
  have code := received_opcode c tid error rest (by decide) room
  rw [(step_datagram _ here).1]
  exact ⟨_,process_error (c := receive c tid (word error ++ rest)) unfinished code _,unfinished⟩

theorem Waits.step (waits : Waits file size first tid acked c) (event : Event) (harmless : Harmless c event) :
    (∃ c', (step c event).status = .exit c' ∧
      Conforms file size first tid acked (event.entries ++ (step c event).entries) ∧
      (c'.finished = true → ackedBlocks first tid acked (event.entries ++ (step c event).entries) =
        blockCount file size)) ∨
    (∃ c' acked', (step c event).status = .waiting c' ∧ Waits file size first tid acked' c' ∧
      ∀ log, (Conforms file size first tid acked' log →
          Conforms file size first tid acked (event.entries ++ (step c event).entries ++ log)) ∧
        ackedBlocks first tid acked (event.entries ++ (step c event).entries ++ log)
          = ackedBlocks first tid acked' log) := by
  obtain ⟨cmd,sa,opcode,bufsize,large,want,blockNr,packet,input,finished,inside⟩ := waits
  cases event with
  | timeout =>
    simp only [Tftp.step]
    split_ifs with last
    · have unfinished := harmless last
      exact .inl ⟨c,rfl,trivial,fun done => by cases unfinished.symm.trans done⟩
    · refine .inr ⟨_,acked,rfl,⟨cmd,sa,opcode,bufsize,large,want,blockNr,packet,input,finished,inside⟩,
        fun log => ⟨?_,rfl⟩⟩
      intro rest
      exact ⟨sa,packet,rest⟩
  | failure =>
    have unfinished : c.finished = false := harmless
    exact .inl ⟨c,rfl,trivial,fun done => by cases unfinished.symm.trans done⟩
  | datagram source bytes =>
    obtain ⟨from_sa,kind⟩ := harmless
    have from_sa : source = c.sa := from_sa.resolve_left (by rw [opcode]; decide)
    obtain rfl : source = tid := from_sa.trans sa
    rcases kind with ⟨rfl,_⟩ | ⟨unfinished,rest,rfl⟩ | ⟨wants,_⟩
    · -- The acknowledgement of the block.
      have number : (c.blockNr - 1).toNat = (first + acked) % 65536 := toNat_pred blockNr
      have acknowledged : (.datagram source (ackPacket (c.blockNr - 1).toNat) : Event).entries
          = [.received source (ackPacket (first + acked))] := by
        simp [Event.entries,number,ackPacket]
      by_cases done : c.finished = true
      · have ends : Tftp.step c (.datagram source (ackPacket (c.blockNr - 1).toNat))
            = ⟨.exit (receive c source (ackPacket (c.blockNr - 1).toNat)),[]⟩ :=
          (step_datagram _ (.inr from_sa)).1.trans
            (process_finished (c := receive c source (ackPacket (c.blockNr - 1).toNat)) done _)
        rw [acknowledged,ends]
        refine .inl ⟨_,rfl,by simp [Turn.entries,Conforms],fun _ => ?_⟩
        simpa [Turn.entries,ackedBlocks] using finished.mp done
      · have unfinished : c.finished = false := by simpa using done
        obtain ⟨c',stepped,cmd',sa',opcode',want',unfinished',blockNr',input',bufsize'⟩ :=
          step_ack cmd (.inr from_sa) unfinished (by omega)
        rw [want] at bufsize'
        have more := finished.not.mp done
        obtain ⟨next,launched,waits⟩ := launch_data _ file size first (acked + 1) cmd' sa' opcode'
          (bufsize'.trans bufsize) large want' (by rw [blockNr',blockNr,Nat.add_assoc]) (input'.trans input) unfinished'
          (by omega)
        rw [acknowledged,stepped,launched]
        refine .inr ⟨next,acked + 1,rfl,waits,fun log => ⟨fun rest => ?_,?_⟩⟩
        · simpa [Turn.entries,Conforms] using rest
        · simp [Turn.entries,ackedBlocks]
    · obtain ⟨c',stepped,fails⟩ := step_error (.inr from_sa) unfinished (by omega) rest
      rw [stepped]
      refine .inl ⟨c',rfl,by simp [Event.entries,Turn.entries,Conforms],fun done => ?_⟩
      cases fails.symm.trans done
    · cases want.symm.trans wants

theorem runLog_cons (c : Client) (event : Event) (events : List Event) :
    runLog (.waiting c) (event :: events) = ((runLog (step c event).status events).1,
      event.entries ++ (step c event).entries ++ (runLog (step c event).status events).2) := rfl

theorem runLog_exit (c : Client) (events : List Event) : runLog (.exit c) events = (.exit c,[]) := by
  cases events <;> rfl

theorem Waits.run (events : List Event) (waits : Waits file size first tid acked c)
    (harmless : HarmlessRun (.waiting c) events) :
    Conforms file size first tid acked (runLog (.waiting c) events).2 ∧
      ((runLog (.waiting c) events).1.succeeded = true →
        ackedBlocks first tid acked (runLog (.waiting c) events).2 = blockCount file size) := by
  induction events generalizing c acked with
  | nil => exact ⟨trivial,fun done => by cases done⟩
  | cons event events ih =>
    obtain ⟨now,later⟩ := harmless
    rw [runLog_cons]
    rcases waits.step event now with ⟨c',ends,conforms,all⟩ | ⟨c',acked',goes,waits',log⟩
    · rw [ends,runLog_exit,append_nil]
      exact ⟨conforms,all⟩
    rw [goes] at later ⊢
    obtain ⟨conforms,all⟩ := ih waits' later
    refine ⟨(log _).1 conforms,fun done => ?_⟩
    rw [(log _).2]
    exact all done

/-! ### The request -/

/-- The client waits for the answer to its request. -/
structure Asks (port asked : Nat) (file : List UInt8) (c : Client) : Prop where
  cmd : c.cmd = .put
  unlocked : c.port = port
  sa : c.sa = port
  opcode : c.opcode = wrq
  bufsize : c.bufsize = asked + 4
  large : 8 ≤ asked
  want : c.wantOptionAck = false → asked = blocksizeDefault
  blockNr : c.blockNr = 1
  packet : word wrq <+: c.packet
  input : c.input = file
  finished : c.finished = false

/-- A log in order: requests, an answer, and then the blocks one by one. -/
def InOrder (port asked : Nat) (file : List UInt8) (run : Status × List Entry) : Prop :=
  ∃ requests rest, run.2 = requests ++ rest ∧
    (∀ entry ∈ requests, ∃ bytes, entry = .sent port bytes ∧ word wrq <+: bytes) ∧
    ((rest = [] ∧ run.1.succeeded = false) ∨
      ∃ tid reply log size first, rest = .received tid reply :: log ∧
        ((size = blocksizeDefault ∧ first = 1) ∨ (8 ≤ size ∧ size ≤ asked ∧ first = 0)) ∧
        Conforms file size first tid 0 log ∧
        (run.1.succeeded = true → ackedBlocks first tid 0 log = blockCount file size))

variable {port asked : Nat}

theorem InOrder.request (order : InOrder port asked file (status,log)) (wanted : word wrq <+: bytes) :
    InOrder port asked file (status,.sent port bytes :: log) := by
  obtain ⟨requests,rest,split,all,more⟩ := order
  exact ⟨.sent port bytes :: requests,rest,by rw [cons_append]; exact congrArg _ split,
    forall_mem_cons.mpr ⟨⟨bytes,rfl,wanted⟩,all⟩,more⟩

theorem inOrder_fails (fails : status.succeeded = false) :
    InOrder port asked file (status,[]) := ⟨[],[],rfl,by simp,.inl ⟨rfl,fails⟩⟩

theorem inOrder_ended (fails : status.succeeded = false) : InOrder port asked file (status,[.received tid reply]) :=
  ⟨[],_,rfl,by simp,.inr ⟨tid,reply,[],blocksizeDefault,1,rfl,.inl ⟨rfl,rfl⟩,trivial,fun done => by
    rw [fails] at done
    cases done⟩⟩

theorem inOrder_started (sizes : (size = blocksizeDefault ∧ first = 1) ∨ (8 ≤ size ∧ size ≤ asked ∧ first = 0))
    (launched : launch c = ⟨.waiting c',[(tid,dataPacket file size first 0)]⟩) (waits : Waits file size first tid 0 c')
    (harmless : HarmlessRun (launch c).status events) :
    InOrder port asked file ((runLog (launch c).status events).1,
      [.received tid reply] ++ (launch c).entries ++ (runLog (launch c).status events).2) := by
  rw [launched] at harmless ⊢
  obtain ⟨conforms,all⟩ := waits.run events harmless
  exact ⟨[],_,rfl,by simp,.inr ⟨tid,reply,_,size,first,rfl,sizes,⟨rfl,rfl,conforms⟩,all⟩⟩

theorem Asks.run (events : List Event) (asks : Asks port asked file c)
    (harmless : HarmlessRun (.waiting c) events) : InOrder port asked file (runLog (.waiting c) events) := by
  induction events generalizing c with
  | nil => exact inOrder_fails rfl
  | cons event events ih =>
    obtain ⟨now,later⟩ := harmless
    obtain ⟨cmd,port',sa,opcode,bufsize,large,want,blockNr,packet,input,finished⟩ := asks
    rw [runLog_cons]
    cases event with
    | timeout =>
      by_cases last : c.timeout - 1 = 0
      · simp only [step,last,if_true,runLog_exit]
        exact inOrder_fails finished
      have resent : step c .timeout = resend (arm c (c.timeout - 1)) := by rw [step,if_neg last]
      rw [resent] at later ⊢
      have again := ih (c := arm c (c.timeout - 1))
        ⟨cmd,port',sa,opcode,bufsize,large,want,blockNr,packet,input,finished⟩ later
      have sent := InOrder.request again packet
      rw [← sa] at sent
      rw [← sa]
      exact sent
    | failure =>
      have ends : step c .failure = ⟨.exit c,[]⟩ := rfl
      rw [ends,runLog_exit]
      exact inOrder_fails finished
    | datagram source bytes =>
      have here : c.sa = c.port ∨ source = c.sa := .inl (sa.trans port'.symm)
      rcases now.2 with ⟨rfl,fits⟩ | ⟨_,rest,rfl⟩ | ⟨wants,rest,rfl⟩
      · obtain ⟨c',stepped,cmd',sa',opcode',want',unfinished',blockNr',input',bufsize'⟩ :=
          step_ack cmd here finished (by omega)
        have size : c'.bufsize = blocksizeDefault + 4 := by
          rw [bufsize']
          split
          · rfl
          · rename_i other
            rw [bufsize,want (by simpa using other)]
        obtain ⟨next,launched,waits⟩ := launch_data c' file blocksizeDefault 1 0 cmd' sa' opcode' size
          (by decide) want' (by rw [blockNr',blockNr]; rfl)
            (by rw [input',input]; simp) unfinished' (by simp [blockCount])
        rw [stepped] at later ⊢
        exact inOrder_started (.inl ⟨rfl,rfl⟩) launched waits later
      · obtain ⟨c',stepped,fails⟩ := step_error here finished (by omega) rest
        rw [stepped,runLog_exit]
        exact inOrder_ended fails
      · have code := received_opcode c source oack rest (by decide) (by omega)
        obtain ⟨stepped,sa'⟩ := step_datagram (word oack ++ rest) here
        rw [process_oack (c := receive c source (word oack ++ rest)) finished wants code] at stepped
        cases agreed : optionAck (settle (recode (receive c source (word oack ++ rest)) oack))
            (min (word oack ++ rest).length c.bufsize) with
        | none =>
          rw [agreed] at stepped
          rw [stepped,runLog_exit]
          exact inOrder_ended finished
        | some c' =>
          rw [agreed] at stepped
          obtain ⟨blksize,rfl,least,most⟩ := optionAck_some agreed (by simp only [settle,recode,receive]; omega)
          simp only [settle,recode,receive] at most
          obtain ⟨next,launched,waits⟩ := launch_data
            (agree (settle (recode (receive c source (word oack ++ rest)) oack)) blksize) file blksize 0 0 cmd sa'
            (by simp [agree,settle,recode,receive,cmd]) rfl least rfl rfl
              (by rw [← input]; simp [agree,settle,recode,receive])
            finished (by simp [blockCount])
          rw [stepped] at later ⊢
          exact inOrder_started (.inr ⟨least,by omega,rfl⟩) launched waits later

theorem start_asks (port : Nat) (remotefile file : List UInt8) (large : 8 ≤ asked) :
    (∃ c, start .put port remotefile asked file = ⟨.exit c,[]⟩ ∧ c.finished = false) ∨
    ∃ c, start .put port remotefile asked file = ⟨.waiting c,[(port,c.packet)]⟩ ∧ Asks port asked file c := by
  rw [start]
  generalize stated : Client.mk .put port port remotefile _ _ _ _ _ _ _ _ _ _ = c
  have built : build c = request c := by
    subst stated
    rfl
  cases requested : request c with
  | none =>
    refine .inl ⟨c,?_,by subst stated; rfl⟩
    rw [launch,built,requested]
  | some next =>
    right
    obtain ⟨want,rest,rfl,wants⟩ := request_some requested
    have more : c.finished = false := by
      subst stated
      rfl
    refine ⟨_,(launch_waits (built.trans requested) (.inl more)).trans (by subst stated; rfl),?_⟩
    have packet := packet_put { c with wantOptionAck := want } (word c.opcode ++ rest)
    subst stated
    refine ⟨rfl,rfl,rfl,rfl,rfl,large,?_,rfl,?_,rfl,rfl⟩
    · intro quiet
      have none : want = false := quiet
      rw [none] at wants
      simpa using wants.symm
    · exact ⟨rest,packet.symm⟩

/-- A put that is answered only as it should be sends its blocks in order, each after the acknowledgement of the
one in front of it, and is successful only when every block has been acknowledged. -/
theorem tftp_put_acknowledged (port asked : Nat) (remotefile file : List UInt8) (large : 8 ≤ asked)
    (events : List Event)
    (harmless : HarmlessRun (start .put port remotefile asked file).status events) :
    InOrder port asked file (putLog port remotefile asked file events) := by
  rcases start_asks port remotefile file large with ⟨c,begun,fails⟩ | ⟨c,begun,asks⟩
  · rw [putLog,begun,runLog_exit]
    exact inOrder_fails fails
  · rw [begun] at harmless
    rw [putLog,begun]
    exact (asks.run events harmless).request asks.packet

theorem tftp_put_acknowledged_twoBytes :
    let events := [.datagram 2000 (ackPacket 0),.timeout,.datagram 2000 (ackPacket 1)]
    (putLog 69 (text "f") 512 (text "hi") events).1.succeeded = true ∧
      InOrder 69 512 (text "hi") (putLog 69 (text "f") 512 (text "hi") events) :=
  ⟨by decide +kernel,tftp_put_acknowledged 69 512 (text "f") (text "hi") (by decide) _
    ⟨⟨.inl rfl,.inl ⟨by decide +kernel,by decide +kernel⟩⟩,fun last => absurd last (by decide +kernel),
      ⟨.inr rfl,.inl ⟨by decide +kernel,by decide +kernel⟩⟩,trivial⟩⟩

/-- An empty file whose only block is never acknowledged is sent with success, and a stray datagram takes the
place of that block when it is sent again. -/
theorem tftp_put_unacknowledged :
    ((putLog 69 (text "f") 512 [] (.datagram 2000 (ackPacket 0) :: replicate 5 .timeout)).1.succeeded = true ∧
      ∀ entry ∈ (putLog 69 (text "f") 512 [] (.datagram 2000 (ackPacket 0) :: replicate 5 .timeout)).2,
        entry ≠ .received 2000 (ackPacket 1)) ∧
    .sent 2000 (text "junk") ∈
      (putLog 69 (text "f") 512 [] [.datagram 2000 (ackPacket 0),.datagram 3000 (text "junk")]).2 := by
  decide +kernel

end Stablebox.Tftp
