import Stablebox.Networking.Tftp
import Stablebox.Lib.Runs

/-! A get from a server that follows the protocol, over a network that loses and doubles datagrams. Every
request that arrives opens a transfer at a port of its own. -/
namespace Stablebox.Tftp

open Libbb Digits Function

structure Setting where
  port : Nat
  remotefile : List UInt8
  asked : Nat
  file : List UInt8
  /-- Does the server know the option? -/
  supports : Bool

def requestPacket (opcode : Nat) (name : List UInt8) (size : Option Nat) : List UInt8 :=
  word opcode ++ name ++ [0] ++ text "octet" ++ [0] ++
    match size with
    | none => []
    | some size => text "blksize" ++ [0] ++ print 10 0 size ++ [0]

structure Transfer where
  blksize : Nat
  /-- Was the request answered with the options? -/
  oack : Bool
  /-- The last block that has been sent, counted from 1. -/
  latest : Nat

/-- A transfer for a request: with the option acknowledged, no block is sent yet. -/
def Setting.Serves (g : Setting) (size : Option Nat) (t : Transfer) : Prop :=
  match size,g.supports with
  | some size,true => t.oack = true ∧ 8 ≤ t.blksize ∧ t.blksize ≤ size ∧ t.latest = 0
  | _,_ => t = ⟨blocksizeDefault,false,1⟩

/-- What can come from a transfer when `count` blocks have been received. No block is older than 65536 blocks. -/
inductive Transfer.Sends (file : List UInt8) (t : Transfer) (count : Nat) : List UInt8 → Prop where
  | options (acknowledged : t.oack = true) (name : List UInt8) (named : name.map lower = text "blksize") :
    Sends file t count (word Tftp.oack ++ (name ++ [0] ++ print 10 0 t.blksize ++ [0]))
  | block (i : Nat) (sent : i < t.latest) (young : count < i + 65536) :
    Sends file t count (dataPacket file t.blksize 1 i)
  | error (rest : List UInt8) : Sends file t count (word Tftp.error ++ rest)

structure Sent where
  dest : Nat
  bytes : List UInt8
  count : Nat

/-- The client, the transfers by their ports, and every datagram that the client has sent. -/
structure System where
  status : Status
  transfers : Nat → Option Transfer
  log : List Sent

def System.turn (s : System) (turn : Turn) : System :=
  { s with
    status := turn.status
    log := s.log ++ turn.sent.map fun d => ⟨d.1,d.2,turn.status.client.written.length⟩ }

def System.serve (s : System) (tid : Nat) (t : Transfer) : System :=
  { s with transfers := update s.transfers tid (some t) }

@[simp] theorem System.serve_self (s : System) (tid : Nat) (t : Transfer) : (s.serve tid t).transfers tid = some t :=
  update_self ..

theorem System.serve_other (s : System) (t : Transfer) (other : tid' ≠ tid) :
    (s.serve tid t).transfers tid' = s.transfers tid' := update_of_ne other ..

theorem System.serve_all {s : System} {P : Nat → Transfer → Prop} (old : ∀ tid t, s.transfers tid = some t → P tid t)
    (new : P tid t) (tid' : Nat) (t' : Transfer) (opened : (s.serve tid t).transfers tid' = some t') : P tid' t' := by
  by_cases same : tid' = tid
  · subst same
    rw [System.serve_self] at opened
    obtain rfl := Option.some.inj opened
    exact new
  · rw [System.serve_other s t same] at opened
    exact old tid' t' opened

/-- A datagram that was sent can arrive any number of times, or never. -/
inductive Move (g : Setting) (s : System) : System → Prop where
  | timeout (c : Client) (waits : s.status = .waiting c) : Move g s (s.turn (step c .timeout))
  | failure (c : Client) (waits : s.status = .waiting c) : Move g s (s.turn (step c .failure))
  | deliver (c : Client) (waits : s.status = .waiting c) (tid : Nat) (t : Transfer) (opened : s.transfers tid = some t)
    (bytes : List UInt8) (sends : t.Sends g.file c.written.length bytes) :
    Move g s (s.turn (step c (.datagram tid bytes)))
  | accept (size : Option Nat) (count : Nat)
    (heard : ⟨g.port,requestPacket rrq g.remotefile size,count⟩ ∈ s.log) (tid : Nat) (other : tid ≠ g.port)
    (fresh : s.transfers tid = none) (t : Transfer) (serves : g.Serves size t) : Move g s (s.serve tid t)
  | acknowledge (tid : Nat) (t : Transfer) (opened : s.transfers tid = some t) (count : Nat)
    (heard : ⟨tid,ackPacket t.latest,count⟩ ∈ s.log) (young : t.latest < count + 65536)
    (more : t.latest < blockCount g.file t.blksize) : Move g s (s.serve tid { t with latest := t.latest + 1 })

def Setting.initial (g : Setting) : System :=
  System.turn ⟨.exit (start .get g.port g.remotefile g.asked []).status.client,fun _ => none,[]⟩
    (start .get g.port g.remotefile g.asked [])

def Setting.Reachable (g : Setting) : System → Prop := Relation.ReflTransGen (Move g) g.initial

def Setting.Complete (g : Setting) (status : Status) : Prop :=
  status.succeeded = true → status.client.written.flatten = g.file

/-! ### The client while blocks arrive -/

/-- The first blocks have been written, and more are to come. -/
structure Holds (file : List UInt8) (size port tid : Nat) (c : Client) : Prop where
  cmd : c.cmd = .get
  unlocked : c.port = port
  sa : c.sa = tid
  bufsize : c.bufsize = size + 4
  large : 8 ≤ size
  want : c.wantOptionAck = false
  finished : c.finished = false
  written : c.written = (List.range c.written.length).map (block file size)
  more : c.written.length < blockCount file size

/-- The client waits for the next block. If its packet acknowledges one, then the last one. -/
structure Loads (file : List UInt8) (size port tid : Nat) (c : Client) : Prop extends Holds file size port tid c where
  blockNr : c.blockNr.toNat = (c.written.length + 1) % 65536
  cp : 2 ≤ c.cp
  packet : word ack <+: c.packet → c.packet = ackPacket c.written.length

variable {file : List UInt8} {size port tid : Nat} {c : Client}

theorem launch_ack (holds : Holds file size port tid c) (opcode : c.opcode = ack)
    (blockNr : c.blockNr.toNat = c.written.length % 65536) :
    ∃ next, launch c = ⟨.waiting next,[(tid,next.packet)]⟩ ∧ Loads file size port tid next ∧
      next.written = c.written := by
  have built := build_ack holds.cmd opcode
  have sent : (arm (put { c with blockNr := c.blockNr + 1 } (word ack ++ word c.blockNr.toNat)) numRetries).packet
      = ackPacket c.written.length := by rw [ackPacket,← blockNr]; exact packet_put _ _
  refine ⟨arm (put { c with blockNr := c.blockNr + 1 } (word ack ++ word c.blockNr.toNat)) numRetries,
    (launch_waits built (.inl holds.finished)).trans ?_,⟨{ holds with },?_,?_,fun _ => sent⟩,rfl⟩
  · rw [← holds.sa]
    rfl
  · simp only [arm,put,toNat_succ,blockNr]
    omega
  · simp [arm,put]

theorem launch_other (holds : Holds file size port tid c) (request : c.opcode ≠ rrq) (acknowledge : c.opcode ≠ ack)
    (small : c.opcode < 65536) (blockNr : c.blockNr.toNat = (c.written.length + 1) % 65536) :
    ∃ next, launch c = ⟨.waiting next,[(tid,next.packet)]⟩ ∧ Loads file size port tid next ∧
      next.written = c.written := by
  have built := build_other holds.cmd request acknowledge
  refine ⟨arm (put c (word c.opcode)) numRetries,(launch_waits built (.inl holds.finished)).trans ?_,
    ⟨{ holds with },blockNr,?_,?_⟩,rfl⟩
  · rw [← holds.sa]
    rfl
  · simp [arm,put]
  · intro starts
    exact absurd ((word_inj (by decide) small).mp (starts.eq_of_length rfl)).symm acknowledge

theorem launch_store (holds : Holds file size port tid c) (blockNr : c.blockNr.toNat = (c.written.length + 1) % 65536)
    (content : c.buf.get 4 (len - 4) = block file size c.written.length) :
    (∃ next, launch (store c len) = ⟨.waiting next,[(tid,next.packet)]⟩ ∧ Loads file size port tid next ∧
      next.written.length = c.written.length + 1) ∨
    ∃ next sent, launch (store c len) = ⟨.exit next,sent⟩ ∧ next.written.flatten = file := by
  have count : len - 4 = (block file size c.written.length).length := by
    rw [← content]
    simp [Memory.get]
  have written : (store c len).written = (List.range (c.written.length + 1)).map (block file size) := by
    rw [List.range_succ,List.map_append,← holds.written]
    simp only [store,content,List.map_cons,List.map_nil]
  have total : (store c len).written.length = c.written.length + 1 := by rw [written]; simp
  have last := block_length file size c.written.length (by have := holds.large; omega)
  have room : c.bufsize - 4 = size := by rw [holds.bufsize]; rfl
  by_cases short : (block file size c.written.length).length = size
  · left
    have finished : (store c len).finished = false := by simp [store,holds.finished,count,short,room]
    obtain ⟨next,launched,loads,same⟩ := launch_ack (c := store c len)
      { holds with
        finished, written := by rw [total]; exact written,
        more := by rw [total]; exact last.mp short } rfl (by rw [total]; exact blockNr)
    exact ⟨next,launched,loads,by rw [same,total]⟩
  · right
    have finished : (store c len).finished = true := by simp [store,count,short,room]
    have built := build_ack (c := store c len) holds.cmd rfl
    refine ⟨_,_,launch_ends built finished rfl,?_⟩
    exact (congrArg List.flatten written).trans (blocks_whole short)

/-- The client goes on, with the next block perhaps if `latest` is behind it, or ends. -/
def Advances (file : List UInt8) (size port tid count latest : Nat) (turn : Turn) : Prop :=
  (∃ next, turn = ⟨.waiting next,[(tid,next.packet)]⟩ ∧ Loads file size port tid next ∧
    (next.written.length = count ∨ (next.written.length = count + 1 ∧ count < latest))) ∨
  ∃ next sent, turn = ⟨.exit next,sent⟩ ∧ (next.finished = true → next.written.flatten = file)

theorem Advances.ended (sent : List (Nat × List UInt8)) (ends : turn = ⟨.exit c,sent⟩) (fails : c.finished = false) :
    Advances file size port tid count latest turn :=
  .inr ⟨c,sent,ends,fun done => by cases fails.symm.trans done⟩

theorem Loads.timeout (loads : Loads file size port tid c) (latest : Nat) :
    Advances file size port tid c.written.length latest (step c .timeout) := by
  by_cases last : c.timeout - 1 = 0
  · exact .ended [] (by rw [step,if_pos last]) loads.finished
  refine .inl ⟨arm c (c.timeout - 1),?_,?_,.inl rfl⟩
  · rw [step,if_neg last,← loads.sa]
    rfl
  · exact { loads with }

theorem Loads.stray (loads : Loads file size port tid c) (locked : tid ≠ port) (latest : Nat) (other : source ≠ tid)
    (rest : List UInt8) (small : code < 65536) (foreign : code ≠ ack) :
    Advances file size port tid c.written.length latest (step c (.datagram source (word code ++ rest))) := by
  have sa : (receive c source (word code ++ rest)).sa = tid := by
    simp only [receive]
    rw [if_neg (by rw [loads.sa,loads.unlocked]; exact locked),loads.sa]
  refine .inl ⟨arm (receive c source (word code ++ rest)) (numRetries - 1),?_,?_,.inl rfl⟩
  · rw [step,if_neg (by rw [sa]; exact fun same => other same.symm),resend]
    rw [← sa]
    rfl
  · refine { loads with sa, packet := fun starts => ?_ }
    have read := packet_opcode starts (by decide)
    have here := received_opcode c source code rest small (by have := loads.bufsize; omega)
    exact absurd (here.symm.trans read) foreign

theorem Holds.recode (holds : Holds file size port tid c) (opcode : Nat) : Holds file size port tid (recode c opcode) :=
  { holds with }

theorem Holds.answer (holds : Holds file size port tid c) (opcode : c.opcode = data)
    (blockNr : c.blockNr.toNat = (c.written.length + 1) % 65536) (i latest : Nat) (sent : i < latest)
    (inside : latest ≤ c.written.length + 1) (young : c.written.length < i + 65536) (len : Nat)
    (long : 4 ≤ len) (content : c.buf.get 4 (len - 4) = block file size i) :
    Advances file size port tid c.written.length latest (answer c len ((1 + i) % 65536)) := by
  by_cases next : (1 + i) % 65536 = c.blockNr.toNat
  · have here : i = c.written.length := by omega
    rw [Tftp.answer,if_pos ⟨holds.cmd,opcode,next⟩,if_neg (not_lt.mpr long)]
    rcases launch_store holds blockNr (by rw [content,here]) with ⟨c',launched,loads,count⟩ | ⟨c',sent,ended,whole⟩
    · exact .inl ⟨c',launched,loads,.inr ⟨count,by omega⟩⟩
    · exact .inr ⟨c',sent,ended,fun _ => whole⟩
  · rw [Tftp.answer,if_neg fun all => next all.2.2]
    by_cases again : (((1 + i) % 65536 : Nat) : Int) = c.blockNr.toNat - 1
    · rw [if_pos ⟨holds.cmd,opcode,again⟩]
      obtain ⟨c',launched,loads,same⟩ := launch_ack (c := { c with blockNr := c.blockNr - 1,opcode := ack })
        { holds with } rfl (toNat_pred blockNr)
      exact .inl ⟨c',launched,loads,.inl (by rw [same])⟩
    · rw [if_neg fun all => again all.2.2,if_neg fun all => by cases holds.cmd.symm.trans all.1]
      obtain ⟨c',launched,loads,same⟩ := launch_other holds (by rw [opcode]; decide) (by rw [opcode]; decide)
        (by rw [opcode]; decide) blockNr
      exact .inl ⟨c',launched,loads,.inl (by rw [same])⟩

theorem Loads.deliver (loads : Loads file size port tid c) (t : Transfer) (blksize : t.blksize = size)
    (latest : t.latest ≤ c.written.length + 1) (sends : t.Sends file c.written.length bytes) :
    Advances file size port tid c.written.length t.latest (step c (.datagram tid bytes)) := by
  obtain ⟨stepped,sa⟩ := step_datagram bytes (.inr loads.sa.symm)
  rw [stepped]
  have room := loads.bufsize
  have received : Holds file size port tid (receive c tid bytes) :=
    ⟨loads.cmd,loads.unlocked,sa,loads.bufsize,loads.large,loads.want,loads.finished,loads.written,loads.more⟩
  cases sends with
  | error rest =>
    have code := received_opcode c tid error rest (by decide) (by omega)
    exact .ended [] (process_error received.finished code _) received.finished
  | options _ name _ =>
    have code := received_opcode c tid oack (name ++ [0] ++ print 10 0 t.blksize ++ [0]) (by decide) (by omega)
    rw [process_answer received.finished received.want (by rw [code]; decide),code,answer,
      if_neg fun all => absurd all.2.1 (by decide : oack ≠ data),
      if_neg fun all => absurd all.2.1 (by decide : oack ≠ data),
      if_neg fun all => absurd all.2.1 (by decide : oack ≠ ack)]
    obtain ⟨next,launched,goes,same⟩ := launch_other (received.recode oack) (by decide : oack ≠ rrq)
      (by decide : oack ≠ ack) (by decide : oack < 65536) loads.blockNr
    exact .inl ⟨next,launched,goes,.inl (by rw [same]; rfl)⟩
  | block i sent young =>
    have code := received_opcode c tid data (word ((1 + i) % 65536) ++ block file t.blksize i) (by decide) (by omega)
    have number := received_number c tid data ((1 + i) % 65536) (block file t.blksize i) (Nat.mod_lt _ (by decide))
      (by omega)
    have content := received_content c tid (word data ++ word ((1 + i) % 65536)) (block file t.blksize i)
    rw [List.append_assoc,List.length_append,word_length,word_length] at content
    rw [List.append_assoc] at number
    rw [dataPacket,List.append_assoc] at received ⊢
    rw [process_answer received.finished received.want (by rw [code]; decide),code,number]
    have whole : (block file size i).take (c.bufsize - 4) = block file size i :=
      List.take_of_length_le (by rw [room,block,List.length_take]; omega)
    rw [blksize,whole] at content
    exact (received.recode data).answer rfl loads.blockNr i t.latest sent latest young _
      (by simp [word_length]; omega) (by rw [blksize]; exact content)

/-! ### The request -/

def sizeOption (asked : Nat) : Option Nat := if asked = blocksizeDefault then none else some asked

def Setting.Fits (g : Setting) : Prop := g.remotefile.length + (if g.asked = blocksizeDefault then 6 else 21) ≤ g.asked

/-- The client waits for an answer to its request. -/
structure Requests (g : Setting) (c : Client) : Prop where
  cmd : c.cmd = .get
  unlocked : c.port = g.port
  sa : c.sa = g.port
  bufsize : c.bufsize = g.asked + 4
  want : c.wantOptionAck = decide (g.asked ≠ blocksizeDefault)
  blockNr : c.blockNr = 1
  packet : c.packet = requestPacket rrq g.remotefile (sizeOption g.asked)
  written : c.written = []
  finished : c.finished = false

theorem print_short (n : Nat) (small : n < 100000) : (print 10 0 n).length ≤ 5 := by
  have short := (render_length_iff (by decide : 1 < 10) (by decide : 0 < 5)).mpr small
  simpa [print] using short

theorem request_fits (g : Setting) (small : g.asked < 100000) (fits : g.Fits) (c : Client) (opcode : c.opcode = rrq)
    (name : c.remotefile = g.remotefile) (bufsize : c.bufsize = g.asked + 4) (want : c.wantOptionAck = false) :
    request c = some (put { c with wantOptionAck := decide (g.asked ≠ blocksizeDefault) }
      (requestPacket rrq g.remotefile (sizeOption g.asked))) := by
  have room : c.bufsize - 4 = g.asked := by omega
  rw [Setting.Fits,← name] at fits
  have digits : (print 10 0 g.asked).take 5 = print 10 0 g.asked := List.take_of_length_le (print_short _ small)
  by_cases default : g.asked = blocksizeDefault
  · rw [if_pos default] at fits
    simp only [request,room]
    have quiet : decide (g.asked ≠ blocksizeDefault) = c.wantOptionAck := by simp [default,want]
    rw [if_neg (by omega),if_neg (by omega),if_neg (not_not.mpr default),quiet]
    refine congrArg (fun packet => some (put c packet)) ?_
    simp [requestPacket,sizeOption,default,opcode,name]
  · rw [if_neg default] at fits
    simp only [request,room]
    rw [if_neg (by omega),if_neg (by omega),if_pos default,if_neg (by omega),digits]
    simp [requestPacket,sizeOption,default,opcode,name]

variable {g : Setting}

theorem request_large (large : ¬ g.Fits) (name : c.remotefile = g.remotefile) (bufsize : c.bufsize = g.asked + 4) :
    request c = none := by
  have room : c.bufsize - 4 = g.asked := by omega
  rw [Setting.Fits,← name] at large
  simp only [request,room]
  split
  · rfl
  split
  · rfl
  split
  · rename_i other
    rw [if_neg other] at large
    exact if_pos (by omega)
  · rename_i default
    rw [if_pos (not_not.mp default)] at large
    omega

theorem start_get (g : Setting) (small : g.asked < 100000) (fits : g.Fits) :
    ∃ c, start .get g.port g.remotefile g.asked [] = ⟨.waiting c,[(g.port,c.packet)]⟩ ∧ Requests g c := by
  rw [start]
  generalize stated : Client.mk .get g.port g.port g.remotefile _ _ _ _ _ _ _ _ _ _ = c
  have built : build c = request c := by
    subst stated
    rfl
  have requested := request_fits g small fits c (by subst stated; rfl) (by subst stated; rfl) (by subst stated; rfl)
    (by subst stated; rfl)
  refine ⟨arm (put { c with wantOptionAck := decide (g.asked ≠ blocksizeDefault) }
    (requestPacket rrq g.remotefile (sizeOption g.asked))) numRetries,
    (launch_waits (built.trans requested) (.inl (by subst stated; rfl))).trans (by subst stated; rfl),?_⟩
  have packet := packet_put { c with wantOptionAck := decide (g.asked ≠ blocksizeDefault) }
    (requestPacket rrq g.remotefile (sizeOption g.asked))
  subst stated
  exact ⟨rfl,rfl,rfl,rfl,rfl,rfl,packet,rfl,rfl⟩

theorem start_large (large : ¬ g.Fits) :
    ∃ c, start .get g.port g.remotefile g.asked [] = ⟨.exit c,[]⟩ ∧ c.finished = false := by
  rw [start]
  generalize stated : Client.mk .get g.port g.port g.remotefile _ _ _ _ _ _ _ _ _ _ = c
  have built : build c = request c := by
    subst stated
    rfl
  refine ⟨c,?_,by subst stated; rfl⟩
  rw [launch,built,request_large large (by subst stated; rfl) (by subst stated; rfl)]

theorem requestPacket_inj (same : requestPacket opcode name a = requestPacket opcode name b) : a = b := by
  have options := List.append_cancel_left same
  cases a with
  | none =>
    cases b with
    | none => rfl
    | some b => simp [text] at options
  | some a =>
    cases b with
    | none => simp [text] at options
    | some b =>
      have printed : print 10 0 a = print 10 0 b := by simpa using options
      have left := scan_print (by decide : 1 < 10) (by decide) 0 a [] (by simp)
      have right := scan_print (by decide : 1 < 10) (by decide) 0 b [] (by simp)
      rw [printed,right] at left
      exact congrArg some (Prod.mk.inj left).2.symm

theorem optionLoop_string (option rest : List UInt8) (whole : ∀ c ∈ string, c ≠ 0) (fuel : Nat) (value found : Bool) :
    optionLoop option (fuel + 1) value found (string ++ 0 :: rest)
      = if value then if found then some string else optionLoop option fuel false found rest
        else optionLoop option fuel true (found || strcasecmp string option) rest := by
  obtain ⟨taken,dropped⟩ := Runs.until_first (fun zero => whole 0 zero rfl) rest
  rw [optionLoop.eq_def]
  simp only [taken,dropped]

theorem tftpOptionGet_blksize (name : List UInt8) (named : name.map lower = text "blksize") (n : Nat) :
    tftpOptionGet (name ++ [0] ++ print 10 0 n ++ [0]) (text "blksize") = some (print 10 0 n) := by
  have letters : ∀ c ∈ name, c ≠ 0 := by
    rintro c listed rfl
    have zero : (0 : UInt8) ∈ text "blksize" := named ▸ List.mem_map.mpr ⟨0,listed,rfl⟩
    exact absurd zero (by decide)
  have digits : ∀ c ∈ print 10 0 n, c ≠ 0 := by
    obtain ⟨digits,shape,-,small,-⟩ := print_digits (by decide : 1 < 10) 0 n
    rw [shape]
    rintro c listed rfl
    obtain ⟨digit,there,code⟩ := List.mem_map.mp listed
    have value := toNat_ascii (small digit there)
    rw [code] at value
    simp at value
    omega
  have split : name ++ [0] ++ print 10 0 n ++ [0] = name ++ 0 :: (print 10 0 n ++ 0 :: []) := by simp
  have fuel : (name ++ [0] ++ print 10 0 n ++ [0]).length = (name.length + (print 10 0 n).length) + 1 + 1 := by
    simp
    omega
  have found : strcasecmp name (text "blksize") = true := by
    rw [strcasecmp,named]
    decide
  rw [tftpOptionGet,fuel,split,optionLoop_string _ _ letters,if_neg (by decide),found,Bool.or_true,
    optionLoop_string _ _ digits,if_pos rfl,if_pos rfl]

theorem atoi_print (n : Nat) (small : n < 2 ^ 31) : atoi (print 10 0 n) = n := by
  obtain ⟨digits,shape,nonempty,small',value⟩ := print_digits (by decide : 1 < 10) 0 n
  have read := strtol_digits (by decide) nonempty small' [] (by simp) (by rw [value]; omega)
  rw [List.append_nil,← shape,value] at read
  rw [atoi,read]
  exact Int.bmod_eq_of_le (by omega) (by omega)

theorem optionAck_blksize (c : Client) (source : Nat) (name : List UInt8) (named : name.map lower = text "blksize")
    (blksize : Nat) (large : 8 ≤ blksize) (agreed : blksize + 4 ≤ c.bufsize) (small : c.bufsize < 65536)
    (room : 25 ≤ c.bufsize) :
    optionAck (settle (recode (receive c source (word oack ++ (name ++ [0] ++ print 10 0 blksize ++ [0]))) oack))
        (min (word oack ++ (name ++ [0] ++ print 10 0 blksize ++ [0])).length c.bufsize)
      = some (agree (settle (recode (receive c source
          (word oack ++ (name ++ [0] ++ print 10 0 blksize ++ [0]))) oack)) blksize) := by
  have seven : name.length = 7 := by
    have := congrArg List.length named
    rwa [List.length_map] at this
  have digits := print_short blksize (by omega)
  have content := received_content c source (word oack) (name ++ [0] ++ print 10 0 blksize ++ [0])
  rw [List.take_of_length_le (by simp; omega),word_length] at content
  simp only [optionAck,settle,recode]
  rw [content,tftpOptionGet_blksize name named blksize]
  simp only [atoi_print blksize (by omega)]
  have fits : tftpBlocksizeCheck blksize (c.bufsize - 4 : Nat) ≠ 0 := by
    rw [tftpBlocksizeCheck,if_neg (by omega)]
    omega
  exact if_pos fits

theorem settle_self (quiet : c.wantOptionAck = false) : settle c = c := by rw [settle,← quiet]

theorem revert_self (bufsize : c.bufsize = blocksizeDefault + 4) : revert c = c := by rw [revert,← bufsize]

/-- The first packet of a server that does not know the option. -/
abbrev Setting.opening (g : Setting) : List UInt8 := dataPacket g.file blocksizeDefault 1 0

theorem Requests.first (requests : Requests g c) (tid : Nat) :
    step c (.datagram tid g.opening)
      = answer (revert (settle (recode (receive c tid g.opening) data))) (min g.opening.length c.bufsize) 1 ∧
      (receive c tid g.opening).sa = tid ∧
      (receive c tid g.opening).buf.get 4 (min g.opening.length c.bufsize - 4)
        = (block g.file blocksizeDefault 0).take g.asked := by
  obtain ⟨stepped,sa⟩ := step_datagram g.opening (.inl (requests.sa.trans requests.unlocked.symm))
  have room := requests.bufsize
  have code := received_opcode c tid data (word 1 ++ block g.file blocksizeDefault 0) (by decide) (by omega)
  have number := received_number c tid data 1 (block g.file blocksizeDefault 0) (by decide) (by omega)
  have content := received_content c tid (word data ++ word 1) (block g.file blocksizeDefault 0)
  have packet : g.opening = word data ++ word 1 ++ block g.file blocksizeDefault 0 := rfl
  rw [← List.append_assoc] at code
  rw [← packet] at code number content
  refine ⟨?_,sa,?_⟩
  · rw [stepped]
    by_cases default : g.asked = blocksizeDefault
    · have want : c.wantOptionAck = false := by simp [requests.want,default]
      rw [process_answer (c := receive c tid g.opening) requests.finished want
        (by rw [code]; decide),code,number,settle_self (c := recode (receive c tid _) data) want,
        revert_self (c := recode (receive c tid _) data) (requests.bufsize.trans (congrArg (· + 4) default))]
    · have want : c.wantOptionAck = true := by simp [requests.want,default]
      rw [process_revert (c := receive c tid g.opening) requests.finished want
        (by rw [code]; decide) (by rw [code]; decide),code,number]
  · rw [List.length_append,word_length,word_length,room,Nat.add_sub_cancel] at content
    rw [room]
    exact content

/-- The kind of settings in which the first block is not cut off. -/
def Setting.Whole (g : Setting) : Prop := g.supports = true ∨ blocksizeDefault ≤ g.asked ∨ g.file.length ≤ g.asked

theorem block_whole (plain : blocksizeDefault ≤ g.asked ∨ g.file.length ≤ g.asked) :
    (block g.file blocksizeDefault 0).take g.asked = block g.file blocksizeDefault 0 := by
  apply List.take_of_length_le
  rw [block,List.length_take,List.length_drop]
  omega

theorem Setting.serves_cases (serves : g.Serves (sizeOption g.asked) t) :
    (g.asked ≠ blocksizeDefault ∧ t.oack = true ∧ 8 ≤ t.blksize ∧ t.blksize ≤ g.asked ∧ t.latest = 0) ∨
    ((g.supports = true → g.asked = blocksizeDefault) ∧ t = ⟨blocksizeDefault,false,1⟩) := by
  by_cases default : g.asked = blocksizeDefault
  · rw [sizeOption,if_pos default] at serves
    exact .inr ⟨fun _ => default,by cases g.supports <;> exact serves⟩
  rw [sizeOption,if_neg default] at serves
  cases known : g.supports with
  | true =>
    simp only [Setting.Serves,known] at serves
    exact .inl ⟨default,serves⟩
  | false =>
    simp only [Setting.Serves,known] at serves
    exact .inr ⟨fun supported => (by cases supported),serves⟩

theorem Requests.deliver (requests : Requests g c) (small : g.asked < 65532) (fits : g.Fits) (whole : g.Whole)
    (tid : Nat) (t : Transfer) (serves : g.Serves (sizeOption g.asked) t) (sends : t.Sends g.file 0 bytes) :
    Advances g.file t.blksize g.port tid 0 t.latest (step c (.datagram tid bytes)) := by
  have room := requests.bufsize
  have here : c.sa = c.port ∨ tid = c.sa := .inl (requests.sa.trans requests.unlocked.symm)
  cases sends with
  | error rest =>
    obtain ⟨stepped,-⟩ := step_datagram (word error ++ rest) here
    have code := received_opcode c tid error rest (by decide) (by omega)
    rw [stepped]
    exact .ended [] (process_error (c := receive c tid (word error ++ rest)) requests.finished code _) requests.finished
  | options acknowledged name named =>
    obtain ⟨stepped,sa⟩ := step_datagram (word oack ++ (name ++ [0] ++ print 10 0 t.blksize ++ [0])) here
    rcases Setting.serves_cases serves with ⟨other,-,large,most,_⟩ | ⟨-,rfl⟩
    · have code := received_opcode c tid oack (name ++ [0] ++ print 10 0 t.blksize ++ [0]) (by decide) (by omega)
      have want : c.wantOptionAck = true := by simp [requests.want,other]
      rw [Setting.Fits,if_neg other] at fits
      rw [process_oack (c := receive c tid _) requests.finished want code,
        optionAck_blksize c tid name named t.blksize large (by omega) (by omega) (by omega)] at stepped
      rw [stepped]
      have holds : Holds g.file t.blksize g.port tid (agree (settle (recode (receive c tid
          (word oack ++ (name ++ [0] ++ print 10 0 t.blksize ++ [0]))) oack)) t.blksize) :=
        ⟨requests.cmd,requests.unlocked,sa,rfl,large,rfl,requests.finished,
          by simp [agree,settle,recode,receive,requests.written],
          by simp [agree,settle,recode,receive,requests.written,blockCount]⟩
      obtain ⟨next,launched,loads,same⟩ := launch_ack holds (by simp [agree,settle,recode,receive,requests.cmd])
        (by simp [agree,settle,recode,receive,requests.written])
      exact .inl ⟨next,launched,loads,.inl ((congrArg List.length same).trans (congrArg List.length requests.written))⟩
    · cases acknowledged
  | block i sent young =>
    rcases Setting.serves_cases serves with ⟨_,_,_,_,none⟩ | ⟨unknown,rfl⟩
    · omega
    obtain rfl : i = 0 := Nat.lt_one_iff.mp sent
    obtain ⟨stepped,sa,content⟩ := requests.first tid
    have plain : blocksizeDefault ≤ g.asked ∨ g.file.length ≤ g.asked := by
      rcases whole with known | plain
      · exact .inl (unknown known).ge
      · exact plain
    rw [block_whole plain] at content
    rw [stepped]
    have holds : Holds g.file blocksizeDefault g.port tid
        (revert (settle (recode (receive c tid g.opening) data))) :=
      ⟨requests.cmd,requests.unlocked,sa,rfl,by decide,rfl,requests.finished,
        by simp [revert,settle,recode,receive,requests.written],
        by simp [revert,settle,recode,receive,requests.written,blockCount]⟩
    have answered := holds.answer rfl (by simp [revert,settle,recode,receive,requests.written,requests.blockNr]) 0 1
      (by decide) (Nat.le_add_left _ _) (by simp [revert,settle,recode,receive,requests.written]) _
      (by simp [dataPacket,word_length]; omega) content
    have empty : (revert (settle (recode (receive c tid g.opening) data))).written.length = 0 := by
      simp [revert,settle,recode,receive,requests.written]
    rwa [empty] at answered

end Stablebox.Tftp
