import Stablebox.Lib.Digits
import Stablebox.Lib.Memory
import Stablebox.Libbb.GetLine

/-! The client of `tftp`. Its loop sends one datagram and waits: a turn takes what comes next,
a datagram, a timeout or a failing call, up to the next wait. One buffer holds the packet that
is sent and the one that is received. -/
namespace Stablebox.Tftp

open Libbb List UInt8 Nat

def numRetries : Nat := 5

def blocksizeDefault : Nat := 512

inductive Cmd where
  | get
  | put
  deriving DecidableEq

def rrq : Nat := 1
def wrq : Nat := 2
def data : Nat := 3
def ack : Nat := 4
def error : Nat := 5
def oack : Nat := 6

def word (n : Nat) : List UInt8 := [ofNat (n / 256),ofNat n]

def readWord (m : Memory) (offset : Nat) : Nat := (m offset).toNat * 256 + (m (offset + 1)).toNat

/-- The variables of `tftp()`, with what it writes to or has still to read from the local file. -/
structure Client where
  cmd : Cmd
  port : Nat
  /-- The port of `sa`, that datagrams are sent to. -/
  sa : Nat
  remotefile : List UInt8
  opcode : Nat
  finished : Bool
  timeout : Nat
  blockNr : UInt16
  bufsize : Nat
  wantOptionAck : Bool
  buf : Memory
  /-- The length of the packet in `buf`. -/
  cp : Nat
  input : List UInt8
  written : List (List UInt8)

def Client.packet (c : Client) : List UInt8 := c.buf.get 0 c.cp

/-! ### Options -/

def lower (c : UInt8) : UInt8 := if 65 ≤ c ∧ c ≤ 90 then c + 32 else c

def strcasecmp (s t : List UInt8) : Bool := s.map lower == t.map lower

def tftpBlocksizeCheck (blocksize bufsize : Int) : Int :=
  if (bufsize ≠ 0 ∧ blocksize > bufsize) ∨ blocksize < 8 ∨ blocksize > 65564 then 0 else blocksize

/-- The loop of `tftp_option_get`; each turn takes a terminated string. -/
def optionLoop (option : List UInt8) : Nat → Bool → Bool → List UInt8 → Option (List UInt8)
  | 0,_,_,_ => none
  | fuel + 1,value,found,buf =>
    match buf.dropWhile (· ≠ 0) with
    | [] => none
    | _ :: rest =>
      let string := buf.takeWhile (· ≠ 0)
      if value then if found then some string else optionLoop option fuel false found rest
      else optionLoop option fuel true (found || strcasecmp string option) rest

def tftpOptionGet (buf option : List UInt8) : Option (List UInt8) := optionLoop option buf.length false false buf

def atoi (text : List UInt8) : Int := (Digits.strtol 10 text).bmod (2 ^ 32)

/-! ### Sending -/

def put (c : Client) (packet : List UInt8) : Client :=
  { c with buf := c.buf.put 0 packet,cp := packet.length }

def recode (c : Client) (opcode : Nat) : Client := { c with opcode }

def arm (c : Client) (timeout : Nat) : Client := { c with timeout }

def request (c : Client) : Option Client :=
  let cp := 2 + (c.remotefile.length + 1)
  if cp ≥ c.bufsize - 1 then none
  else if c.bufsize - 1 < cp + 6 then none
  else
    let packet := word c.opcode ++ c.remotefile ++ [0] ++ text "octet" ++ [0]
    if c.bufsize - 4 ≠ blocksizeDefault then
      if c.bufsize - 1 < cp + 6 + 15 then none
      else some (put { c with wantOptionAck := true }
        (packet ++ text "blksize" ++ [0] ++ (Digits.print 10 0 (c.bufsize - 4)).take 5 ++ [0]))
    else some (put c packet)

def build (c : Client) : Option Client :=
  if (c.cmd = .get ∧ c.opcode = rrq) ∨ (c.cmd = .put ∧ c.opcode = wrq) then request c
  else if c.cmd = .get ∧ c.opcode = ack then
    some (put { c with blockNr := c.blockNr + 1 } (word c.opcode ++ word c.blockNr.toNat))
  else if c.cmd = .put ∧ c.opcode = data then
    let block := c.input.take (c.bufsize - 4)
    some (put { c with
      blockNr := c.blockNr + 1
      input := c.input.drop (c.bufsize - 4)
      finished := c.finished || block.length != c.bufsize - 4 } (word c.opcode ++ word c.blockNr.toNat ++ block))
  else some (put c (word c.opcode))

inductive Status where
  | waiting (c : Client)
  | exit (c : Client)

def Status.client : Status → Client
  | .waiting c => c
  | .exit c => c

def Status.succeeded : Status → Bool
  | .waiting _ => false
  | .exit c => c.finished

/-- The status after a turn, and the datagrams sent in it with the ports they go to. -/
structure Turn where
  status : Status
  sent : List (Nat × List UInt8)

def launch (c : Client) : Turn :=
  match build c with
  | none => ⟨.exit c,[]⟩
  | some c =>
    if c.finished = true ∧ c.opcode = ack then ⟨.exit c,[(c.sa,c.packet)]⟩
    else ⟨.waiting (arm c numRetries),[(c.sa,c.packet)]⟩

def resend (c : Client) : Turn := ⟨.waiting c,[(c.sa,c.packet)]⟩

/-! ### Receiving -/

def agree (c : Client) (blksize : Nat) : Client :=
  { c with opcode := if c.cmd = .put then data else ack,bufsize := blksize + 4,blockNr := 0 }

/-- What is done with the answer to the options; none to give up. -/
def optionAck (c : Client) (len : Nat) : Option Client :=
  match tftpOptionGet (c.buf.get 2 (len - 2)) (text "blksize") with
  | none => none
  | some res =>
    if tftpBlocksizeCheck (atoi res) (c.bufsize - 4 : Nat) ≠ 0 then some (agree c (atoi res).toNat) else none

def store (c : Client) (len : Nat) : Client :=
  { c with
    written := c.written ++ [c.buf.get 4 (len - 4)]
    finished := c.finished || len - 4 != c.bufsize - 4
    opcode := ack }

/-- The rest of the loop for a data packet or an acknowledgement. Of the two tests for the block
before the expected one, `tmp == block_nr - 1` and `tmp + 1 == block_nr`, both on `int`, the second
never decides. -/
def answer (c : Client) (len tmp : Nat) : Turn :=
  if c.cmd = .get ∧ c.opcode = data ∧ tmp = c.blockNr.toNat then
    -- a write of fewer than no bytes fails
    if len < 4 then ⟨.exit c,[]⟩ else launch (store c len)
  else if c.cmd = .get ∧ c.opcode = data ∧ (tmp : Int) = c.blockNr.toNat - 1 then
    launch { c with blockNr := c.blockNr - 1,opcode := ack }
  else if c.cmd = .put ∧ c.opcode = ack ∧ tmp = (c.blockNr - 1).toNat then launch (recode c data)
  else launch c

def settle (c : Client) : Client := { c with wantOptionAck := false }

def revert (c : Client) : Client := { c with bufsize := blocksizeDefault + 4 }

def process (c : Client) (len : Nat) : Turn :=
  if c.finished then ⟨.exit c,[]⟩
  else
    let opcode := readWord c.buf 0
    let tmp := readWord c.buf 2
    let c := recode c opcode
    if opcode = error then ⟨.exit c,[]⟩
    else if c.wantOptionAck then
      if opcode = oack then
        match optionAck (settle c) len with
        | none => ⟨.exit (settle c),[]⟩
        | some c => launch c
      else answer (revert (settle c)) len tmp
    else answer c len tmp

inductive Event where
  | timeout
  | datagram (source : Nat) (bytes : List UInt8)
  /-- A failing `select` or `recvfrom`. -/
  | failure

def receive (c : Client) (source : Nat) (bytes : List UInt8) : Client :=
  { c with
    buf := c.buf.put 0 (bytes.take c.bufsize)
    sa := if c.sa = c.port then source else c.sa }

def step (c : Client) : Event → Turn
  | .timeout => if c.timeout - 1 = 0 then ⟨.exit c,[]⟩ else resend (arm c (c.timeout - 1))
  | .datagram source bytes =>
    if (receive c source bytes).sa = source then process (receive c source bytes) (min bytes.length c.bufsize)
    -- A packet from another port counts as a timeout.
    else resend (arm (receive c source bytes) (numRetries - 1))
  | .failure => ⟨.exit c,[]⟩

/-- `tftp()` up to its first wait. -/
def start (cmd : Cmd) (port : Nat) (remotefile : List UInt8) (blocksize : Nat) (input : List UInt8) : Turn :=
  launch
    { cmd,port,sa := port,remotefile,opcode := if cmd = .put then wrq else rrq,finished := false
      timeout := numRetries,blockNr := 1,bufsize := blocksize + 4,wantOptionAck := false
      buf := fun _ => 0,cp := 0,input,written := [] }

/-! ### Blocks of a file -/

def block (file : List UInt8) (size i : Nat) : List UInt8 := (file.drop (i * size)).take size

def blockCount (file : List UInt8) (size : Nat) : Nat := file.length / size + 1

/-- The data packet of block `i`, if the first block has the number `first`. -/
def dataPacket (file : List UInt8) (size first i : Nat) : List UInt8 :=
  word data ++ word ((first + i) % 65536) ++ block file size i

def ackPacket (n : Nat) : List UInt8 := word ack ++ word (n % 65536)

theorem block_length (file : List UInt8) (size i : Nat) (positive : 0 < size) :
    (block file size i).length = size ↔ i + 1 < blockCount file size := by
  rw [block,length_take,length_drop,blockCount,add_lt_add_iff_right,lt_iff_add_one_le,
    le_div_iff_mul_le positive,Nat.add_mul]
  omega

theorem drop_block (file : List UInt8) (size i : Nat) :
    (file.drop (i * size)).drop size = file.drop ((i + 1) * size) := by
  rw [drop_drop,Nat.add_mul,Nat.one_mul]

theorem blocks_append (file : List UInt8) (size count : Nat) :
    ((range count).map (block file size)).flatten ++ file.drop (count * size) = file := by
  induction count with
  | zero => simp
  | succ count ih =>
    rw [range_succ,map_append,flatten_append,append_assoc,← drop_block]
    simp only [map_cons,map_nil,flatten_cons,flatten_nil,append_nil]
    rw [block,take_append_drop]
    exact ih

theorem blocks_whole {size count : Nat} (short : (block file size count).length ≠ size) :
    ((range (count + 1)).map (block file size)).flatten = file := by
  have whole := blocks_append file size (count + 1)
  have none : file.drop ((count + 1) * size) = [] := by
    rw [← drop_block]
    rw [block,length_take] at short
    exact drop_of_length_le (by omega)
  rwa [none,append_nil] at whole

/-! ### Words -/

@[simp] theorem word_length (n : Nat) : (word n).length = 2 := rfl

theorem word_inj (la : a < 65536) (lb : b < 65536) : word a = word b ↔ a = b := by
  constructor
  · intro same
    simp only [word,List.cons.injEq,and_true] at same
    have high := congrArg toNat same.1
    have low := congrArg toNat same.2
    simp only [toNat_ofNat'] at high low
    omega
  · rintro rfl
    rfl

theorem readWord_put (m : Memory) (before after : List UInt8) (fits : n < 65536) :
    readWord (m.put 0 (before ++ word n ++ after)) before.length = n := by
  have first := m.put_inside 0 before.length (before ++ word n ++ after) (by simp [word])
  have second := m.put_inside 0 (before.length + 1) (before ++ word n ++ after) (by simp [word])
  rw [zero_add] at first second
  rw [readWord,first,second]
  simp [word]
  omega

/-! ### One lemma for each way through the loop -/

variable {c : Client}

variable {next : Client}

@[simp] theorem packet_put (c : Client) (packet : List UInt8) : (put c packet).packet = packet :=
  c.buf.get_put_same 0 packet

theorem build_ack (cmd : c.cmd = .get) (opcode : c.opcode = ack) :
    build c = some (put { c with blockNr := c.blockNr + 1 } (word ack ++ word c.blockNr.toNat)) := by
  rw [build,if_neg (by simp [cmd,opcode,ack,rrq]),if_pos ⟨cmd,opcode⟩,opcode]

theorem build_data (cmd : c.cmd = .put) (opcode : c.opcode = data) :
    build c = some (put { c with
      blockNr := c.blockNr + 1
      input := c.input.drop (c.bufsize - 4)
      finished := c.finished || (c.input.take (c.bufsize - 4)).length != c.bufsize - 4 }
      (word data ++ word c.blockNr.toNat ++ c.input.take (c.bufsize - 4))) := by
  rw [build,if_neg (by simp [cmd,opcode,data,wrq]),if_neg (by simp [cmd]),if_pos ⟨cmd,opcode⟩,opcode]

theorem build_other (cmd : c.cmd = .get) (request : c.opcode ≠ rrq) (acknowledge : c.opcode ≠ ack) :
    build c = some (put c (word c.opcode)) := by
  rw [build,if_neg (by simp [cmd,request]),if_neg (by simp [acknowledge]),if_neg (by simp [cmd])]

theorem request_some (requested : request c = some next) :
    ∃ want rest, next = put { c with wantOptionAck := want } (word c.opcode ++ rest) ∧
      want = (c.wantOptionAck || (c.bufsize - 4 != blocksizeDefault)) := by
  simp only [request] at requested
  split at requested
  · cases requested
  split at requested
  · cases requested
  split at requested
  · rename_i other
    split at requested
    · cases requested
    · refine ⟨true,_,(Option.some.inj requested).symm.trans (by simp only [append_assoc]; rfl),?_⟩
      simp [other]
  · rename_i default
    refine ⟨c.wantOptionAck,_,(Option.some.inj requested).symm.trans (by simp only [append_assoc]; rfl),?_⟩
    simp [not_not.mp default]

theorem launch_waits (built : build c = some next) (more : next.finished = false ∨ next.opcode ≠ ack) :
    launch c = ⟨.waiting (arm next numRetries),[(next.sa,next.packet)]⟩ := by
  rw [launch,built]
  simp only
  rw [if_neg]
  rintro ⟨done,last⟩
  rcases more with unfinished | other
  · cases unfinished.symm.trans done
  · exact other last

theorem launch_ends (built : build c = some next) (done : next.finished = true) (last : next.opcode = ack) :
    launch c = ⟨.exit next,[(next.sa,next.packet)]⟩ := by
  rw [launch,built]
  simp only
  rw [if_pos ⟨done,last⟩]

theorem process_finished (done : c.finished = true) (len : Nat) : process c len = ⟨.exit c,[]⟩ := by
  rw [process,if_pos done]

theorem process_error (more : c.finished = false) (code : readWord c.buf 0 = error) (len : Nat) :
    process c len = ⟨.exit (recode c error),[]⟩ := by
  simp [process,more,Bool.false_eq_true,code]

theorem process_answer (more : c.finished = false) (want : c.wantOptionAck = false) (code : readWord c.buf 0 ≠ error)
    (len : Nat) : process c len = answer (recode c (readWord c.buf 0)) len (readWord c.buf 2) := by
  simp [process,more,Bool.false_eq_true,code,recode,want]

theorem process_oack (more : c.finished = false) (want : c.wantOptionAck = true) (code : readWord c.buf 0 = oack)
    (len : Nat) :
    process c len = match optionAck (settle (recode c oack)) len with
      | none => ⟨.exit (settle (recode c oack)),[]⟩
      | some c => launch c := by
  simp only [process,more,Bool.false_eq_true,if_false,code,recode,want,if_true]
  rw [if_neg (by decide)]

theorem process_revert (more : c.finished = false) (want : c.wantOptionAck = true)
    (code : readWord c.buf 0 ≠ error) (other : readWord c.buf 0 ≠ oack) (len : Nat) :
    process c len = answer (revert (settle (recode c (readWord c.buf 0)))) len (readWord c.buf 2) := by
  simp [process,more,Bool.false_eq_true,code,recode,want,other]

theorem optionAck_some (agreed : optionAck c len = some next) (room : 4 < c.bufsize) :
    ∃ blksize, next = agree c blksize ∧ 8 ≤ blksize ∧ blksize + 4 ≤ c.bufsize := by
  unfold optionAck at agreed
  split at agreed
  · cases agreed
  split at agreed
  · rename_i checked
    refine ⟨_,(Option.some.inj agreed).symm,?_⟩
    simp only [tftpBlocksizeCheck] at checked
    split at checked
    · exact absurd rfl checked
    · omega
  · cases agreed

theorem step_datagram (bytes : List UInt8) (here : c.sa = c.port ∨ source = c.sa) :
    step c (.datagram source bytes) = process (receive c source bytes) (min bytes.length c.bufsize) ∧
      (receive c source bytes).sa = source := by
  have sa : (receive c source bytes).sa = source := by
    simp only [receive]
    split
    · rfl
    · rename_i other
      exact (here.resolve_left other).symm
  exact ⟨by rw [step,if_pos sa],sa⟩

theorem received_opcode (c : Client) (source n : Nat) (rest : List UInt8) (fits : n < 65536) (room : 2 ≤ c.bufsize) :
    readWord (receive c source (word n ++ rest)).buf 0 = n := by
  simp only [receive]
  rw [take_append,take_of_length_le (by simpa using room)]
  exact readWord_put c.buf [] _ fits

theorem received_number (c : Client) (source code n : Nat) (rest : List UInt8) (fits : n < 65536)
    (room : 4 ≤ c.bufsize) : readWord (receive c source (word code ++ word n ++ rest)).buf 2 = n := by
  simp only [receive]
  rw [take_append,take_of_length_le (by simpa using room)]
  exact readWord_put c.buf (word code) _ fits

theorem received_content (c : Client) (source : Nat) (head rest : List UInt8) :
    (receive c source (head ++ rest)).buf.get head.length (min (head ++ rest).length c.bufsize - head.length)
      = rest.take (c.bufsize - head.length) := by
  by_cases small : c.bufsize ≤ head.length
  · have none : min (head ++ rest).length c.bufsize - head.length = 0 := by omega
    rw [none,Nat.sub_eq_zero_of_le small]
    rfl
  · have all : (receive c source (head ++ rest)).buf.get 0 (head.length + (rest.take (c.bufsize - head.length)).length)
        = head ++ rest.take (c.bufsize - head.length) := by
      simp only [receive]
      rw [take_append,take_of_length_le (by omega)]
      have same := c.buf.get_put_same 0 (head ++ rest.take (c.bufsize - head.length))
      rwa [length_append] at same
    rw [Memory.get_add,zero_add] at all
    have count : min (head ++ rest).length c.bufsize - head.length = (rest.take (c.bufsize - head.length)).length := by
      rw [length_append,length_take]
      omega
    rw [count]
    exact (append_inj all (by simp)).2

theorem packet_opcode (starts : word n <+: c.packet) (fits : n < 65536) : readWord c.buf 0 = n := by
  obtain ⟨rest,packet⟩ := starts
  have two : 2 ≤ c.cp := by
    have := congrArg List.length packet
    simp [Client.packet,Memory.get] at this
    omega
  have split : c.buf.get 0 (2 + (c.cp - 2)) = word n ++ rest := by rw [packet,Nat.add_sub_cancel' two]; rfl
  rw [Memory.get_add] at split
  have front : c.buf.get 0 2 = word n := (append_inj split (by simp [Memory.get])).1
  have bytes : c.buf 0 = ofNat (n / 256) ∧ c.buf 1 = ofNat n := by
    simpa [Memory.get,word,range_succ] using front
  rw [readWord,bytes.1,bytes.2]
  simp
  omega

theorem toNat_succ (n : UInt16) : (n + 1).toNat = (n.toNat + 1) % 65536 := by
  rfl

theorem toNat_pred {n : UInt16} (number : n.toNat = (k + 1) % 65536) : (n - 1).toNat = k % 65536 := by
  rw [UInt16.toNat_sub,number]
  simp only [UInt16.toNat_one]
  omega

end Stablebox.Tftp
