import Stablebox.Lib.OnesComplement
import Stablebox.Udhcp.Message

/-! DHCP messages as raw IP datagrams (packet.c, clientpacket.c): the Internet checksum,
the datagram that is built and the tests that it meets when it is read. `none` stands
for undefined behaviour: an overflow of a signed sum, or a copy of a negative length. -/
namespace Stablebox.Udhcp

open DhcpMessage List Memory Option

/-! `struct udp_dhcp_packet`. -/

abbrev ipSize : Nat := 20
abbrev udpSize : Nat := 8
abbrev dhcpMessageSize : Nat := 548
abbrev packetSize : Nat := 576

abbrev totLenAt : Nat := 2
abbrev ttlAt : Nat := 8
abbrev protocolAt : Nat := 9
abbrev ipCheckAt : Nat := 10
abbrev saddrAt : Nat := 12
abbrev daddrAt : Nat := 16
abbrev udpSourceAt : Nat := 20
abbrev udpDestAt : Nat := 22
abbrev udpLenAt : Nat := 24
abbrev udpCheckAt : Nat := 26
abbrev dataAt : Nat := 28

abbrev ipprotoUdp : UInt8 := 17
abbrev ipVersion : UInt8 := 4
abbrev ipDefTtl : UInt8 := 64
abbrev serverPort : UInt16 := 67
abbrev clientPort : UInt16 := 68

def addInt32 (sum : Nat) (word : UInt16) : Option Nat :=
  if sum + word.toNat < 2147483648 then some (sum + word.toNat) else none

/-- The inner loop over whole words, and the byte that is left over. -/
def checksumLoop (e : Endian) (m : Memory) : (count source sum : Nat) → Option Nat
  | 0,_,sum => some sum
  | 1,source,sum => addInt32 sum (Endian.join16 e (m source) 0)
  | count + 2,source,sum =>
    (addInt32 sum (m.load16 e source)).bind (checksumLoop e m count (source + 2))

def foldLoop : (fuel sum : Nat) → Option Nat
  | 0,_ => none
  | fuel + 1,sum =>
    if sum >>> 16 ≠ 0 then foldLoop fuel ((sum &&& 0xffff) + (sum >>> 16)) else some sum

def udhcpChecksum (e : Endian) (m : Memory) (addr count : Nat) : Option UInt16 := do
  let sum ← checksumLoop e m count addr 0
  let sum ← foldLoop 3 sum
  return ~~~ UInt16.ofNat sum

def setIhl (byte ihl : UInt8) : UInt8 := (byte &&& (0xf0 : UInt8)) ||| ihl
def setVersion (byte version : UInt8) : UInt8 := (byte &&& (0x0f : UInt8)) ||| (version <<< (4 : UInt8))

/-- The datagram before its checksums; the length of the pseudo-header stands in the
place of the total length. -/
def pseudoPacket (e : Endian) (payload : DhcpMessage) (sourceIp : UInt32) (sourcePort : UInt16)
    (destIp : UInt32) (destPort : UInt16) : Memory :=
  let packet : Memory := fun _ => 0
  let packet := packet.put protocolAt [ipprotoUdp]
  let packet := packet.store32 e saddrAt sourceIp
  let packet := packet.store32 e daddrAt destIp
  let packet := packet.store16 e udpSourceAt (htons e sourcePort)
  let packet := packet.store16 e udpDestAt (htons e destPort)
  let packet := packet.store16 e udpLenAt (htons e (UInt16.ofNat (udpSize + dhcpMessageSize)))
  let packet := packet.store16 e totLenAt (packet.load16 e udpLenAt)
  packet.put dataAt (payload.get 0 dhcpMessageSize)

/-- The real IP header over the pseudo-header, without its checksum. -/
def ipHeader (e : Endian) (packet : Memory) : Memory :=
  let packet := packet.store16 e totLenAt (htons e (UInt16.ofNat packetSize))
  let packet := packet.put 0 [setIhl (packet 0) (UInt8.ofNat (ipSize >>> 2))]
  let packet := packet.put 0 [setVersion (packet 0) ipVersion]
  packet.put ttlAt [ipDefTtl]

/-- The bytes that `udhcp_raw_packet` hands to `sendto`. -/
def udhcpRawPacket (e : Endian) (payload : DhcpMessage) (sourceIp : UInt32) (sourcePort : UInt16)
    (destIp : UInt32) (destPort : UInt16) : Option (List UInt8) := do
  let packet := pseudoPacket e payload sourceIp sourcePort destIp destPort
  let check ← udhcpChecksum e packet 0 packetSize
  let packet := ipHeader e (packet.store16 e udpCheckAt check)
  let check ← udhcpChecksum e packet 0 ipSize
  return (packet.store16 e ipCheckAt check).get 0 packetSize

inductive RawResult where
  | failed (code : Int)
  | received (bytes : Nat) (payload : DhcpMessage)

/-- The header test: protocol, version, header length, port and the two lengths. -/
def unrelated (e : Endian) (packet : Memory) (bytes : Nat) : Bool :=
  packet protocolAt ≠ ipprotoUdp ∨ packet 0 >>> (4 : UInt8) ≠ ipVersion ∨
    packet 0 &&& (0x0f : UInt8) ≠ UInt8.ofNat (ipSize >>> 2) ∨ packet.load16 e udpDestAt ≠ htons e clientPort ∨
    bytes > packetSize ∨ ntohs e (packet.load16 e udpLenAt) ≠ UInt16.ofNat bytes - UInt16.ofNat ipSize

/-- The packet with its header replaced by a pseudo-header, to verify the UDP checksum. -/
def pseudoHeader (e : Endian) (packet : Memory) : Memory :=
  let source := packet.load32 e saddrAt
  let dest := packet.load32 e daddrAt
  let packet := packet.store16 e udpCheckAt 0
  let packet := packet.put 0 (replicate ipSize 0)
  let packet := packet.put protocolAt [ipprotoUdp]
  let packet := packet.store32 e saddrAt source
  let packet := packet.store32 e daddrAt dest
  packet.store16 e totLenAt (packet.load16 e udpLenAt)

/-- The end of `get_raw_packet`: copy the message and look at its cookie. -/
def copyPayload (e : Endian) (payload : DhcpMessage) (packet : Memory) (bytes : Nat) : Option RawResult :=
  if bytes < ipSize + udpSize then none
  else
    let payload : DhcpMessage := payload.put 0 (packet.get dataAt (bytes - (ipSize + udpSize)))
    if ntohl e (payload.cookie e) ≠ dhcpMagic then some (.failed (-2))
    else some (.received (bytes - (ipSize + udpSize)) payload)

/-- The tests of `get_raw_packet` on what was read. -/
def inspect (e : Endian) (payload : DhcpMessage) (packet : Memory) (bytes : Nat) : Option RawResult :=
  if bytes < ipSize + udpSize then some (.failed (-2))
  else if bytes < (ntohs e (packet.load16 e totLenAt)).toNat then some (.failed (-2))
  else
    let bytes := (ntohs e (packet.load16 e totLenAt)).toNat
    if unrelated e packet bytes then some (.failed (-2))
    else do
      let check := packet.load16 e ipCheckAt
      let packet := packet.store16 e ipCheckAt 0
      let sum ← udhcpChecksum e packet 0 ipSize
      if check ≠ sum then some (.failed (-1))
      else
        let check := packet.load16 e udpCheckAt
        let packet := pseudoHeader e packet
        if check = 0 then copyPayload e payload packet bytes
        else do
          let sum ← udhcpChecksum e packet 0 bytes
          if check ≠ sum then some (.failed (-2)) else copyPayload e payload packet bytes

/-- Read a datagram; `none` as input is a `read` that fails. -/
def getRawPacket (e : Endian) (payload : DhcpMessage) (input : Option (List UInt8)) : Option RawResult :=
  match input with
  | none => some (.failed (-1))
  | some datagram =>
    inspect e payload (put (fun _ => 0) 0 (datagram.take packetSize)) (min datagram.length packetSize)

/-! The checksum. -/

theorem checksumLoop_words (e : Endian) (m : Memory) (n p sum : Nat) (small : sum + 65535 * n < 2147483648) :
    checksumLoop e m (2 * n) p sum = some (sum + wordSum e m p n) := by
  induction n generalizing p sum with
  | zero => rfl
  | succ n ih =>
    have bound := (m.load16 e p).toNat_lt
    rw [show 2 * (n + 1) = 2 * n + 2 by omega,checksumLoop,addInt32,if_pos (by omega),bind_some,
      ih _ _ (by omega),wordSum_succ,add_assoc]

theorem checksumLoop_isSome (e : Endian) (m : Memory) (count p sum : Nat)
    (small : sum + 65535 * (count / 2 + count % 2) < 2147483648) : (checksumLoop e m count p sum).isSome := by
  induction count using Nat.twoStepInduction generalizing p sum with
  | zero => rfl
  | one =>
    have bound := (Endian.join16 e (m p) 0).toNat_lt
    rw [checksumLoop,addInt32,if_pos (by omega)]
    rfl
  | more count ih _ =>
    have bound := (m.load16 e p).toNat_lt
    rw [checksumLoop,addInt32,if_pos (by omega),bind_some]
    exact ih _ _ (by omega)

theorem foldLoop_residue {sum : Nat} (small : sum < 2147483648) : foldLoop 3 sum = some (residue sum) := by
  have step (fuel s : Nat) : foldLoop (fuel + 1) s =
      if 65536 ≤ s then foldLoop fuel (s % 65536 + s / 65536) else some s := by
    rw [foldLoop,Nat.shiftRight_eq_div_pow,show (0xffff : Nat) = 2 ^ 16 - 1 by rfl,Nat.and_two_pow_sub_one_eq_mod]
    by_cases large : 65536 ≤ s
    · rw [if_pos large,if_pos (by omega)]
    · rw [if_neg large,if_neg (by omega)]
  rw [step,step,step]
  split
  · rw [← residue_carry sum]
    split
    · rw [if_neg (by omega),← residue_carry (sum % 65536 + sum / 65536),residue_small (by omega)]
    · rw [residue_small (by omega)]
  · rw [residue_small (by omega)]

theorem udhcpChecksum_words (e : Endian) (m : Memory) (p n : Nat) (short : n ≤ 32768) :
    udhcpChecksum e m p (2 * n) = some (~~~ UInt16.ofNat (residue (wordSum e m p n))) := by
  have bound := wordSum_le e m p n
  rw [udhcpChecksum,checksumLoop_words e m n p 0 (by omega),zero_add]
  simp only [bind_eq_bind,bind_some]
  rw [foldLoop_residue (by omega)]
  rfl

theorem udhcpChecksum_congr (e : Endian) (m other : Memory) (p n : Nat) (short : n ≤ 32768)
    (same : ∀ i < 2 * n, m (p + i) = other (p + i)) :
    udhcpChecksum e m p (2 * n) = udhcpChecksum e other p (2 * n) := by
  rw [udhcpChecksum_words e m p n short,udhcpChecksum_words e other p n short,wordSum_congr e same]

theorem checksum_mod (same : ~~~ UInt16.ofNat (residue a) = ~~~ UInt16.ofNat (residue b)) :
    a % 65535 = b % 65535 := by
  apply residue_mod
  have equal := congrArg UInt16.toNat (UInt16.not_inj.mp same)
  rw [UInt16.toNat_ofNat',UInt16.toNat_ofNat',Nat.mod_eq_of_lt (residue_lt a),Nat.mod_eq_of_lt (residue_lt b)] at equal
  exact equal

/-! The packet that is sent. -/

section

variable (e : Endian)

theorem ipHeader_outside (packet : Memory) (outside : i = 1 ∨ 4 ≤ i ∧ i < 8 ∨ 9 ≤ i) :
    ipHeader e packet i = packet i := by
  simp only [ipHeader]
  rw [put_outside _ (by show i < 8 ∨ 9 ≤ i; omega),put_outside _ (by show i < 0 ∨ 1 ≤ i; omega),
    put_outside _ (by show i < 0 ∨ 1 ≤ i; omega),store16_apart _ _ _ (by show i < 2 ∨ 4 ≤ i; omega)]

theorem ipHeader_totLen (packet : Memory) : (ipHeader e packet).load16 e totLenAt = htons e 576 := by
  simp only [ipHeader]
  rw [load16_put_outside _ _ (.inl (by decide)),load16_put_outside _ _ (.inr (Nat.le_succ 1)),
    load16_put_outside _ _ (.inr (Nat.le_succ 1))]
  exact load16_store16 e _ _ _

theorem ipHeader_first (zero : packet 0 = 0) : ipHeader e packet 0 = 0x45 := by
  simp only [ipHeader]
  simp only [put,Nat.zero_le,if_true,Nat.sub_zero,getElem?_cons_zero,getD_some]
  rw [store16_apart _ _ _ (by decide),zero]
  decide

theorem inspect_fails (old : DhcpMessage) (bytes : Nat) {sum : UInt16}
    (ipSum : udhcpChecksum e (other.store16 e ipCheckAt 0) 0 ipSize = some sum)
    (wrong : other.load16 e ipCheckAt ≠ sum) : ∃ code, inspect e old other bytes = some (.failed code) := by
  rw [inspect]
  split
  · exact ⟨_,rfl⟩
  split
  · exact ⟨_,rfl⟩
  dsimp only
  split
  · exact ⟨_,rfl⟩
  refine ⟨-1,?_⟩
  simp only [ipSum,bind_eq_bind,bind_some]
  rw [if_pos wrong]

variable (payload : DhcpMessage) (sourceIp destIp : UInt32) (sourcePort destPort : UInt16)

def finished (udp ip : UInt16) : Memory :=
  (ipHeader e ((pseudoPacket e payload sourceIp sourcePort destIp destPort).store16 e udpCheckAt udp)).store16 e
    ipCheckAt ip

theorem udhcpRawPacket_finished : ∃ udp ip,
    udhcpChecksum e (pseudoPacket e payload sourceIp sourcePort destIp destPort) 0 packetSize = some udp ∧
    udhcpChecksum e (ipHeader e ((pseudoPacket e payload sourceIp sourcePort destIp destPort).store16 e
      udpCheckAt udp)) 0 ipSize = some ip ∧
    udhcpRawPacket e payload sourceIp sourcePort destIp destPort =
      some ((finished e payload sourceIp destIp sourcePort destPort udp ip).get 0 packetSize) := by
  have udp := udhcpChecksum_words e (pseudoPacket e payload sourceIp sourcePort destIp destPort) 0 288 (by decide)
  have ip (check : UInt16) := udhcpChecksum_words e (ipHeader e ((pseudoPacket e payload sourceIp sourcePort
    destIp destPort).store16 e udpCheckAt check)) 0 10 (by decide)
  refine ⟨_,_,udp,ip _,?_⟩
  simp only [udhcpRawPacket,packetSize,ipSize]
  rw [udp]
  simp only [bind_eq_bind,bind_some]
  rw [ip]
  rfl

variable {e payload sourceIp destIp sourcePort destPort} {pseudo sent packet : Memory} {udp ip : UInt16}
  (built : pseudo = pseudoPacket e payload sourceIp sourcePort destIp destPort)

include built

theorem pseudoPacket_data (i : Nat) (bound : i < dhcpMessageSize) : pseudo (dataAt + i) = payload i := by
  simp only [built,pseudoPacket]
  rw [put_inside _ _ _ _ (by simpa using bound)]
  simp [Memory.get]

theorem pseudoPacket_udpLen : pseudo.load16 e udpLenAt = htons e 556 := by
  simp only [built,pseudoPacket]
  rw [load16_put_outside _ _ (.inl (by decide)),load16_store16_apart _ _ _ (by decide)]
  exact load16_store16 e _ _ _

theorem pseudoPacket_udpDest : pseudo.load16 e udpDestAt = htons e destPort := by
  simp only [built,pseudoPacket]
  rw [load16_put_outside _ _ (.inl (by decide))]
  simp (disch := decide) only [load16_store16_apart,load16_store16]

theorem pseudoPacket_daddr : pseudo.load32 e daddrAt = destIp := by
  simp only [built,pseudoPacket]
  rw [load32_put_outside _ _ (.inl (by decide))]
  simp (disch := decide) only [load32_store16_apart,load32_store32]

theorem pseudoPacket_saddr : pseudo.load32 e saddrAt = sourceIp := by
  simp only [built,pseudoPacket]
  rw [load32_put_outside _ _ (.inl (by decide))]
  simp (disch := decide) only [load32_store16_apart,load32_store32_apart,load32_store32]

theorem pseudoPacket_zero (empty : i = 0 ∨ i = 10 ∨ i = 11 ∨ i = 26 ∨ i = 27) : pseudo i = 0 := by
  simp only [built,pseudoPacket]
  rw [put_before _ _ (by show i < 28; omega)]
  rcases empty with rfl | rfl | rfl | rfl | rfl
  all_goals simp (disch := decide) only [store16_apart,store32_apart,put_outside]

theorem pseudoPacket_header (i : Nat) (bound : i < ipSize) :
    pseudo i =
      ((((put (fun _ => 0) protocolAt [ipprotoUdp]).store32 e saddrAt sourceIp).store32 e
        daddrAt destIp).store16 e totLenAt (htons e 556)) i := by
  have early : i < 20 := bound
  simp only [built,pseudoPacket]
  rw [put_before _ _ (by show i < 28; omega),load16_store16]
  refine put_agree _ _ ?_
  rw [store16_apart _ _ _ (by show i < 24 ∨ _; omega),store16_apart _ _ _ (by show i < 22 ∨ _; omega),
    store16_apart _ _ _ (by show i < 20 ∨ _; omega)]

omit built

variable (done : sent = (ipHeader e (pseudo.store16 e udpCheckAt udp)).store16 e ipCheckAt ip)

include done

theorem finished_outside (i : Nat) (outside : i = 1 ∨ 4 ≤ i ∧ i < 8 ∨ i = 9 ∨ 12 ≤ i ∧ i < 26 ∨ 28 ≤ i) :
    sent i = pseudo i := by
  rw [done,store16_apart _ _ _ (by show i < 10 ∨ 12 ≤ i; omega),
    ipHeader_outside e _ (by omega),store16_apart _ _ _ (by show i < 26 ∨ 28 ≤ i; omega)]

theorem finished_totLen : sent.load16 e totLenAt = htons e 576 := by
  rw [done,load16_store16_apart _ _ _ (by decide),ipHeader_totLen]

theorem finished_load16 (outside : 12 ≤ p ∧ p + 2 ≤ 26) : sent.load16 e p = pseudo.load16 e p := by
  simp only [load16]
  rw [finished_outside done _ (by omega),finished_outside done _ (by omega)]

theorem finished_load32 (outside : 12 ≤ p ∧ p + 4 ≤ 26) : sent.load32 e p = pseudo.load32 e p := by
  simp only [load32]
  rw [finished_outside done _ (by omega),finished_outside done _ (by omega),
    finished_outside done _ (by omega),finished_outside done _ (by omega)]

include built

theorem finished_first : sent 0 = 0x45 := by
  rw [done,store16_apart _ _ _ (by decide)]
  apply ipHeader_first
  exact pseudoPacket_zero built (.inl rfl)

theorem finished_protocol : sent protocolAt = ipprotoUdp := by
  rw [finished_outside done 9 (by omega),pseudoPacket_header built 9 (by decide),store16_apart _ _ _ (by decide),
    store32_apart _ _ _ (by decide),store32_apart _ _ _ (by decide)]
  rfl

theorem read_ipChecksum (agree : ∀ i < packetSize, i < 10 ∨ 12 ≤ i → packet i = sent i) :
    udhcpChecksum e (packet.store16 e ipCheckAt 0) 0 ipSize =
      udhcpChecksum e (ipHeader e (pseudo.store16 e udpCheckAt udp)) 0 ipSize := by
  apply udhcpChecksum_congr e _ _ 0 10 (by decide)
  intro i bound
  rw [zero_add]
  by_cases check : i < 10 ∨ 12 ≤ i
  · rw [store16_apart _ _ _ check,agree i (by show i < 576; omega) check,done,store16_apart _ _ _ check]
  have zero : pseudo i = 0 := pseudoPacket_zero built (by omega)
  rw [ipHeader_outside e _ (by omega),store16_apart e _ udp (by show i < 26 ∨ _; omega),zero]
  obtain rfl | rfl : i = 10 ∨ i = 11 := by omega
  · cases e <;> rfl
  · cases e <;> rfl

/-! The packet that is read. `packet` is memory that agrees with the finished packet. -/

variable (agree : ∀ i < packetSize, packet i = sent i)

include agree

omit built done in
theorem read_load16 (inside : p + 2 ≤ packetSize) : packet.load16 e p = sent.load16 e p := by
  simp only [load16]
  rw [agree p (by omega),agree (p + 1) (by omega)]

omit built done in
theorem read_load32 (inside : p + 4 ≤ packetSize) : packet.load32 e p = sent.load32 e p := by
  simp only [load32]
  rw [agree p (by omega),agree (p + 1) (by omega),agree (p + 2) (by omega),agree (p + 3) (by omega)]

theorem read_pseudoHeader (i : Nat) (bound : i < packetSize) :
    pseudoHeader e (packet.store16 e ipCheckAt 0) i = pseudo i := by
  have source : (packet.store16 e ipCheckAt 0).load32 e saddrAt = sourceIp := by
    rw [load32_store16_apart _ _ _ (by decide),read_load32 agree (by decide),
      finished_load32 done (by decide),pseudoPacket_saddr built]
  have dest : (packet.store16 e ipCheckAt 0).load32 e daddrAt = destIp := by
    rw [load32_store16_apart _ _ _ (by decide),read_load32 agree (by decide),
      finished_load32 done (by decide),pseudoPacket_daddr built]
  have length : (packet.store16 e ipCheckAt 0).load16 e udpLenAt = htons e 556 := by
    rw [load16_store16_apart _ _ _ (by decide),read_load16 agree (by decide),
      finished_load16 done (by decide),pseudoPacket_udpLen built]
  simp only [pseudoHeader,source,dest]
  rw [load16_store32_apart _ _ _ (by decide),load16_store32_apart _ _ _ (by decide),
    load16_put_outside _ _ (.inr (by decide)),load16_put_outside _ _ (.inr (by decide)),
    load16_store16_apart _ _ _ (by decide),length]
  by_cases header : i < ipSize
  · rw [pseudoPacket_header built i header]
    refine put_agree _ _ (put_agree _ _ (put_agree _ _
      (put_agree _ _ ?_)))
    have inside := put_inside ((packet.store16 e ipCheckAt 0).store16 e udpCheckAt 0) 0 i
      (replicate ipSize 0) (by simpa using header)
    rw [zero_add] at inside
    rw [inside,getElem_replicate]
  · have late : 20 ≤ i := Nat.le_of_not_lt header
    rw [store16_apart _ _ _ (.inr (by show 4 ≤ i; omega)),store32_apart _ _ _ (.inr (by show 20 ≤ i; omega)),
      store32_apart _ _ _ (.inr (by show 16 ≤ i; omega)),put_after _ (by show 10 ≤ i; omega),
      put_after _ (by rw [length_replicate]; show 0 + 20 ≤ i; omega)]
    by_cases check : i < 26 ∨ 28 ≤ i
    · rw [store16_apart _ _ _ check,store16_apart _ _ _ (.inr (by show 12 ≤ i; omega)),
        agree i bound,finished_outside done _ (by omega)]
    · rw [pseudoPacket_zero built (by omega)]
      obtain rfl | rfl : i = 26 ∨ i = 27 := by omega
      · cases e <;> rfl
      · cases e <;> rfl

theorem read_related (client : destPort = clientPort) : unrelated e packet 576 = false := by
  have port : packet.load16 e udpDestAt = htons e clientPort := by
    rw [read_load16 agree (by decide),finished_load16 done (by decide),pseudoPacket_udpDest built,client]
  have length : packet.load16 e udpLenAt = htons e 556 := by
    rw [read_load16 agree (by decide),finished_load16 done (by decide),pseudoPacket_udpLen built]
  have first : packet 0 = 0x45 := (agree 0 (by decide)).trans (finished_first built done)
  have protocol : packet protocolAt = ipprotoUdp := (agree protocolAt (by decide)).trans (finished_protocol built done)
  simp only [unrelated,port,length,first,protocol,ntohs_htons,ne_eq,not_true_eq_false,false_or]
  decide

theorem inspect_accepts (client : destPort = clientPort) (udpSum : udhcpChecksum e pseudo 0 packetSize = some udp)
    (ipSum : udhcpChecksum e (ipHeader e (pseudo.store16 e udpCheckAt udp)) 0 ipSize = some ip)
    (genuine : ntohl e (payload.cookie e) = dhcpMagic) (old : DhcpMessage) :
    ∃ result, inspect e old packet packetSize = some (.received dhcpMessageSize result) ∧
      Memory.get result 0 dhcpMessageSize = payload.get 0 dhcpMessageSize := by
  have total : (ntohs e (packet.load16 e totLenAt)).toNat = 576 := by
    rw [read_load16 agree (by decide),finished_totLen done,ntohs_htons]
    rfl
  have check : packet.load16 e ipCheckAt = ip := by
    rw [read_load16 agree (by decide),done,load16_store16]
  have udpCheck : (packet.store16 e ipCheckAt 0).load16 e udpCheckAt = udp := by
    rw [load16_store16_apart _ _ _ (by decide),read_load16 agree (by decide),done,
      load16_store16_apart _ _ _ (by decide)]
    have same := load16_store16 e pseudo udpCheckAt udp
    simp only [load16] at same ⊢
    rw [ipHeader_outside _ _ (by decide),ipHeader_outside _ _ (by decide)]
    exact same
  have data : (pseudoHeader e (packet.store16 e ipCheckAt 0)).get dataAt dhcpMessageSize =
      payload.get 0 dhcpMessageSize := by
    apply ext_getElem (by simp)
    intro i bound _
    simp only [get_length] at bound
    have inside : dataAt + i < packetSize := by
      have : i < 548 := bound
      show 28 + i < 576
      omega
    simp only [Memory.get,getElem_map,getElem_range,zero_add]
    rw [read_pseudoHeader built done agree _ inside,pseudoPacket_data built _ bound]
  have sum : udhcpChecksum e (pseudoHeader e (packet.store16 e ipCheckAt 0)) 0 576 = some udp := by
    rw [← udpSum]
    apply udhcpChecksum_congr e _ _ 0 288 (by decide)
    intro i bound
    rw [zero_add,read_pseudoHeader built done agree i bound]
  have kept : Memory.get (put old 0 (payload.get 0 dhcpMessageSize)) 0 dhcpMessageSize =
      payload.get 0 dhcpMessageSize := by
    have same := get_put_same old 0 (payload.get 0 dhcpMessageSize)
    rwa [get_length] at same
  refine ⟨put old 0 (payload.get 0 dhcpMessageSize),?_,kept⟩
  have cookie : ntohl e (DhcpMessage.cookie e (put old 0 (payload.get 0 dhcpMessageSize))) = dhcpMagic := by
    rw [← genuine]
    simp only [DhcpMessage.cookie,load32]
    rw [put_get _ _ _ _ (by decide),put_get _ _ _ _ (by decide),put_get _ _ _ _ (by decide),put_get _ _ _ _ (by decide)]
  have copied : copyPayload e old (pseudoHeader e (packet.store16 e ipCheckAt 0)) 576 =
      some (.received dhcpMessageSize (put old 0 (payload.get 0 dhcpMessageSize))) := by
    rw [copyPayload,if_neg (by decide)]
    simp only [show 576 - (ipSize + udpSize) = dhcpMessageSize from rfl,data,cookie]
    rfl
  rw [inspect,if_neg (by decide),total,if_neg (by decide)]
  simp only [read_related built done agree client,
    read_ipChecksum built done fun i bound _ => agree i bound,ipSum,check,udpCheck,sum,copied,
    bind_eq_bind,bind_some,ne_eq,not_true_eq_false,if_false,Bool.false_eq_true,ite_self]

omit agree

/-- Changing one word of the header makes its checksum wrong, unless the change trades
one zero of ones'-complement arithmetic for the other. -/
theorem changed_checksum (header : k < 10)
    (ipSum : udhcpChecksum e (ipHeader e (pseudo.store16 e udpCheckAt udp)) 0 ipSize = some ip)
    (changed : word ≠ sent.load16 e (2 * k)) (up : ¬ (word = 0xffff ∧ sent.load16 e (2 * k) = 0))
    (down : ¬ (word = 0 ∧ sent.load16 e (2 * k) = 0xffff))
    (agree : ∀ i < packetSize, packet i = sent.store16 e (2 * k) word i) :
    ∃ sum, udhcpChecksum e (packet.store16 e ipCheckAt 0) 0 ipSize = some sum ∧
      packet.load16 e ipCheckAt ≠ sum := by
  let stored := ipHeader e (pseudo.store16 e udpCheckAt udp)
  have zero (i : Nat) (check : i = 10 ∨ i = 11) : stored i = 0 := by
    simp only [stored]
    rw [ipHeader_outside e _ (by omega),store16_apart e _ udp (by show i < 26 ∨ _; omega)]
    exact pseudoPacket_zero built (by omega)
  have cleared (i : Nat) (check : i = 10 ∨ i = 11) : packet.store16 e ipCheckAt 0 i = 0 := by
    rcases check with rfl | rfl <;> cases e <;> rfl
  have load : packet.load16 e ipCheckAt = (sent.store16 e (2 * k) word).load16 e ipCheckAt := by
    simp only [load16]
    rw [agree _ (by decide),agree _ (by decide)]
  have ipWord : sent.load16 e ipCheckAt = ip := by rw [done,load16_store16]
  by_cases own : k = 5
  · subst own
    refine ⟨ip,?_,?_⟩
    · rw [← ipSum]
      refine read_ipChecksum built done fun i bound apart => ?_
      rw [agree i bound,store16_apart _ _ _ apart]
    · rw [load,show 2 * 5 = ipCheckAt from rfl,load16_store16]
      rw [show 2 * 5 = ipCheckAt from rfl,ipWord] at changed
      exact changed
  · have same : udhcpChecksum e (packet.store16 e ipCheckAt 0) 0 ipSize =
        udhcpChecksum e (stored.store16 e (2 * k) word) 0 ipSize := by
      apply udhcpChecksum_congr e _ _ 0 10 (by decide)
      intro i bound
      rw [zero_add]
      by_cases check : i < 10 ∨ 12 ≤ i
      · rw [store16_apart _ _ _ check,agree i (by show i < 576; omega)]
        refine put_agree _ _ ?_
        rw [done,store16_apart _ _ _ check]
      · rw [cleared i (by omega),store16_apart _ _ _ (by omega),zero i (by omega)]
    have kept : stored.load16 e (2 * k) = sent.load16 e (2 * k) := by
      rw [done,load16_store16_apart _ _ _ (by show 2 * k + 2 ≤ 10 ∨ 12 ≤ 2 * k; omega)]
    have oldSum := udhcpChecksum_words e stored 0 10 (by decide)
    have newSum := udhcpChecksum_words e (stored.store16 e (2 * k) word) 0 10 (by decide)
    refine ⟨_,same.trans newSum,?_⟩
    rw [load,load16_store16_apart _ _ _ (by show 12 ≤ 2 * k ∨ 2 * k + 2 ≤ 10; omega),ipWord,mem_unique ipSum oldSum]
    intro equal
    have modulo := checksum_mod equal
    have moved := wordSum_store16 e stored 0 word header
    rw [zero_add,kept] at moved
    have oldBound := (sent.load16 e (2 * k)).toNat_lt
    have newBound := word.toNat_lt
    simp only [ne_eq,← UInt16.toNat_inj] at changed up down
    change ¬ (word.toNat = 65535 ∧ _ = 0) at up
    change ¬ (word.toNat = 0 ∧ _ = 65535) at down
    omega

end

def replaceWord (e : Endian) (datagram : List UInt8) (k : Nat) (word : UInt16) : List UInt8 :=
  (store16 e (fun i => datagram.getD i 0) (2 * k) word).get 0 datagram.length

theorem getRawPacket_full (e : Endian) (old : DhcpMessage) (m : Memory) :
    ∃ packet : Memory, (∀ i < packetSize, packet i = m i) ∧
      getRawPacket e old (some (m.get 0 packetSize)) = inspect e old packet packetSize := by
  refine ⟨put (fun _ => 0) 0 (m.get 0 packetSize),put_get _ m packetSize,?_⟩
  simp only [getRawPacket,get_length,Nat.min_self]
  rw [take_of_length_le (by simp)]

theorem getD_get (m : Memory) {count i : Nat} (bound : i < count) : (m.get 0 count).getD i 0 = m i := by
  simp [Memory.get,getD_eq_getElem?_getD,bound]

/-- The raw datagram round trip. For every DHCP message the datagram is built without an
overflow of the checksum, a client accepts it and gets the message back; and no datagram
with one word of the IP header changed is accepted, the two zeros apart. -/
theorem rawPacket_roundTrip (e : Endian) (payload : DhcpMessage) (sourceIp destIp : UInt32) (sourcePort : UInt16)
    (genuine : ntohl e (payload.cookie e) = dhcpMagic) :
    ∃ datagram, udhcpRawPacket e payload sourceIp sourcePort destIp clientPort = some datagram ∧
      datagram.length = packetSize ∧
      (∀ addr count, addr + count ≤ packetSize →
        (checksumLoop e (fun i => datagram.getD i 0) count addr 0).isSome) ∧
      (∀ old, ∃ result, getRawPacket e old (some datagram) = some (.received dhcpMessageSize result) ∧
        Memory.get result 0 dhcpMessageSize = payload.get 0 dhcpMessageSize) ∧
      ∀ k < ipSize / 2, ∀ word, word ≠ load16 e (fun i => datagram.getD i 0) (2 * k) →
        ¬ (word = 0xffff ∧ load16 e (fun i => datagram.getD i 0) (2 * k) = 0) →
        ¬ (word = 0 ∧ load16 e (fun i => datagram.getD i 0) (2 * k) = 0xffff) →
        ∀ old, ∃ code, getRawPacket e old (some (replaceWord e datagram k word)) = some (.failed code) := by
  obtain ⟨udp,ip,udpSum,ipSum,built⟩ := udhcpRawPacket_finished e payload sourceIp destIp sourcePort clientPort
  let sent := finished e payload sourceIp destIp sourcePort clientPort udp ip
  have view (i : Nat) (bound : i < packetSize) : (sent.get 0 packetSize).getD i 0 = sent i := getD_get sent bound
  refine ⟨_,built,get_length _ _ _,?_,?_,?_⟩
  · intro addr count inside
    apply checksumLoop_isSome
    have : addr + count ≤ 576 := inside
    omega
  · intro old
    obtain ⟨packet,agree,read⟩ := getRawPacket_full e old sent
    rw [read]
    exact inspect_accepts rfl rfl agree rfl udpSum ipSum genuine old
  · intro k header word changed up down old
    have inside : k < 10 := header
    have load : load16 e (fun i => (sent.get 0 packetSize).getD i 0) (2 * k) = sent.load16 e (2 * k) := by
      simp only [load16]
      rw [view _ (by show 2 * k < 576; omega),view _ (by show 2 * k + 1 < 576; omega)]
    rw [load] at changed up down
    rw [replaceWord,get_length]
    obtain ⟨packet,agree,read⟩ := getRawPacket_full e old
      (store16 e (fun i => (sent.get 0 packetSize).getD i 0) (2 * k) word)
    have same (i : Nat) (bound : i < packetSize) : packet i = sent.store16 e (2 * k) word i :=
      (agree i bound).trans (put_agree _ _ (view i bound))
    obtain ⟨sum,computed,wrong⟩ := changed_checksum rfl rfl inside ipSum changed up down same
    rw [read]
    exact inspect_fails e old packetSize computed wrong

/-- A DISCOVER on its way to a client. -/
theorem rawPacket_roundTrip_discover : ∃ datagram,
    udhcpRawPacket .little (udhcpInitHeader .little dhcpDiscover) 0 serverPort 0xffffffff clientPort =
      some datagram ∧
    ∃ result, getRawPacket .little (fun _ => 0) (some datagram) = some (.received dhcpMessageSize result) ∧
      Memory.get result 0 dhcpMessageSize = (udhcpInitHeader .little dhcpDiscover).get 0 dhcpMessageSize := by
  obtain ⟨datagram,built,_,_,accepted,_⟩ := rawPacket_roundTrip .little (udhcpInitHeader .little dhcpDiscover) 0
    0xffffffff serverPort (by decide +kernel)
  exact ⟨datagram,built,accepted _⟩

end Stablebox.Udhcp
