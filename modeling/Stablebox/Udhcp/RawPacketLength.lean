import Stablebox.Udhcp.RawPacket

/-! How many bytes `get_raw_packet` copies out of a datagram, and where they lie. -/
namespace Stablebox.Udhcp

open DhcpMessage Option Memory

/-- The two checksums: the code they fail with, or the packet under its pseudo-header. -/
def checksumTests (e : Endian) (packet : Memory) (bytes : Nat) : Option (Int ⊕ Memory × Nat) := do
  let check := packet.load16 e ipCheckAt
  let packet := packet.store16 e ipCheckAt 0
  let sum ← udhcpChecksum e packet 0 ipSize
  if check ≠ sum then some (.inl (-1))
  else
    let check := packet.load16 e udpCheckAt
    let packet := pseudoHeader e packet
    if check = 0 then some (.inr (packet,bytes))
    else do
      let sum ← udhcpChecksum e packet 0 bytes
      if check ≠ sum then some (.inl (-2)) else some (.inr (packet,bytes))

/-- The tests in front of the copy; behind the first two, `bytes` is the total length of the IP header. -/
def rawTests (e : Endian) (packet : Memory) (bytes : Nat) : Option (Int ⊕ Memory × Nat) :=
  if bytes < ipSize + udpSize then some (.inl (-2))
  else if bytes < (ntohs e (packet.load16 e totLenAt)).toNat then some (.inl (-2))
  else if unrelated e packet (ntohs e (packet.load16 e totLenAt)).toNat then some (.inl (-2))
  else checksumTests e packet (ntohs e (packet.load16 e totLenAt)).toNat

/-- What `read` leaves in `packet`, which was cleared before. -/
def packetOf (datagram : List UInt8) : Memory := Memory.put (fun _ => 0) 0 (datagram.take packetSize)

def totLen (e : Endian) (datagram : List UInt8) : Nat := (ntohs e ((packetOf datagram).load16 e totLenAt)).toNat

/-- The third argument of `memcpy`; the difference is a `size_t` of `width` bits. -/
def copyLength (width bytes : Nat) : Nat := (2 ^ width + bytes - (ipSize + udpSize)) % 2 ^ width

/-- The length of the copy that is made of a datagram, if one is made. -/
def rawCopy (width : Nat) (e : Endian) (datagram : List UInt8) : Option Nat :=
  match rawTests e (packetOf datagram) (min datagram.length packetSize) with
  | some (.inr (_,bytes)) => some (copyLength width bytes)
  | _ => none

theorem checksumTests_passed (passed : checksumTests e packet bytes = some (.inr (tested,total))) :
    total = bytes ∧ tested = pseudoHeader e (packet.store16 e ipCheckAt 0) := by
  unfold checksumTests at passed
  dsimp only at passed
  cases first : udhcpChecksum e (packet.store16 e ipCheckAt 0) 0 ipSize with
  | none =>
    rw [first] at passed
    cases passed
  | some sum =>
    rw [first] at passed
    simp only [bind_eq_bind,bind_some] at passed
    split at passed
    · cases passed
    split at passed
    · cases passed
      exact ⟨rfl,rfl⟩
    cases second : udhcpChecksum e (pseudoHeader e (packet.store16 e ipCheckAt 0)) 0 bytes with
    | none =>
      rw [second] at passed
      cases passed
    | some sum =>
      rw [second] at passed
      simp only [bind_some] at passed
      split at passed
      · cases passed
      · cases passed
        exact ⟨rfl,rfl⟩

theorem rawTests_passed (passed : rawTests e packet bytes = some (.inr (tested,total))) :
    total = (ntohs e (packet.load16 e totLenAt)).toNat ∧ total ≤ bytes ∧ total ≤ packetSize ∧
      tested = pseudoHeader e (packet.store16 e ipCheckAt 0) := by
  unfold rawTests at passed
  split at passed
  · cases passed
  split at passed
  · cases passed
  rename_i enough
  split at passed
  · cases passed
  rename_i related
  obtain ⟨rfl,same⟩ := checksumTests_passed passed
  refine ⟨rfl,Nat.le_of_not_lt enough,?_,same⟩
  simp only [unrelated,decide_eq_true_eq,not_or] at related
  exact Nat.le_of_not_lt related.2.2.2.2.1

theorem inspect_eq_rawTests (e : Endian) (payload : DhcpMessage) (packet : Memory) (bytes : Nat) :
    inspect e payload packet bytes = (rawTests e packet bytes).bind fun tested =>
      match tested with
      | .inl code => some (.failed code)
      | .inr (packet,bytes) => copyPayload e payload packet bytes := by
  unfold inspect rawTests checksumTests
  dsimp only
  split
  · rfl
  split
  · rfl
  split
  · rfl
  cases udhcpChecksum e (packet.store16 e ipCheckAt 0) 0 ipSize with
  | none => rfl
  | some sum =>
    simp only [bind_eq_bind,bind_some]
    split
    · rfl
    split
    · rfl
    cases udhcpChecksum e (pseudoHeader e (packet.store16 e ipCheckAt 0)) 0
        (ntohs e (packet.load16 e totLenAt)).toNat with
    | none => rfl
    | some sum =>
      simp only [bind_some]
      split
      · rfl
      · rfl

theorem copyLength_of_le (wide : 32 ≤ width) (long : ipSize + udpSize ≤ bytes) (short : bytes ≤ packetSize) :
    copyLength width bytes = bytes - (ipSize + udpSize) := by
  have size : 2 ^ 32 ≤ 2 ^ width := Nat.pow_le_pow_right (by decide) wide
  have room : bytes - (ipSize + udpSize) < 2 ^ width := by
    have : packetSize < 2 ^ 32 := by decide
    omega
  rw [copyLength,Nat.add_sub_assoc long,Nat.add_mod_left,Nat.mod_eq_of_lt room]

theorem pseudoHeader_data (e : Endian) (packet : Memory) (behind : dataAt ≤ i) :
    pseudoHeader e (packet.store16 e ipCheckAt 0) i = packet i := by
  simp only [pseudoHeader,store16,store32]
  have places : totLenAt = 2 ∧ protocolAt = 9 ∧ ipCheckAt = 10 ∧ saddrAt = 12 ∧ daddrAt = 16 ∧ udpCheckAt = 26 ∧
    dataAt = 28 ∧ ipSize = 20 := by decide
  repeat rw [put_after _ (by simp; omega)]

theorem packetOf_get (inside : dataAt + count ≤ min datagram.length packetSize) :
    (packetOf datagram).get dataAt count = (datagram.drop dataAt).take count := by
  apply List.ext_getElem?
  intro i
  by_cases here : i < count
  · have bound : dataAt + i < datagram.length := by omega
    have taken : dataAt + i < packetSize := by omega
    simp [Memory.get,packetOf,Memory.put,here,List.getElem?_take,taken,bound]
  · simp [Memory.get,here]

/-- If the total length covers the two headers, what is copied is a part of the message, lies inside of what was
received, and its length is returned, unless the cookie of the message is wrong. -/
theorem getRawPacket_copies (width : Nat) (wide : 32 ≤ width) (e : Endian) (old : DhcpMessage) (datagram : List UInt8)
    (count : Nat) (copied : rawCopy width e datagram = some count) (long : ipSize + udpSize ≤ totLen e datagram) :
    count ≤ dhcpMessageSize ∧ dataAt + count ≤ min datagram.length packetSize ∧
      getRawPacket e old (some datagram) =
        some (if ntohl e (cookie e (old.put 0 ((datagram.drop dataAt).take count))) = dhcpMagic then
          .received count (old.put 0 ((datagram.drop dataAt).take count)) else .failed (-2)) := by
  unfold rawCopy at copied
  split at copied
  case h_2 => cases copied
  case h_1 tested total passed =>
    obtain ⟨announced,received,short,same⟩ := rawTests_passed passed
    have enough : ipSize + udpSize ≤ total := announced ▸ long
    rw [copyLength_of_le wide enough short] at copied
    cases copied
    have sizes : dataAt = ipSize + udpSize ∧ packetSize = ipSize + udpSize + dhcpMessageSize := by decide
    have inside : dataAt + (total - (ipSize + udpSize)) ≤ min datagram.length packetSize := by omega
    have data : tested.get dataAt (total - (ipSize + udpSize)) =
        (datagram.drop dataAt).take (total - (ipSize + udpSize)) := by
      rw [← packetOf_get inside,same]
      exact get_congr fun i _ => pseudoHeader_data e _ (Nat.le_add_right _ _)
    refine ⟨by omega,inside,?_⟩
    change inspect e old (packetOf datagram) (min datagram.length packetSize) = _
    rw [inspect_eq_rawTests,passed]
    simp only [bind_some,copyPayload,Nat.not_lt.2 enough,if_false,data,ite_not]
    split <;> rfl

def sampleHeaders : List UInt8 :=
  [0x45,0,0x01,0x0c,0,0,0,0,64,17,0x79,0xe2,0,0,0,0,0,0,0,0,0,67,0,68,0x00,0xf8,0,0]

def sampleDatagram : List UInt8 := sampleHeaders ++ List.replicate 236 0 ++ [0x63,0x82,0x53,0x63]

def blankMessage : DhcpMessage := fun _ => 0

theorem getRawPacket_copies_sample : 240 ≤ dhcpMessageSize ∧ dataAt + 240 ≤ min sampleDatagram.length packetSize ∧
    getRawPacket .little blankMessage (some sampleDatagram) =
      some (if ntohl .little (cookie .little (Memory.put blankMessage 0 ((sampleDatagram.drop dataAt).take 240))) =
          dhcpMagic then
        .received 240 (Memory.put blankMessage 0 ((sampleDatagram.drop dataAt).take 240)) else .failed (-2)) :=
  getRawPacket_copies 64 (by decide) .little blankMessage sampleDatagram 240 (by decide +kernel) (by decide +kernel)

def RawResult.value : RawResult → Int
  | .failed code => code
  | .received bytes _ => bytes

def noCookie : List UInt8 := sampleHeaders ++ List.replicate 240 0

def shortTotal : List UInt8 := [0x45,0,0,20,0,0,0,0,64,17,0x7a,0xda,0,0,0,0,0,0,0,0,0,67,0,68,0,0,0,0]

/-- 240 bytes are copied and -2 is returned; of the other datagram more is copied than any object holds. -/
theorem getRawPacket_other_lengths :
    (rawCopy 64 .little noCookie = some 240 ∧
      (getRawPacket .little blankMessage (some noCookie)).map RawResult.value = some (-2)) ∧
    rawCopy 64 .little shortTotal = some 18446744073709551608 := by
  decide +kernel

end Stablebox.Udhcp
