import Mathlib.Data.UInt
import Mathlib.Tactic.IntervalCases

/-! Flat byte memory with loads and stores in either byte order. An object is an
offset into the memory that holds it, so a read past its last byte is a read of
whatever lies behind it, not an error. -/
namespace Stablebox

open List

inductive Endian where
  | little
  | big
  deriving DecidableEq, Repr

abbrev Memory := Nat → UInt8

namespace Endian

/-- Byte `k` of a number, counted from the least significant one. -/
def octet (x k : Nat) : UInt8 := UInt8.ofNat (x / 256 ^ k)

@[simp] theorem octet_toNat (x k : Nat) : (octet x k).toNat = x / 256 ^ k % 256 := by
  simp [octet]

def split16 : Endian → UInt16 → List UInt8
  | .little,x => [octet x.toNat 0,octet x.toNat 1]
  | .big,x => [octet x.toNat 1,octet x.toNat 0]

def join16 : Endian → UInt8 → UInt8 → UInt16
  | .little,a,b => UInt16.ofNat (a.toNat + 256 * b.toNat)
  | .big,a,b => UInt16.ofNat (256 * a.toNat + b.toNat)

def split32 : Endian → UInt32 → List UInt8
  | .little,x => [octet x.toNat 0,octet x.toNat 1,octet x.toNat 2,octet x.toNat 3]
  | .big,x => [octet x.toNat 3,octet x.toNat 2,octet x.toNat 1,octet x.toNat 0]

def join32 : Endian → UInt8 → UInt8 → UInt8 → UInt8 → UInt32
  | .little,a,b,c,d =>
    UInt32.ofNat (a.toNat + 256 * b.toNat + 65536 * c.toNat + 16777216 * d.toNat)
  | .big,a,b,c,d =>
    UInt32.ofNat (16777216 * a.toNat + 65536 * b.toNat + 256 * c.toNat + d.toNat)

@[simp] theorem split16_length (e : Endian) (x : UInt16) : (split16 e x).length = 2 := by
  cases e <;> rfl

@[simp] theorem split32_length (e : Endian) (x : UInt32) : (split32 e x).length = 4 := by
  cases e <;> rfl

end Endian

open Endian

/-- `memcpy` of a list of bytes to `offset`. -/
def Memory.put (m : Memory) (offset : Nat) (bytes : List UInt8) : Memory := fun i =>
  if offset ≤ i then bytes[i - offset]?.getD (m i) else m i

def Memory.get (m : Memory) (offset count : Nat) : List UInt8 :=
  (List.range count).map fun i => m (offset + i)

def Memory.load16 (e : Endian) (m : Memory) (p : Nat) : UInt16 :=
  join16 e (m p) (m (p + 1))

def Memory.load32 (e : Endian) (m : Memory) (p : Nat) : UInt32 :=
  join32 e (m p) (m (p + 1)) (m (p + 2)) (m (p + 3))

def Memory.store16 (e : Endian) (m : Memory) (p : Nat) (x : UInt16) : Memory :=
  m.put p (split16 e x)

def Memory.store32 (e : Endian) (m : Memory) (p : Nat) (x : UInt32) : Memory :=
  m.put p (split32 e x)

/-- Network order to host order: the number whose bytes, most significant first,
are the bytes of `x` in memory. -/
def ntohl (e : Endian) (x : UInt32) : UInt32 :=
  Memory.load32 .big (Memory.store32 e (fun _ => 0) 0 x) 0

def htonl (e : Endian) (x : UInt32) : UInt32 :=
  Memory.load32 e (Memory.store32 .big (fun _ => 0) 0 x) 0

def ntohs (e : Endian) (x : UInt16) : UInt16 :=
  Memory.load16 .big (Memory.store16 e (fun _ => 0) 0 x) 0

def htons (e : Endian) (x : UInt16) : UInt16 :=
  Memory.load16 e (Memory.store16 .big (fun _ => 0) 0 x) 0

theorem Memory.put_before (m : Memory) (bytes : List UInt8) (before : i < offset) : m.put offset bytes i = m i := by
  simp [put,Nat.not_le.mpr before]

theorem Memory.put_after (m : Memory) (after : offset + bytes.length ≤ i) : m.put offset bytes i = m i := by
  have gone : bytes[i - offset]? = none := getElem?_eq_none (by omega)
  simp [put,gone]

theorem Memory.put_outside (m : Memory)
    (outside : i < offset ∨ offset + bytes.length ≤ i) : m.put offset bytes i = m i := by
  rcases outside with before | after
  · exact m.put_before bytes before
  · exact m.put_after after

theorem Memory.put_inside (m : Memory) (offset i : Nat) (bytes : List UInt8)
    (inside : i < bytes.length) : m.put offset bytes (offset + i) = bytes[i] := by
  simp [put,inside]

variable {m n : Memory}

namespace Memory

theorem put_agree (offset : Nat) (bytes : List UInt8) (same : m i = n i) :
    m.put offset bytes i = n.put offset bytes i := by
  simp only [put,same]

@[simp] theorem get_length (m : Memory) (offset count : Nat) : (m.get offset count).length = count := by simp [get]

theorem get_put_outside (m : Memory) (offset p count : Nat) (bytes : List UInt8)
    (outside : p + count ≤ offset ∨ offset + bytes.length ≤ p) : (m.put offset bytes).get p count = m.get p count := by
  apply map_congr_left
  intro i member
  have bound := mem_range.mp member
  exact m.put_outside (by omega)

theorem get_put_same (m : Memory) (offset : Nat) (bytes : List UInt8) :
    (m.put offset bytes).get offset bytes.length = bytes := by
  apply ext_getElem (by simp)
  intro i _ inside
  simp only [get,getElem_map,getElem_range]
  exact m.put_inside offset i bytes inside

theorem put_get (m n : Memory) (count i : Nat) (bound : i < count) : m.put 0 (n.get 0 count) i = n i := by
  have inside := m.put_inside 0 i (n.get 0 count) (by simpa using bound)
  simpa [get] using inside

theorem get_add (m : Memory) (offset a b : Nat) : m.get offset (a + b) = m.get offset a ++ m.get (offset + a) b := by
  simp [get,range_add,Function.comp_def,Nat.add_assoc]

theorem get_congr {count : Nat}
    (same : ∀ i, i < count → m (offset + i) = n (offset + i)) : m.get offset count = n.get offset count := by
  apply map_congr_left
  intro i member
  exact same i (mem_range.mp member)

theorem get_eq_iff (m : Memory) (offset : Nat) (bytes : List UInt8) :
    m.get offset bytes.length = bytes ↔ ∀ i (bound : i < bytes.length), m (offset + i) = bytes[i] := by
  constructor
  · intro same i bound
    have here := congrArg (fun l : List UInt8 => l[i]?) same
    simpa [get,bound] using here
  · intro same
    apply ext_getElem (by simp)
    intro i _ bound
    simpa [get] using same i bound

theorem get_middle (before bytes after : List UInt8) :
    get (fun i => (before ++ bytes ++ after).getD i 0) before.length bytes.length = bytes := by
  rw [get_eq_iff]
  intro i bound
  simp [getD_eq_getElem?_getD,getElem?_append,bound]

end Memory

variable (e : Endian)

namespace Memory

theorem load32_congr (same : m.get p 4 = n.get p 4) : m.load32 e p = n.load32 e p := by
  simp only [get,range_succ,range_zero,nil_append,map_cons,map_nil,cons_append,cons.injEq,and_true] at same
  obtain ⟨h0,h1,h2,h3⟩ := same
  simp only [Nat.add_zero] at h0
  simp only [load32,h0,h1,h2,h3]

theorem load16_congr (same : m.get p 2 = n.get p 2) : m.load16 e p = n.load16 e p := by
  simp only [get,range_succ,range_zero,nil_append,map_cons,map_nil,cons_append,cons.injEq,and_true] at same
  obtain ⟨h0,h1⟩ := same
  simp only [Nat.add_zero] at h0
  simp only [load16,h0,h1]

theorem load16_put_outside (m : Memory)
    (outside : p + 2 ≤ offset ∨ offset + bytes.length ≤ p) : (m.put offset bytes).load16 e p = m.load16 e p :=
  load16_congr e (m.get_put_outside offset p 2 bytes outside)

theorem load32_put_outside (m : Memory)
    (outside : p + 4 ≤ offset ∨ offset + bytes.length ≤ p) : (m.put offset bytes).load32 e p = m.load32 e p :=
  load32_congr e (m.get_put_outside offset p 4 bytes outside)

@[simp] theorem load16_store16 (m : Memory) (p : Nat) (x : UInt16) : (m.store16 e p x).load16 e p = x := by
  have bound := x.toNat_lt
  apply UInt16.toNat_inj.mp
  cases e
  · simp only [load16,store16,put,split16,join16]
    simp
    omega
  · simp only [load16,store16,put,split16,join16]
    simp
    omega

end Memory

theorem Memory.load16_store16_apart (m : Memory) (x : UInt16)
    (apart : p + 2 ≤ q ∨ q + 2 ≤ p) : (m.store16 e q x).load16 e p = m.load16 e p :=
  m.load16_put_outside e (by rwa [split16_length])

theorem Memory.load16_store32_apart (m : Memory) (x : UInt32)
    (apart : p + 2 ≤ q ∨ q + 4 ≤ p) : (m.store32 e q x).load16 e p = m.load16 e p :=
  m.load16_put_outside e (by rwa [split32_length])

theorem Memory.load32_store16_apart (m : Memory) (x : UInt16)
    (apart : p + 4 ≤ q ∨ q + 2 ≤ p) : (m.store16 e q x).load32 e p = m.load32 e p :=
  m.load32_put_outside e (by rwa [split16_length])

theorem Memory.load32_store32_apart (m : Memory) (x : UInt32)
    (apart : p + 4 ≤ q ∨ q + 4 ≤ p) : (m.store32 e q x).load32 e p = m.load32 e p :=
  m.load32_put_outside e (by rwa [split32_length])

theorem Memory.store16_apart (m : Memory) (x : UInt16) (apart : i < q ∨ q + 2 ≤ i) : m.store16 e q x i = m i :=
  m.put_outside (by rwa [split16_length])

theorem Memory.store32_apart (m : Memory) (x : UInt32) (apart : i < q ∨ q + 4 ≤ i) : m.store32 e q x i = m i :=
  m.put_outside (by rwa [split32_length])

namespace Memory

@[simp] theorem load32_store32 (m : Memory) (p : Nat) (x : UInt32) : (m.store32 e p x).load32 e p = x := by
  have bound := x.toNat_lt
  apply UInt32.toNat_inj.mp
  cases e
  · simp only [load32,store32,put,split32,join32]
    simp
    omega
  · simp only [load32,store32,put,split32,join32]
    simp
    omega

private theorem get_store32 (m : Memory) (p : Nat) (x : UInt32) : (m.store32 e p x).get p 4 = split32 e x := by
  have same := get_put_same m p (split32 e x)
  rwa [split32_length] at same

private theorem get_store16 (m : Memory) (p : Nat) (x : UInt16) : (m.store16 e p x).get p 2 = split16 e x := by
  have same := get_put_same m p (split16 e x)
  rwa [split16_length] at same

theorem load32_eq (m : Memory) (p : Nat) (x : UInt32) (image : m.get p 4 = split32 e x) : m.load32 e p = x := by
  rw [← load32_store32 e m p x]
  exact load32_congr e (image.trans (get_store32 e m p x).symm)

theorem load16_eq (image : m.get p 2 = split16 e x) : m.load16 e p = x := by
  rw [← load16_store16 e m p x]
  exact load16_congr e (image.trans (get_store16 e m p x).symm)

theorem split16_load16 (m : Memory) (p : Nat) : split16 e (m.load16 e p) = m.get p 2 := by
  have view : m.get p 2 = [m p,m (p + 1)] := by simp [get,range_succ]
  have h0 := (m p).toNat_lt
  have h1 := (m (p + 1)).toNat_lt
  rw [view]
  cases e
  · simp only [load16,split16,join16,cons.injEq,and_true,← UInt8.toNat_inj,octet_toNat,UInt16.toNat_ofNat']
    omega
  · simp only [load16,split16,join16,cons.injEq,and_true,← UInt8.toNat_inj,octet_toNat,UInt16.toNat_ofNat']
    omega

end Memory

theorem Memory.split32_load32 (m : Memory) (p : Nat) : split32 e (m.load32 e p) = m.get p 4 := by
  have view : m.get p 4 = [m p,m (p + 1),m (p + 2),m (p + 3)] := by
    simp [get,range_succ]
  have h0 := (m p).toNat_lt
  have h1 := (m (p + 1)).toNat_lt
  have h2 := (m (p + 2)).toNat_lt
  have h3 := (m (p + 3)).toNat_lt
  rw [view]
  cases e
  · simp only [load32,split32,join32,cons.injEq,and_true,← UInt8.toNat_inj,octet_toNat,UInt32.toNat_ofNat']
    omega
  · simp only [load32,split32,join32,cons.injEq,and_true,← UInt8.toNat_inj,octet_toNat,UInt32.toNat_ofNat']
    omega

open Memory

@[simp] theorem ntohs_htons (x : UInt16) : ntohs e (htons e x) = x := by
  apply load16_eq
  rw [get_store16,htons,split16_load16,get_store16]

@[simp] theorem ntohl_htonl (x : UInt32) : ntohl e (htonl e x) = x := by
  apply load32_eq
  rw [get_store32,htonl,split32_load32,get_store32]

@[simp] theorem htonl_ntohl (x : UInt32) : htonl e (ntohl e x) = x := by
  apply load32_eq
  rw [get_store32,ntohl,split32_load32,get_store32]

theorem split32_htonl (x : UInt32) : split32 e (htonl e x) = split32 .big x := by
  rw [htonl,split32_load32,get_store32]

end Stablebox
