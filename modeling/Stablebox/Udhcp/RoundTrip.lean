import Stablebox.Udhcp.Exclusive

/-! The lease file: what `read_leases` makes of the file that `write_leases` left. The
records come back as they were written; the table that is filled with them keeps each
one unless its expiry is zero and another record follows. -/
namespace Stablebox.Udhcp

open Server Memory UInt32
open List hiding Vector

/-! The bytes of the file. -/

theorem image_length (e : Endian) (lease : DhcpOfferedAddr) : (lease.image e).length = 24 := by
  simp [DhcpOfferedAddr.image]

theorem ofImage_image (e : Endian) (lease : DhcpOfferedAddr) : DhcpOfferedAddr.ofImage e (lease.image e) = lease := by
  have chaddr : Vector.ofFn (fun i : Fin 16 => (lease.image e).getD i.val 0) = lease.chaddr := by
    apply Vector.ext
    intro i bound
    simp [DhcpOfferedAddr.image,getD_eq_getElem?_getD,getElem?_append_left]
  have yiaddr : load32 e (fun i => (lease.image e).getD i 0) 16 = lease.yiaddr := by
    apply load32_eq
    simpa [DhcpOfferedAddr.image] using get_middle lease.chaddr.toList (Endian.split32 e lease.yiaddr)
      (Endian.split32 e lease.expires)
  have expires : load32 e (fun i => (lease.image e).getD i 0) 20 = lease.expires := by
    apply load32_eq
    simpa [DhcpOfferedAddr.image] using get_middle (lease.chaddr.toList ++ Endian.split32 e lease.yiaddr)
      (Endian.split32 e lease.expires) []
  simp only [DhcpOfferedAddr.ofImage,chaddr,yiaddr,expires]

theorem freadLeases_image (e : Endian) (records : List DhcpOfferedAddr) (fuel : Nat)
    (enough : records.length ≤ fuel) : freadLeases e fuel (records.flatMap (·.image e)) = records := by
  induction records generalizing fuel with
  | nil => cases fuel <;> rfl
  | cons lease rest ih =>
    cases fuel with
    | zero => simp at enough
    | succ fuel =>
      have long : ¬ (lease.image e ++ rest.flatMap (·.image e)).length < 24 := by
        rw [length_append,image_length]
        omega
      have front : (lease.image e ++ rest.flatMap (·.image e)).take 24 = lease.image e :=
        take_left' (image_length e lease)
      have back : (lease.image e ++ rest.flatMap (·.image e)).drop 24 = rest.flatMap (·.image e) :=
        drop_left' (image_length e lease)
      rw [flatMap_cons,freadLeases,if_neg long,front,back,ofImage_image,ih fuel (by simpa using enough)]

section

variable (cfg : ServerConfig) (w : World)

def saved (t : Nat) (slot : DhcpOfferedAddr) : DhcpOfferedAddr :=
  let expires :=
    if cfg.remaining then
      if slot.expires.toNat < t then 0 else slot.expires - ofNat t
    else slot.expires
  { slot with expires := htonl cfg.endian expires }

def occupied (table : List DhcpOfferedAddr) : List DhcpOfferedAddr :=
  table.filter fun slot => slot.yiaddr ≠ 0

theorem writeLeasesLoop_file (still : ∀ n, w.clock n = t) (table : List DhcpOfferedAddr) (s : Server) :
    (writeLeasesLoop w cfg t table s).1 = ((occupied table).map (saved cfg t)).flatMap (·.image cfg.endian) := by
  induction table generalizing s with
  | nil => rfl
  | cons slot rest ih =>
    by_cases live : slot.yiaddr ≠ 0
    · have record : { slot with expires := htonl cfg.endian (savedExpiry w cfg t s slot).1 } =
          saved cfg t slot := by
        by_cases relative : cfg.remaining = true
        · by_cases old : slot.expires.toNat < t
          · simp [saved,savedExpiry,leaseExpired,Server.time,still,relative,old]
          · simp [saved,savedExpiry,leaseExpired,Server.time,still,relative,old]
        · simp [saved,savedExpiry,relative]
      simp only [writeLeasesLoop,live,if_true,not_false_eq_true,ne_eq]
      rw [ih,record]
      simp [occupied,live]
    · simp only [writeLeasesLoop,live,if_false]
      rw [ih]
      simp [occupied,live]

theorem writeLeases_records (still : ∀ n, w.clock n = t) (s : Server) :
    freadLeases cfg.endian (s.writeLeases w cfg).1.length (s.writeLeases w cfg).1 =
      (occupied s.leases).map (saved cfg t) := by
  have file : (s.writeLeases w cfg).1 =
      ((occupied s.leases).map (saved cfg t)).flatMap (·.image cfg.endian) := by
    simp only [writeLeases,Server.time,still]
    exact writeLeasesLoop_file cfg w still s.leases _
  rw [file]
  apply freadLeases_image
  simp only [length_flatMap,image_length,map_const',sum_replicate_nat,length_map]
  omega

end

/-! Filling the table. -/

/-- Neither of two records makes `clear_lease` wipe the other. -/
def Apart (a b : DhcpOfferedAddr) : Prop :=
  a.yiaddr ≠ b.yiaddr ∧ (a.chaddr = b.chaddr → b.chaddr = blankChaddr)

theorem zeroSlot_apart (lease : DhcpOfferedAddr) (live : lease.yiaddr ≠ 0) : Apart zeroSlot lease :=
  ⟨live.symm,fun same => same.symm⟩

theorem clearLease_apart {s : Server} (apart : ∀ slot ∈ s.leases, Apart slot lease) :
    s.clearLease lease.chaddr lease.yiaddr = s := by
  have same : s.leases.map (fun slot => if clears lease.chaddr lease.yiaddr slot then zeroSlot else slot) =
      s.leases := by
    refine (map_congr_left ?_).trans (map_id _)
    intro slot member
    obtain ⟨address,owner⟩ := apart slot member
    have kept : ¬ clears lease.chaddr lease.yiaddr slot = true := by
      rw [clears_iff]
      rintro (⟨nonblank,equal⟩ | ⟨_,equal⟩)
      · exact nonblank (owner equal)
      · exact address equal
    exact if_neg kept
  simp only [clearLease,same]

theorem oldestExpiredLoop_zero (slots : List DhcpOfferedAddr) (i : Nat) (oldest : Option Nat) :
    oldestExpiredLoop slots i 0 oldest = oldest := by
  induction slots generalizing i with
  | nil => rfl
  | cons slot rest ih =>
    rw [oldestExpiredLoop,if_neg (Nat.not_lt_zero _),ih]

theorem oldestExpiredLoop_first (full : List DhcpOfferedAddr) (free : DhcpOfferedAddr) (rest : List DhcpOfferedAddr)
    (i bound : Nat) (oldest : Option Nat) (taken : ∀ slot ∈ full, slot.expires ≠ 0) (empty : free.expires = 0)
    (later : 0 < bound) : oldestExpiredLoop (full ++ free :: rest) i bound oldest = some (i + full.length) := by
  induction full generalizing i bound oldest with
  | nil =>
    have older : bound > free.expires.toNat := by simpa [empty] using later
    rw [nil_append,oldestExpiredLoop,if_pos older,empty]
    exact oldestExpiredLoop_zero rest (i + 1) _
  | cons slot full ih =>
    have positive : 0 < slot.expires.toNat := by
      have nonzero := taken slot (.head _)
      rw [Nat.pos_iff_ne_zero]
      exact fun zero => nonzero (UInt32.toNat_inj.mp zero)
    have others := (forall_mem_cons.mp taken).2
    rw [cons_append,oldestExpiredLoop]
    split
    · rw [ih _ _ _ others positive,length_cons,add_right_comm,add_assoc]
    · rw [ih _ _ _ others later,length_cons,add_right_comm,add_assoc]

section

variable (cfg : ServerConfig) (w : World)

def restored (t : Nat) (lease : DhcpOfferedAddr) : DhcpOfferedAddr :=
  let expires := ntohl cfg.endian lease.expires
  let time := if cfg.remaining then expires else expires - ofNat t
  { lease with expires := ofNat (t + time.toNat) }

section

variable (still : ∀ n, w.clock n = t) (later : 0 < t) {s : Server} (table : s.leases = full ++ free :: rest)
  (taken : ∀ slot ∈ full, slot.expires ≠ 0) (empty : free.expires = 0) (apart : ∀ slot ∈ s.leases, Apart slot lease)

include still later table taken empty apart

/-- A table whose full slots come first takes a record that collides with none of them
in its first free slot. -/
theorem addLease_first (time : Nat) :
    (s.addLease w lease.chaddr lease.yiaddr time).1 = some full.length ∧
    (s.addLease w lease.chaddr lease.yiaddr time).2.leases =
      full ++ { lease with expires := ofNat (t + time) } :: rest := by
  have found : oldestExpiredLoop s.leases 0 t none = some full.length := by
    rw [table,oldestExpiredLoop_first full free rest 0 t none taken empty later,zero_add]
  simp only [addLease,clearLease_apart apart,oldestExpiredLease,Server.time,still,found,setSlot,true_and]
  rw [table]
  simp

theorem readLease_first :
    (s.readLease w cfg lease).1 = some full.length ∧
    (s.readLease w cfg lease).2.leases = full ++ restored cfg t lease :: rest := by
  simp only [readLease,restored]
  split
  next relative =>
    exact addLease_first w still later table taken empty apart _
  next absolute =>
    simp only [Server.time,still]
    exact addLease_first w still later (s := { s with ticks := s.ticks + 1 }) table taken empty apart _

end

/-- What is left of the entries: one without an expiry gives way to the next. -/
def keepLast : List DhcpOfferedAddr → List DhcpOfferedAddr
  | [] => []
  | [lease] => [lease]
  | lease :: next :: rest =>
    if lease.expires = 0 then keepLast (next :: rest) else lease :: keepLast (next :: rest)

theorem keepLast_taken (lease : DhcpOfferedAddr) (rest : List DhcpOfferedAddr) (live : lease.expires ≠ 0) :
    keepLast (lease :: rest) = lease :: keepLast rest := by
  cases rest with
  | nil => rfl
  | cons next rest => rw [keepLast,if_neg live]

theorem keepLast_subset (entries : List DhcpOfferedAddr) : keepLast entries ⊆ entries := by
  induction entries using keepLast.induct with
  | case1 => exact List.Subset.refl _
  | case2 lease => exact List.Subset.refl _
  | case3 lease next rest empty ih =>
    rw [keepLast,if_pos empty]
    exact subset_cons_of_subset _ ih
  | case4 lease next rest live ih =>
    rw [keepLast,if_neg live]
    exact cons_subset_cons _ ih

/-- `read_leases` on a table that is filled up to `full`; `last` is an entry without an
expiry that the next one will take the place of. -/
theorem readLeasesLoop_table (t : Nat) (still : ∀ n, w.clock n = t) (later : 0 < t) (records : List DhcpOfferedAddr)
    (i : Nat) (s : Server) (full last : List DhcpOfferedAddr) (m : Nat)
    (table : s.leases = full ++ last ++ replicate m zeroSlot) (taken : ∀ slot ∈ full, slot.expires ≠ 0)
    (single : last = [] ∨ ∃ slot, last = [slot] ∧ slot.expires = 0) (live : ∀ lease ∈ records, lease.yiaddr ≠ 0)
    (apart : records.Pairwise Apart) (fresh : ∀ slot ∈ full ++ last, ∀ lease ∈ records, Apart slot lease)
    (count : i + records.length ≤ cfg.maxLeases) (room : records.length ≤ last.length + m) :
    ∃ rest, (readLeasesLoop w cfg i records s).leases =
      full ++ keepLast (last ++ (records.filter (acceptsRecord cfg)).map (restored cfg t)) ++
        replicate rest zeroSlot := by
  induction records generalizing i s full last m with
  | nil =>
    refine ⟨m,?_⟩
    rcases single with rfl | ⟨slot,rfl,_⟩ <;> simpa [readLeasesLoop,keepLast] using table
  | cons lease rest ih =>
    obtain ⟨ahead,onward⟩ := pairwise_cons.mp apart
    have liveRest := (forall_mem_cons.mp live).2
    have old (slot : DhcpOfferedAddr) (member : slot ∈ full ++ last) :
        ∀ other ∈ rest, Apart slot other := fun other there =>
      fresh slot member other (.tail _ there)
    simp only [length_cons] at count room
    have bound : i < cfg.maxLeases := by omega
    by_cases accepted : acceptsRecord cfg lease = true
    · obtain ⟨free,k,shape,empty,left⟩ : ∃ free k, last ++ replicate m zeroSlot =
          free :: replicate k zeroSlot ∧ free.expires = 0 ∧ rest.length ≤ k := by
        rcases single with rfl | ⟨slot,rfl,empty⟩
        · cases m with
          | zero => simp at room
          | succ m => exact ⟨zeroSlot,m,rfl,rfl,by simpa using room⟩
        · exact ⟨slot,m,rfl,empty,by simp at room; omega⟩
      rw [append_assoc,shape] at table
      have clear : ∀ slot ∈ s.leases, Apart slot lease := by
        intro slot member
        rw [table,← shape,← append_assoc] at member
        rcases mem_append.mp member with member | member
        · exact fresh slot member lease (.head _)
        · exact eq_of_mem_replicate member ▸ zeroSlot_apart lease (live lease (.head _))
      obtain ⟨placed,entered⟩ := readLease_first cfg w still later table taken empty clear
      have entryFresh : ∀ slot ∈ full ++ [restored cfg t lease], ∀ other ∈ rest, Apart slot other :=
        forall_mem_append.mpr ⟨fun slot member => old slot (mem_append_left _ member),forall_mem_singleton.mpr ahead⟩
      have next : readLeasesLoop w cfg i (lease :: rest) s =
          readLeasesLoop w cfg (i + 1) rest (s.readLease w cfg lease).2 := by
        rw [readLeasesLoop,if_pos bound,if_pos accepted]
        split
        next late failed => rw [failed] at placed; cases placed
        next j late added => rw [added]
      have drops (entry : DhcpOfferedAddr) (entries : List DhcpOfferedAddr) :
          keepLast (last ++ entry :: entries) = keepLast (entry :: entries) := by
        rcases single with rfl | ⟨slot,rfl,zero⟩
        · rfl
        · rw [singleton_append,keepLast,if_pos zero]
      rw [next,filter_cons,if_pos accepted,map_cons,drops]
      by_cases none : (restored cfg t lease).expires = 0
      · obtain ⟨r,result⟩ := ih (i + 1) (s.readLease w cfg lease).2 full [restored cfg t lease] k
          (by rw [entered]; simp) taken (.inr ⟨_,rfl,none⟩) liveRest onward entryFresh (by omega)
          (by simp; omega)
        exact ⟨r,result⟩
      · obtain ⟨r,result⟩ := ih (i + 1) (s.readLease w cfg lease).2 (full ++ [restored cfg t lease]) [] k
          (by rw [entered]; simp) (forall_mem_append.mpr ⟨taken,forall_mem_singleton.mpr none⟩)
            (.inl rfl) liveRest onward (by simpa using entryFresh) (by omega)
          (by simpa using left)
        refine ⟨r,result.trans ?_⟩
        rw [keepLast_taken _ _ none]
        simp
    · obtain ⟨r,result⟩ := ih i s full last m table taken single liveRest onward old (by omega) (by omega)
      refine ⟨r,?_⟩
      rw [readLeasesLoop,if_pos bound,if_neg accepted,result,filter_cons,if_neg accepted]

end

theorem keepLast_eq (live : ∀ entry ∈ entries.dropLast, entry.expires ≠ 0) :
    keepLast entries = entries := by
  induction entries using keepLast.induct with
  | case1 => rfl
  | case2 lease => rfl
  | case3 lease next rest empty ih => exact absurd empty (live lease (by simp))
  | case4 lease next rest nonzero ih =>
    rw [keepLast,if_neg nonzero,ih]
    exact (forall_mem_cons.mp live).2

theorem keepLast_drops {after : List DhcpOfferedAddr} (before : List DhcpOfferedAddr) (empty : lost.expires = 0)
    (followed : after ≠ []) : keepLast (before ++ lost :: after) ⊆ before ++ after := by
  induction before with
  | nil =>
    obtain ⟨next,rest,rfl⟩ := exists_cons_of_ne_nil followed
    rw [nil_append,keepLast,if_pos empty]
    exact keepLast_subset _
  | cons first before ih =>
    by_cases zero : first.expires = 0
    · obtain ⟨next,rest,shape⟩ := exists_cons_of_ne_nil
        (show before ++ lost :: after ≠ [] by simp)
      rw [cons_append,shape,keepLast,if_pos zero,← shape,cons_append]
      exact subset_cons_of_subset _ ih
    · rw [cons_append,keepLast_taken _ _ zero,cons_append]
      exact cons_subset_cons _ ih

theorem occupied_apart (table : List DhcpOfferedAddr) (unique : NoSharing table) : (occupied table).Pairwise Apart := by
  rw [occupied,pairwise_filter,pairwise_iff_getElem]
  intro i j first second order live _
  have nonzero : table[i].yiaddr ≠ 0 := of_decide_eq_true live
  constructor
  · intro same
    have index := unique.yiaddr i j _ _ (getElem?_eq_getElem first) (getElem?_eq_getElem second)
      same nonzero
    omega
  · intro same
    by_contra nonblank
    have index := unique.chaddr i j _ _ (getElem?_eq_getElem first) (getElem?_eq_getElem second)
      same (same ▸ nonblank)
    omega

section

variable (cfg : ServerConfig)

/-- The expiry a slot should have after the restart. -/
def restoredExpiry (t t' : Nat) (slot : DhcpOfferedAddr) : Nat :=
  if cfg.remaining then t' + (if slot.expires.toNat < t then 0 else slot.expires.toNat - t)
  else slot.expires.toNat

theorem restored_saved (t t' : Nat) (slot : DhcpOfferedAddr) :
    (restored cfg t' (saved cfg t slot)).expires = ofNat (restoredExpiry cfg t t' slot) := by
  simp only [restored,saved,restoredExpiry,ntohl_htonl]
  by_cases relative : cfg.remaining = true
  · simp only [relative,if_true]
    by_cases old : slot.expires.toNat < t
    · simp [old]
    have bound := slot.expires.toNat_lt
    have small : (ofNat t).toNat = t := by
      exact Nat.mod_eq_of_lt (by omega)
    have order : ofNat t ≤ slot.expires := by
      rw [le_iff_toNat_le,small]
      omega
    simp only [old,if_false]
    rw [UInt32.toNat_sub_of_le _ _ order,small]
  · simp only [relative,if_false,Bool.false_eq_true]
    rw [UInt32.ofNat_add,UInt32.ofNat_toNat,UInt32.ofNat_toNat,UInt32.add_comm,UInt32.sub_add_cancel]

/-- Every occupied slot comes back exactly once, with the right expiry, and nothing else
does. -/
structure RoundTrip (t t' : Nat) (table loaded : List DhcpOfferedAddr) : Prop where
  restores : ∀ slot ∈ table, slot.yiaddr ≠ 0 → ∃ (i : Nat) (entry : DhcpOfferedAddr), loaded[i]? = some entry ∧
    entry.chaddr = slot.chaddr ∧ entry.yiaddr = slot.yiaddr ∧
    entry.expires.toNat = restoredExpiry cfg t t' slot ∧
    ∀ (j : Nat) (other : DhcpOfferedAddr), loaded[j]? = some other → other.chaddr = slot.chaddr →
      other.yiaddr = slot.yiaddr → j = i
  nothingElse : ∀ entry ∈ loaded, entry ≠ zeroSlot → ∃ slot ∈ table, slot.yiaddr ≠ 0 ∧
    entry.chaddr = slot.chaddr ∧ entry.yiaddr = slot.yiaddr

/-- Every occupied slot passes the test that `read_leases` makes on its address as it
stands in memory, the clock runs and no expiry wraps; and when the file holds absolute
times, only the last occupied slot may have none. -/
def Survives (t t' : Nat) (table : List DhcpOfferedAddr) : Prop :=
  (∀ slot ∈ occupied table, 0 < t' ∧ acceptsRecord cfg slot = true ∧
    restoredExpiry cfg t t' slot < 4294967296) ∧
  (cfg.remaining = false → ∀ slot ∈ (occupied table).dropLast, slot.expires ≠ 0)

variable (w w' : World)

theorem readLeasesLoop_stopped (stopped : ∀ n, w.clock n = 0) (records : List DhcpOfferedAddr) (i : Nat)
    (s : Server) (blank : ∀ slot ∈ s.leases, slot = zeroSlot) :
    ∀ slot ∈ (readLeasesLoop w cfg i records s).leases, slot = zeroSlot := by
  have cleared (late : Server) (same : late.leases = s.leases) (chaddr : Chaddr) (yiaddr : UInt32) (time : Nat) :
      (late.addLease w chaddr yiaddr time).1 = none ∧
      ∀ slot ∈ (late.addLease w chaddr yiaddr time).2.leases, slot = zeroSlot := by
    simp only [addLease,oldestExpiredLease,Server.time,stopped,oldestExpiredLoop_zero,clearLease,same,true_and]
    intro slot member
    obtain ⟨old,there,rfl⟩ := mem_map.mp member
    rw [blank old there,ite_self]
  induction records generalizing i with
  | nil => exact blank
  | cons lease rest ih =>
    rw [readLeasesLoop]
    split
    · split
      next accepted =>
        obtain ⟨late,time,same,_,_,equal⟩ := readLease_eq cfg w s lease
        obtain ⟨failed,zero⟩ := cleared late same lease.chaddr lease.yiaddr time
        rw [← equal] at failed zero
        split
        next _ result => rw [result] at zero; exact zero
        next j _ result => rw [result] at failed; cases failed
      · exact ih i
    · exact blank

theorem loaded_table (still : ∀ n, w.clock n = t) (still' : ∀ n, w'.clock n = t') (later : 0 < t') {s : Server}
    (size : s.leases.length = cfg.maxLeases) (unique : NoSharing s.leases) :
    ∃ rest, ((initial cfg).readLeases w' cfg (s.writeLeases w cfg).1).leases =
      keepLast (((occupied s.leases).filter (acceptsRecord cfg)).map
        fun slot => restored cfg t' (saved cfg t slot)) ++ replicate rest zeroSlot := by
  have fits : (occupied s.leases).length ≤ cfg.maxLeases := size ▸ length_filter_le _ _
  have live : ∀ lease ∈ (occupied s.leases).map (saved cfg t), lease.yiaddr ≠ 0 := by
    intro lease member
    obtain ⟨slot,there,rfl⟩ := mem_map.mp member
    exact of_decide_eq_true (mem_filter.mp there).2
  have apart : ((occupied s.leases).map (saved cfg t)).Pairwise Apart :=
    pairwise_map.mpr (occupied_apart s.leases unique)
  obtain ⟨rest,result⟩ := readLeasesLoop_table cfg w' t' still' later ((occupied s.leases).map (saved cfg t)) 0
    (initial cfg) [] [] cfg.maxLeases rfl (by simp) (.inl rfl) live apart (by simp) (by simpa using fits)
    (by simpa using fits)
  refine ⟨rest,?_⟩
  rw [readLeases,writeLeases_records cfg w still s,result,filter_map,map_map]
  rfl

theorem mem_occupied (table : List DhcpOfferedAddr) (slot : DhcpOfferedAddr) :
    slot ∈ occupied table ↔ slot ∈ table ∧ slot.yiaddr ≠ 0 := by
  simp [occupied]

section

variable (apart : (occupied table).Pairwise Apart)
  (shape : loaded = keepLast (((occupied table).filter (acceptsRecord cfg)).map
    fun slot => restored cfg t' (saved cfg t slot)) ++ replicate rest zeroSlot)

include apart shape

theorem RoundTrip.survives (later : 0 < t') (trip : RoundTrip cfg t t' table loaded) : Survives cfg t t' table := by
  let entry := fun slot => restored cfg t' (saved cfg t slot)
  have back (slot : DhcpOfferedAddr) (live : slot ∈ occupied table) :
      ∃ kept ∈ keepLast (((occupied table).filter (acceptsRecord cfg)).map entry),
        kept.yiaddr = slot.yiaddr ∧ kept.expires.toNat = restoredExpiry cfg t t' slot := by
    obtain ⟨member,nonzero⟩ := (mem_occupied table slot).mp live
    obtain ⟨i,kept,here,_,address,expires,_⟩ := trip.restores slot member nonzero
    have inside := mem_of_getElem? here
    rw [shape] at inside
    rcases mem_append.mp inside with inside | inside
    · exact ⟨kept,inside,address,expires⟩
    · obtain rfl := eq_of_mem_replicate inside
      exact absurd address.symm nonzero
  have accepted (slot : DhcpOfferedAddr) (live : slot ∈ occupied table) : acceptsRecord cfg slot = true := by
    obtain ⟨kept,inside,address,_⟩ := back slot live
    obtain ⟨other,there,rfl⟩ := mem_map.mp (keepLast_subset _ inside)
    have passed := (mem_filter.mp there).2
    have same : other.yiaddr = slot.yiaddr := address
    rwa [acceptsRecord,same] at passed
  refine ⟨?_,?_⟩
  · intro slot live
    obtain ⟨kept,_,_,expires⟩ := back slot live
    exact ⟨later,accepted slot live,expires ▸ kept.expires.toNat_lt⟩
  · intro absolute slot member zero
    obtain ⟨before,middle,split⟩ := append_of_mem member
    have nonempty : occupied table ≠ [] := by
      rintro empty
      simp [empty] at member
    obtain ⟨last,whole⟩ : ∃ last, occupied table = before ++ slot :: (middle ++ [last]) := by
      have parts := dropLast_append_getLast nonempty
      rw [split] at parts
      exact ⟨_,by simpa using parts.symm⟩
    have empty : (entry slot).expires = 0 := by
      rw [restored_saved,restoredExpiry,absolute,zero]
      rfl
    obtain ⟨kept,inside,address,_⟩ := back slot (mem_of_mem_dropLast member)
    rw [filter_eq_self.mpr accepted,whole,map_append,map_cons] at inside
    have other := keepLast_drops _ empty (by simp) inside
    rw [← map_append] at other
    obtain ⟨source,there,rfl⟩ := mem_map.mp other
    have same : source.yiaddr = slot.yiaddr := address
    rw [whole,pairwise_append,pairwise_cons] at apart
    obtain ⟨_,⟨after,_⟩,ahead⟩ := apart
    rcases mem_append.mp there with there | there
    · exact (ahead source there slot (.head _)).1 same
    · exact (after source there).1 same.symm

theorem Survives.roundTrip (survives : Survives cfg t t' table) : RoundTrip cfg t t' table loaded := by
  let entry := fun slot => restored cfg t' (saved cfg t slot)
  obtain ⟨each,absolute⟩ := survives
  have value (slot : DhcpOfferedAddr) (live : slot ∈ occupied table) :
      (entry slot).expires.toNat = restoredExpiry cfg t t' slot := by
    rw [restored_saved,toNat_ofNat']
    exact Nat.mod_eq_of_lt (each slot live).2.2
  have kept : loaded = (occupied table).map entry ++ replicate rest zeroSlot := by
    rw [shape,filter_eq_self.mpr fun slot live => (each slot live).2.1,keepLast_eq]
    intro item member zero
    rw [← map_dropLast] at member
    obtain ⟨slot,there,rfl⟩ := mem_map.mp member
    have live := mem_of_mem_dropLast there
    have nothing := value slot live
    rw [show (entry slot).expires = 0 from zero,restoredExpiry] at nothing
    by_cases relative : cfg.remaining = true
    · rw [if_pos relative] at nothing
      have := (each slot live).1
      simp at nothing
      omega
    · rw [if_neg relative] at nothing
      exact absolute (Bool.eq_false_iff.mpr relative) slot there (UInt32.toNat_inj.mp nothing.symm)
  constructor
  · intro slot member nonzero
    have live := (mem_occupied table slot).mpr ⟨member,nonzero⟩
    obtain ⟨i,bound,here⟩ := getElem_of_mem live
    refine ⟨i,entry slot,?_,rfl,rfl,value slot live,?_⟩
    · rw [kept,getElem?_append_left (by simpa using bound)]
      simp [bound,here]
    intro j other there _ address
    rw [kept] at there
    by_cases inside : j < (occupied table).length
    · rw [getElem?_append_left (by simpa using inside)] at there
      simp only [getElem?_map,getElem?_eq_getElem inside,Option.map_some,Option.some.injEq] at there
      have same : (occupied table)[j].yiaddr = (occupied table)[i].yiaddr := by
        rw [here]
        exact (congrArg DhcpOfferedAddr.yiaddr there).trans address
      rw [pairwise_iff_getElem] at apart
      by_contra different
      rcases lt_or_gt_of_ne different with less | more
      · exact (apart j i inside bound less).1 same
      · exact (apart i j bound inside more).1 same.symm
    · rw [getElem?_append_right (by simpa using inside)] at there
      obtain rfl := eq_of_mem_replicate (mem_of_getElem? there)
      exact absurd address.symm nonzero
  · intro item member nonzero
    rw [kept] at member
    rcases mem_append.mp member with member | member
    · obtain ⟨slot,live,rfl⟩ := mem_map.mp member
      obtain ⟨there,address⟩ := (mem_occupied table slot).mp live
      exact ⟨slot,there,address,rfl,rfl⟩
    · exact absurd (eq_of_mem_replicate member) nonzero

end

/-- The lease file round trip: the table that was saved comes back exactly when every
occupied slot survives. -/
theorem leaseFile_roundTrip (t t' : Nat) (still : ∀ n, w.clock n = t) (still' : ∀ n, w'.clock n = t')
    (s : Server) (size : s.leases.length = cfg.maxLeases) (unique : NoSharing s.leases) :
    RoundTrip cfg t t' s.leases ((initial cfg).readLeases w' cfg (s.writeLeases w cfg).1).leases ↔
      Survives cfg t t' s.leases := by
  have apart := occupied_apart s.leases unique
  by_cases later : 0 < t'
  · obtain ⟨rest,shape⟩ := loaded_table cfg w w' still still' later size unique
    exact ⟨RoundTrip.survives cfg apart shape later,Survives.roundTrip cfg apart shape⟩
  · obtain rfl : t' = 0 := by omega
    have blank := readLeasesLoop_stopped cfg w' still'
      (freadLeases cfg.endian (s.writeLeases w cfg).1.length (s.writeLeases w cfg).1) 0 (initial cfg)
      (fun slot member => eq_of_mem_replicate member)
    constructor
    · intro trip
      have none : occupied s.leases = [] := by
        apply eq_nil_iff_forall_not_mem.mpr
        intro slot live
        obtain ⟨member,nonzero⟩ := (mem_occupied s.leases slot).mp live
        obtain ⟨i,entry,here,_,address,_⟩ := trip.restores slot member nonzero
        obtain rfl := blank entry (mem_of_getElem? here)
        exact nonzero address.symm
      simp [Survives,none]
    · rintro ⟨each,_⟩
      refine ⟨?_,fun entry member live => absurd (blank entry member) live⟩
      intro slot member nonzero
      exact absurd (each slot ((mem_occupied s.leases slot).mpr ⟨member,nonzero⟩)).1 later

end

def sampleTable : List DhcpOfferedAddr := [⟨sampleClient 7,0x3200a8c0,5000⟩,zeroSlot]

theorem sampleTable_noSharing : NoSharing sampleTable := by
  have empty := noSharing_zero 2
  refine ⟨Distinct.set _ _ empty.yiaddr (i := 0) ?_,Distinct.set _ _ empty.chaddr (i := 0) ?_⟩
  · intro j old _ present same
    obtain rfl := eq_of_mem_replicate (mem_of_getElem? present)
    exact absurd same (by decide)
  · intro j old _ present same
    obtain rfl := eq_of_mem_replicate (mem_of_getElem? present)
    exact absurd same (by decide)

theorem leaseFile_roundTrip_sample :
    RoundTrip sampleConfig 1000 2000 sampleTable
      ((initial sampleConfig).readLeases (sampleWorld 0 2000 2000 (by decide)) sampleConfig
        ((Server.mk sampleTable 0 0 0 []).writeLeases (sampleWorld 0 1000 1000 (by decide))
          sampleConfig).1).leases := by
  refine (leaseFile_roundTrip sampleConfig _ _ 1000 2000 (fun _ => rfl) (fun _ => rfl)
    (Server.mk sampleTable 0 0 0 []) rfl sampleTable_noSharing).mpr ⟨?_,nofun⟩
  intro slot live
  obtain rfl : slot = ⟨sampleClient 7,0x3200a8c0,5000⟩ := mem_singleton.mp live
  exact ⟨by decide,by decide,by decide⟩

/-- The pool from 192.168.0.20 to 192.168.1.10 holds 192.168.0.50, but on a little-endian
host the lease of that address does not come back. -/
theorem lease_in_pool_lost :
    (∀ slot ∈ sampleTable, slot.yiaddr ≠ 0 →
      ntohl .little 0x1400a8c0 ≤ ntohl .little slot.yiaddr ∧
      ntohl .little slot.yiaddr ≤ ntohl .little 0x0a01a8c0) ∧
    NoSharing sampleTable ∧
    ¬ RoundTrip { sampleConfig with finish := 0x0a01a8c0 } 1000 2000 sampleTable
      ((initial sampleConfig).readLeases (sampleWorld 0 2000 2000 (by decide))
        { sampleConfig with finish := 0x0a01a8c0 }
        ((Server.mk sampleTable 0 0 0 []).writeLeases (sampleWorld 0 1000 1000 (by decide))
          { sampleConfig with finish := 0x0a01a8c0 }).1).leases := by
  refine ⟨by decide +kernel,sampleTable_noSharing,?_⟩
  intro trip
  obtain ⟨i,entry,here,_,address,_⟩ := trip.restores ⟨sampleClient 7,0x3200a8c0,5000⟩ (.head _)
    (by decide)
  have lost : ∀ slot ∈ ((initial sampleConfig).readLeases (sampleWorld 0 2000 2000 (by decide))
      { sampleConfig with finish := 0x0a01a8c0 }
      ((Server.mk sampleTable 0 0 0 []).writeLeases (sampleWorld 0 1000 1000 (by decide))
        { sampleConfig with finish := 0x0a01a8c0 }).1).leases, slot.yiaddr = 0 := by decide +kernel
  rw [lost entry (mem_of_getElem? here)] at address
  exact absurd address (by decide)

end Stablebox.Udhcp
