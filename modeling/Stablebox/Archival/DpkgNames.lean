import Mathlib.Data.Finset.Card
import Mathlib.Data.Nat.ModEq
import Mathlib.Tactic.NormNum.Prime

/-! The table of names in dpkg.c: `make_hash`, `search_name_hashtable`, and calls of it one after the other. -/
namespace Stablebox.Dpkg

open List Function

/-- A string of 7-bit characters, without the null at its end. -/
abbrev Name := List (Fin 128)

abbrev nameHashPrime : Nat := 16381

/-- A turn of the loop, where `unsigned long` has `w` bits. The product is an `int`. -/
def hashTurn (w : Nat) (key : Name) (hashNum i : Nat) : Option Nat :=
  let c := (key.getD i 0).val
  if c * i < 2 ^ 31 then some ((hashNum + (c + (key.getD (i - 1) 0).val) <<< (c * i % 24)) % 2 ^ w) else none

def len (key : Name) : Nat := if key.length % 2 ^ 32 < 2 ^ 31 then key.length % 2 ^ 32 else 0

def makeHash (w : Nat) (key : Name) (hashPrime : Nat) : Option (Nat × Nat) :=
  ((range' 1 (len key - 1)).foldlM (hashTurn w key) (key.headD 0).val).map fun hashNum =>
    (hashNum % 2 ^ 32 % hashPrime,1 + hashNum % (hashPrime - 1))

abbrev Table := Nat → Option Name

def nextProbe (address decrement : Nat) : Nat :=
  let address := (address + (2 ^ 32 - decrement)) % 2 ^ 32
  if address ≥ 2 ^ 31 then (address + nameHashPrime) % 2 ^ 32 else address

def probeLoop (table : Table) (key : Name) (decrement : Nat) : (fuel address : Nat) → Option Nat
  | 0,_ => none
  | fuel + 1,address =>
    match table address with
    | none => some address
    | some name => if name = key then some address else probeLoop table key decrement fuel (nextProbe address decrement)

def searchNameHashtable (w : Nat) (table : Table) (key : Name) : Option (Nat × Table) := do
  let (start,decrement) ← makeHash w key nameHashPrime
  let address ← probeLoop table key decrement (nameHashPrime + 1) start
  return (address,if table address = none then update table address (some key) else table)

def searches (w : Nat) : Table → List Name → Option (List Nat × Table)
  | table,[] => some ([],table)
  | table,key :: keys => do
    let (address,table) ← searchNameHashtable w table key
    let (addresses,table) ← searches w table keys
    return (address :: addresses,table)

/-! ### The probes -/

def probe (hash : Nat × Nat) (n : Nat) : Nat := (hash.1 + n * (nameHashPrime - hash.2)) % nameHashPrime

variable {w : Nat} {key : Name} {keys : List Name} {hash : Nat × Nat} {table : Table}

theorem makeHash_bounds (made : makeHash w key nameHashPrime = some hash) :
    hash.1 < nameHashPrime ∧ 1 ≤ hash.2 ∧ hash.2 < nameHashPrime := by
  obtain ⟨hashNum,_,rfl⟩ := Option.map_eq_some_iff.mp made
  unfold nameHashPrime
  omega

theorem nextProbe_probe (made : makeHash w key nameHashPrime = some hash) (n : Nat) :
    nextProbe (probe hash n) hash.2 = probe hash (n + 1) := by
  obtain ⟨_,positive,small⟩ := makeHash_bounds made
  have next : probe hash (n + 1) = (probe hash n + (nameHashPrime - hash.2)) % nameHashPrime := by
    rw [probe,probe,Nat.mod_add_mod,Nat.succ_mul,Nat.add_assoc]
  have inside : probe hash n < nameHashPrime := Nat.mod_lt _ (by decide)
  rw [next,nextProbe]
  unfold nameHashPrime at *
  split_ifs <;> omega

theorem probe_inj (made : makeHash w key nameHashPrime = some hash) (first : n < nameHashPrime)
    (second : m < nameHashPrime) (same : probe hash n = probe hash m) : n = m := by
  obtain ⟨_,positive,small⟩ := makeHash_bounds made
  have prime : nameHashPrime.Prime := by norm_num
  have apart : Nat.Coprime nameHashPrime (nameHashPrime - hash.2) :=
    Nat.coprime_of_lt_prime (Nat.sub_ne_zero_of_lt small) (Nat.sub_lt (by decide) positive) prime
  exact ((Nat.ModEq.add_left_cancel' _ same).cancel_right_of_coprime apart).eq_of_lt_of_lt first second

/-- The slots that are probed before place `n` hold other names. -/
def Passes (table : Table) (key : Name) (hash : Nat × Nat) (n : Nat) : Prop :=
  ∀ m < n, ∃ other, other ≠ key ∧ table (probe hash m) = some other

structure Stored (w : Nat) (keys : List Name) (table : Table) : Prop where
  known : ∀ s key, table s = some key → key ∈ keys
  place : ∀ s key, table s = some key →
    ∃ hash n, makeHash w key nameHashPrime = some hash ∧ s = probe hash n ∧ Passes table key hash n

theorem Stored.unique (stored : Stored w keys table) (first : table s = some key) (second : table t = some key) :
    s = t := by
  obtain ⟨hash,n,made,rfl,passes⟩ := stored.place s key first
  obtain ⟨_,m,other,rfl,passes'⟩ := stored.place t key second
  cases made.symm.trans other
  rcases lt_trichotomy n m with less | same | more
  · obtain ⟨_,apart,there⟩ := passes' n less
    exact absurd (Option.some.inj (there.symm.trans first)) apart
  · rw [same]
  · obtain ⟨_,apart,there⟩ := passes m more
    exact absurd (Option.some.inj (there.symm.trans second)) apart

/-- Not all slots are taken by others. -/
theorem Stored.room (stored : Stored w keys table) (made : makeHash w key nameHashPrime = some hash)
    (few : keys.toFinset.card < nameHashPrime) : ¬ Passes table key hash nameHashPrime := by
  intro passes
  have inside := Finset.card_le_card_of_injOn (s := Finset.range nameHashPrime) (t := keys.toFinset)
    (fun n => (table (probe hash n)).getD []) ?_ ?_
  · rw [Finset.card_range] at inside
    omega
  · intro n low
    obtain ⟨other,_,there⟩ := passes n (Finset.mem_range.mp low)
    simpa [there] using stored.known _ _ there
  · intro n low m high same
    have low := Finset.mem_range.mp (Finset.mem_coe.mp low)
    have high := Finset.mem_range.mp (Finset.mem_coe.mp high)
    obtain ⟨_,_,first⟩ := passes n low
    obtain ⟨_,_,second⟩ := passes m high
    simp only [first,second,Option.getD_some] at same
    exact probe_inj made low high (stored.unique first (same ▸ second))

theorem probeLoop_finds (stored : Stored w keys table) (made : makeHash w key nameHashPrime = some hash)
    (few : keys.toFinset.card < nameHashPrime) (fuel n : Nat) (enough : nameHashPrime < fuel + n)
    (passes : Passes table key hash n) :
    ∃ m, probeLoop table key hash.2 fuel (probe hash n) = some (probe hash m) ∧ Passes table key hash m ∧
      ∀ name, table (probe hash m) = some name → name = key := by
  induction fuel generalizing n with
  | zero => exact absurd (fun m low => passes m (by omega)) (stored.room made few)
  | succ fuel ih =>
    rw [probeLoop]
    cases here : table (probe hash n) with
    | none => exact ⟨n,rfl,passes,by simp [here]⟩
    | some name =>
      dsimp only
      split_ifs with same
      · exact ⟨n,rfl,passes,by simp [here,same]⟩
      · rw [nextProbe_probe made]
        refine ih (n + 1) (by omega) fun m low => ?_
        rcases Nat.lt_or_eq_of_le (Nat.le_of_lt_succ low) with less | rfl
        · exact passes m less
        · exact ⟨name,same,here⟩

theorem Stored.search (stored : Stored w keys table) (made : makeHash w key nameHashPrime = some hash)
    (few : keys.toFinset.card < nameHashPrime) :
    ∃ s next, searchNameHashtable w table key = some (s,next) ∧ s < nameHashPrime ∧ next s = some key ∧
      (∀ t name, table t = some name → next t = some name) ∧ Stored w (keys ++ [key]) next := by
  obtain ⟨n,found,passes,own⟩ := probeLoop_finds stored made few (nameHashPrime + 1) 0 (by omega) fun m low =>
    (by omega)
  have start : probe hash 0 = hash.1 := by
    rw [probe,Nat.zero_mul,Nat.add_zero,Nat.mod_eq_of_lt (makeHash_bounds made).1]
  rw [start] at found
  generalize final : (if table (probe hash n) = none then update table (probe hash n) (some key) else table) = next
  have here : next (probe hash n) = some key := by
    rw [← final]
    split_ifs with free
    · exact update_self ..
    · obtain ⟨name,there⟩ := Option.ne_none_iff_exists'.mp free
      rw [there,own name there]
  have others (t : Nat) (apart : t ≠ probe hash n) : next t = table t := by
    rw [← final]
    split_ifs
    · exact update_of_ne apart ..
    · rfl
  have kept (t : Nat) (name : Name) (there : table t = some name) : next t = some name := by
    by_cases same : t = probe hash n
    · rw [same] at there ⊢
      rw [here,own name there]
    · rw [others t same,there]
  have later {name : Name} {hash : Nat × Nat} {n : Nat} (passes : Passes table name hash n) :
      Passes next name hash n := by
    intro m low
    obtain ⟨other,apart,there⟩ := passes m low
    exact ⟨other,apart,kept _ _ there⟩
  refine ⟨probe hash n,next,?_,Nat.mod_lt _ (by decide),here,kept,?_,?_⟩
  · simp only [searchNameHashtable,made,found,final,Option.bind_eq_bind,Option.bind_some,Option.pure_def]
  · intro t name there
    by_cases same : t = probe hash n
    · simp [Option.some.inj (here.symm.trans (same ▸ there))]
    · rw [others t same] at there
      exact mem_append_left _ (stored.known t name there)
  · intro t name there
    by_cases same : t = probe hash n
    · cases here.symm.trans (same ▸ there)
      exact ⟨hash,n,made,same,later passes⟩
    · rw [others t same] at there
      obtain ⟨hash,n,made,place,passes⟩ := stored.place t name there
      exact ⟨hash,n,made,place,later passes⟩

/-! ### Calls in sequence -/

theorem Stored.searches (todo : List Name) (stored : Stored w keys table)
    (fits : ∀ key ∈ todo, ∃ hash, makeHash w key nameHashPrime = some hash)
    (few : (keys ++ todo).toFinset.card < nameHashPrime) :
    ∃ results final, searches w table todo = some (results,final) ∧ results.length = todo.length ∧
      (∀ t name, table t = some name → final t = some name) ∧ Stored w (keys ++ todo) final ∧
      ∀ p ∈ todo.zip results, p.2 < nameHashPrime ∧ final p.2 = some p.1 := by
  induction todo generalizing keys table with
  | nil => exact ⟨[],table,rfl,rfl,fun _ _ there => there,by simpa using stored,by simp⟩
  | cons key todo ih =>
    obtain ⟨⟨hash,made⟩,rest⟩ := forall_mem_cons.mp fits
    obtain ⟨s,next,found,inside,here,kept,stored⟩ := stored.search made
      (lt_of_le_of_lt (Finset.card_le_card fun name => by simpa using fun known => .inr (.inl known)) few)
    obtain ⟨results,final,ran,length,grown,stored,all⟩ := ih stored rest (by simpa using few)
    refine ⟨s :: results,final,by simp [Dpkg.searches,found,ran],by simp [length],
      fun t name there => grown t name (kept t name there),by simpa using stored,?_⟩
    simp only [zip_cons_cons,forall_mem_cons]
    exact ⟨⟨inside,grown _ _ here⟩,all⟩

/-- Every call returns a slot with its key, the same one for the same key and another one for another. -/
def NamesKept (w : Nat) (keys : List Name) : Prop :=
  ∃ results table, searches w (fun _ => none) keys = some (results,table) ∧ results.length = keys.length ∧
    ∀ p ∈ keys.zip results, p.2 < nameHashPrime ∧ table p.2 = some p.1 ∧
      ∀ q ∈ keys.zip results, p.1 = q.1 ↔ p.2 = q.2

/-- No product in the loop is too large. -/
def Fits (key : Name) : Prop := ∀ i, 1 ≤ i → i < len key → (key.getD i 0).val * i < 2 ^ 31

theorem fits_of_length (short : key.length ≤ 16909321) : Fits key := by
  intro i _ high
  have inside : len key ≤ key.length := by
    unfold len
    split_ifs <;> omega
  calc (key.getD i 0).val * i
    _ ≤ 127 * 16909320 := Nat.mul_le_mul (Nat.le_of_lt_succ (key.getD i 0).isLt) (by omega)
    _ < 2 ^ 31 := by decide

theorem hashTurns_some (l : List Nat) (hashNum : Nat) :
    (∃ final, l.foldlM (hashTurn w key) hashNum = some final) ↔ ∀ i ∈ l, (key.getD i 0).val * i < 2 ^ 31 := by
  induction l generalizing hashNum with
  | nil => simp
  | cons i l ih =>
    rw [foldlM_cons,forall_mem_cons,hashTurn]
    split_ifs with small
    · rw [and_iff_right small]
      exact ih _
    · exact iff_of_false (by rintro ⟨_,⟨⟩⟩) fun both => small both.1

theorem makeHash_some : (∃ hash, makeHash w key nameHashPrime = some hash) ↔ Fits key := by
  have turns := @hashTurns_some w key (range' 1 (len key - 1)) (key.headD 0).val
  simp only [makeHash,Option.map_eq_some_iff]
  constructor
  · rintro ⟨_,final,ran,_⟩ i low high
    exact turns.mp ⟨final,ran⟩ i (mem_range'_1.mpr (by omega))
  · intro fits
    obtain ⟨final,ran⟩ := turns.mpr fun i inside => fits i (mem_range'_1.mp inside).1 (by
      have := mem_range'_1.mp inside
      omega)
    exact ⟨_,final,ran,rfl⟩

theorem searches_fits (ran : searches w table keys = some final) : ∀ key ∈ keys, Fits key := by
  induction keys generalizing table final with
  | nil => simp
  | cons key keys ih =>
    obtain ⟨⟨s,next⟩,found,ran⟩ := Option.bind_eq_some_iff.mp ran
    obtain ⟨⟨results,last⟩,ran,_⟩ := Option.bind_eq_some_iff.mp ran
    obtain ⟨hash,made,_⟩ := Option.bind_eq_some_iff.mp found
    exact forall_mem_cons.mpr ⟨makeHash_some.mp ⟨hash,made⟩,ih ran⟩

/-- Every name gets one place and keeps it, exactly if no product overflows. -/
theorem namesKept_iff (few : keys.toFinset.card < nameHashPrime) : NamesKept w keys ↔ ∀ key ∈ keys, Fits key := by
  constructor
  · rintro ⟨results,table,ran,_⟩
    exact searches_fits ran
  · intro fits
    have empty : Stored w [] fun _ => none := ⟨by simp,by simp⟩
    obtain ⟨results,table,ran,length,_,stored,all⟩ :=
      empty.searches keys (fun key inside => makeHash_some.mpr (fits key inside)) few
    refine ⟨results,table,ran,length,fun p first => ⟨(all p first).1,(all p first).2,fun q second => ⟨?_,?_⟩⟩⟩
    · intro same
      exact stored.unique (all p first).2 (same ▸ (all q second).2)
    · intro same
      exact Option.some.inj ((all p first).2.symm.trans (same ▸ (all q second).2))

theorem namesKept_twice : NamesKept 32 [[97,98],[98,97],[97,98]] :=
  (namesKept_iff (by decide)).mpr fun key inside => fits_of_length ((show ∀ key ∈ [[97,98],[98,97],[97,98]],
    length (α := Fin 128) key ≤ 16909321 by decide) key inside)

theorem replicate_not_fits (long : 16909321 < n) (small : n < 2 ^ 31) : ¬ Fits (replicate n 127) := by
  intro fits
  have length : len (replicate n 127) = n := by
    rw [len,length_replicate,Nat.mod_eq_of_lt (by omega),if_pos small]
  have product := fits 16909321 (by omega) (length.symm ▸ long)
  rw [getD_eq_getElem?_getD,getElem?_replicate_of_lt long] at product
  exact absurd product (by decide)

theorem product_overflows : ¬ NamesKept 32 [replicate 16909322 127] := by
  rintro ⟨_,_,ran,_⟩
  exact replicate_not_fits (by decide) (by decide) (searches_fits ran _ mem_cons_self)

end Stablebox.Dpkg
