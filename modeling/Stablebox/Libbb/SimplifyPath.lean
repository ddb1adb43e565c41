import Stablebox.Lib.CString
import Stablebox.Lib.Paths

/-! `bb_simplify_path`: an absolute path is simplified in place, the reader `s` in front of the writer `p`. -/
namespace Stablebox.SimplifyPath

open Paths List Memory Nat

structure State where
  buf : Memory
  p : Nat
  s : Nat

def back (buf : Memory) : (p : Nat) → Option Nat
  | 0 => none
  | p + 1 => if buf p = slash then some p else back buf p

def turn (st : State) : Option State :=
  let c i := st.buf (st.s + i)
  if st.buf st.p = slash ∧ c 0 = slash then some st
  else if st.buf st.p = slash ∧ c 0 = 46 ∧ (c 1 = slash ∨ c 1 = 0) then some st
  else if st.buf st.p = slash ∧ c 0 = 46 ∧ c 1 = 46 ∧ (c 2 = slash ∨ c 2 = 0) then
    (if st.p > 0 then back st.buf st.p else some st.p).map fun p => ⟨st.buf,p,st.s + 1⟩
  else some ⟨st.buf.put (st.p + 1) [c 0],st.p + 1,st.s⟩

def next (st : State) : Option State := (turn st).map fun st => { st with s := st.s + 1 }

def loop : (fuel : Nat) → State → Option State
  | 0,_ => none
  | fuel + 1,st => do
    let st ← next st
    if st.buf st.s = 0 then return st else loop fuel st

def start (path : List UInt8) : State := ⟨fun i => path.getD i 0,0,0⟩

def bbSimplifyPath (path : List UInt8) : Option (List UInt8) := do
  let st ← loop path.length (start path)
  return st.buf.get 0 (if st.p = 0 ∨ st.buf st.p ≠ slash then st.p + 1 else st.p)

/-- The states in which a turn begins. -/
inductive Reached (path : List UInt8) : State → Prop where
  | start : Reached path (start path)
  | next (st after : State) (reached : Reached path st) (more : st.buf st.s ≠ 0) (goes : next st = some after) :
      Reached path after

def slashed (parts : List (List UInt8)) : List UInt8 := parts.flatMap (slash :: ·)

def absolute (parts : List (List UInt8)) : List UInt8 := if parts = [] then [slash] else slashed parts

variable {parts : List (List UInt8)} {cur rest : List UInt8} {st after : State}

theorem back_lt (found : back buf p = some q) : q < p := by
  induction p with
  | zero => cases found
  | succ p ih =>
    rw [back] at found
    split at found
    · cases found
      exact lt_succ_self _
    · exact lt_succ_of_lt (ih found)

theorem back_component (here : buf n = slash) (whole : slash ∉ part) (behind : buf.get (n + 1) part.length = part) :
    back buf (n + 1 + part.length) = some n := by
  have letters : ∀ k ≤ part.length, back buf (n + 1 + k) = some n := by
    intro k
    induction k with
    | zero => simp [back,here]
    | succ k ih =>
      intro inside
      have letter := (buf.get_eq_iff (n + 1) part).mp behind k inside
      rw [add_succ,back,if_neg (by rw [letter]; exact fun same => whole (same ▸ getElem_mem _)),ih (by omega)]
  exact letters _ le_rfl

theorem pieces_front (whole : slash ∉ cur) (nonempty : cur ≠ []) (ends : rest.getD 0 slash = slash) :
    pieces (cur ++ rest) = cur :: pieces rest := by
  have letters : ∀ c ∈ cur, (c == slash) = false := by
    intro c listed
    simp only [beq_eq_false_iff_ne]
    rintro rfl
    exact whole listed
  cases rest with
  | nil => simp [pieces,splitOn,splitOnP_eq_singleton letters,nonempty]
  | cons c rest =>
    obtain rfl : c = slash := ends
    rw [pieces_slash]
    simp [pieces,splitOn,splitOnP_append_cons_of_forall_mem letters,nonempty]

/-- The path up to the writer, and from the reader on. -/
structure At (st : State) (parts : List (List UInt8)) (cur rest : List UInt8) : Prop where
  written : st.buf.get 0 (st.p + 1) = slashed parts ++ slash :: cur
  last : st.buf st.p = slash ↔ cur = []
  unread : ∀ i, st.buf (st.s + i) = rest.getD i 0
  behind : st.p < st.s
  plain : ∀ part ∈ cur :: parts, slash ∉ part ∧ 0 ∉ part
  named : cur ≠ [] → cur ++ rest.takeWhile (· ≠ slash) ∉ [dot,dotDot]

theorem ends_iff (text : 0 ∉ rest) : rest.getD 0 0 = slash ∨ rest.getD 0 0 = 0 ↔ rest.getD 0 slash = slash := by
  cases rest with
  | nil => simp
  | cons d rest =>
    have nonzero : d ≠ 0 := fun same => text (by simp [same])
    simp [nonzero]

theorem ends_of_takeWhile (empty : rest.takeWhile (· ≠ slash) = []) : rest.getD 0 slash = slash := by
  cases rest with
  | nil => rfl
  | cons d rest => simpa [takeWhile_cons] using empty

theorem named_of (text : 0 ∉ rest) (single : ¬(c = 46 ∧ rest.getD 0 slash = slash))
    (up : ¬(c = 46 ∧ rest.getD 0 0 = 46 ∧ (rest.getD 1 0 = slash ∨ rest.getD 1 0 = 0))) :
    [c] ++ rest.takeWhile (· ≠ slash) ∉ [dot,dotDot] := by
  simp only [dot,dotDot,mem_cons,not_mem_nil,or_false,not_or,singleton_append,cons.injEq,not_and]
  refine ⟨fun same empty => single ⟨same,ends_of_takeWhile empty⟩,fun same another => ?_⟩
  cases rest with
  | nil => simp at another
  | cons d rest =>
    rw [takeWhile_cons] at another
    split at another
    · obtain ⟨rfl,empty⟩ := cons.inj another
      exact up ⟨same,rfl,(ends_iff fun listed => text (.tail _ listed)).mpr (ends_of_takeWhile empty)⟩
    · cases another

theorem At.copy (here : At st parts cur (c :: rest))
    (written : slashed parts' ++ slash :: cur' = slashed parts ++ slash :: (cur ++ [c])) (last : c = slash ↔ cur' = [])
    (plain : ∀ part ∈ cur' :: parts', slash ∉ part ∧ 0 ∉ part)
    (named : cur' ≠ [] → cur' ++ rest.takeWhile (· ≠ slash) ∉ [dot,dotDot]) :
    At ⟨st.buf.put (st.p + 1) [c],st.p + 1,st.s + 1⟩ parts' cur' rest := by
  have behind := here.behind
  have copied : st.buf.put (st.p + 1) [c] (st.p + 1) = c := st.buf.put_inside (st.p + 1) 0 [c] (by simp)
  refine ⟨?_,(Eq.congr_left copied).trans last,fun i => ?_,succ_lt_succ behind,plain,named⟩
  · show (st.buf.put (st.p + 1) [c]).get 0 (st.p + 1 + 1) = _
    rw [get_add,get_put_outside _ _ _ _ _ (by omega),here.written,zero_add,written]
    exact (congrArg _ (get_put_same st.buf (st.p + 1) [c])).trans (by simp)
  · show st.buf.put (st.p + 1) [c] (st.s + 1 + i) = _
    rw [st.buf.put_after (by simp; omega),add_assoc,here.unread,add_comm 1,getD_cons_succ]

theorem At.skip (here : At st parts [] (c :: rest)) : At { st with s := st.s + 1 } parts [] rest  where
  written := here.written
  last := here.last
  unread i := by
    rw [add_assoc,here.unread,add_comm 1,getD_cons_succ]
  behind := lt_succ_of_lt here.behind
  plain := here.plain
  named := absurd rfl

theorem At.up (here : At st parts [] rest) :
    ∃ p, (if st.p > 0 then back st.buf st.p else some st.p) = some p ∧ At { st with p } parts.dropLast [] rest := by
  have length : st.p = (slashed parts).length := by simpa using congrArg List.length here.written
  rcases eq_nil_or_concat' parts with rfl | ⟨front,part,rfl⟩
  · exact ⟨st.p,by simp [length,slashed],here⟩
  have written : st.buf.get 0 (st.p + 1) = slashed front ++ ([slash] ++ (part ++ [slash])) := by
    rw [here.written]
    simp [slashed]
  obtain ⟨text,written⟩ := of_get_append written
  obtain ⟨first,written⟩ := of_get_append written
  have behind := (of_get_append written).1
  rw [zero_add] at first behind
  have found : st.buf (slashed front).length = slash := by simpa [Memory.get] using first
  have place : st.p = (slashed front).length + 1 + part.length := by
    rw [length,slashed,flatMap_append,length_append,← slashed]
    simp [add_assoc,add_comm 1]
  refine ⟨(slashed front).length,?_,?_⟩
  · rw [if_pos (by omega),place]
    exact back_component found (here.plain part (by simp)).1 behind
  rw [dropLast_concat]
  have lower : (slashed front).length < st.s := lt_trans (by omega) here.behind
  refine ⟨?_,by simp [found],here.unread,lower,fun part listed => here.plain part (by grind),absurd rfl⟩
  rw [get_add,text,zero_add]
  exact congrArg _ first

/-- A turn leaves what the path comes to in the end. -/
def Steps (st : State) (rest : List UInt8) (left : List (List UInt8)) : Prop :=
  ∃ after parts cur rest', next st = some after ∧ At after parts cur rest' ∧ rest' <:+ rest ∧
    resolve parts (pieces (cur ++ rest')) = left

theorem At.corner (here : At st parts [] (c :: rest)) (text : 0 ∉ c :: rest) :
    Steps st rest (resolve parts (pieces (c :: rest))) := by
  have corner := here.last.mpr rfl
  have others : 0 ∉ rest := fun listed => text (.tail _ listed)
  have bytes := here.unread
  by_cases double : c = slash
  · subst double
    refine ⟨_,parts,[],rest,?_,here.skip,suffix_rfl,by rw [pieces_slash,nil_append]⟩
    simp only [next,turn,corner,bytes,getD_cons_zero]
    rfl
  by_cases single : c = 46 ∧ rest.getD 0 slash = slash
  · obtain ⟨rfl,ends⟩ := single
    refine ⟨_,parts,[],rest,?_,here.skip,suffix_rfl,?_⟩
    · simp only [next,turn,corner,bytes,getD_cons_zero,getD_cons_succ,ends_iff others,ends]
      simp [double]
    · rw [nil_append,← singleton_append,pieces_front (by decide) (by simp) ends]
      rfl
  by_cases up : c = 46 ∧ rest.getD 0 0 = 46 ∧ (rest.getD 1 0 = slash ∨ rest.getD 1 0 = 0)
  · obtain ⟨rfl,dots,ends⟩ := up
    cases rest with
    | nil => simp at dots
    | cons d rest =>
      obtain rfl : d = 46 := dots
      obtain ⟨p,found,higher⟩ := here.up
      refine ⟨_,parts.dropLast,[],rest,?_,higher.skip.skip,suffix_cons _ _,?_⟩
      · have goes : turn st = some ⟨st.buf,p,st.s + 1⟩ := by
          simp only [turn,corner,bytes,getD_cons_zero,getD_cons_succ,found]
          simp_all [slash]
        rw [next,goes]
        rfl
      · rw [nil_append,show 46 :: 46 :: rest = [46,46] ++ rest from rfl,
          pieces_front (by decide) (by simp) ((ends_iff fun listed => others (.tail _ listed)).mp ends)]
        rfl
  · refine ⟨_,parts,[c],rest,?_,here.copy rfl (by simp [double]) (by grind [here.plain])
      fun _ => named_of others single up,suffix_rfl,rfl⟩
    simp only [next,turn,bytes,getD_cons_zero,getD_cons_succ,ends_iff others,double,single,up,and_false,if_false]
    rfl

theorem At.inside (here : At st parts cur (c :: rest)) (text : 0 ∉ c :: rest) (inside : cur ≠ []) :
    Steps st rest (resolve parts (pieces (cur ++ c :: rest))) := by
  have left := here.named inside
  have goes : next st = some ⟨st.buf.put (st.p + 1) [c],st.p + 1,st.s + 1⟩ := by
    simp only [next,turn,here.last,inside,here.unread,false_and,if_false]
    rfl
  by_cases ends : c = slash
  · subst ends
    rw [takeWhile_cons_of_neg (by simp),append_nil] at left
    refine ⟨_,parts ++ [cur],[],rest,goes,here.copy (by simp [slashed]) (by simp) (by grind [here.plain])
      (absurd rfl),suffix_rfl,?_⟩
    rw [pieces_front (here.plain cur (mem_cons_self ..)).1 inside rfl,pieces_slash,nil_append]
    simp only [mem_cons,not_mem_nil,or_false,not_or] at left
    simp [resolve,enter,left]
  · refine ⟨_,parts,cur ++ [c],rest,goes,here.copy rfl (by simp [ends]) (by grind [here.plain]) fun _ => ?_,
      suffix_rfl,by simp⟩
    simpa [takeWhile_cons,ends] using left

theorem At.run (here : At st parts cur rest) (text : 0 ∉ rest) (enough : rest.length ≤ fuel) :
    ∃ last parts' cur', (if st.buf st.s = 0 then some st else loop fuel st) = some last ∧ At last parts' cur' [] ∧
      resolve parts' (pieces cur') = resolve parts (pieces (cur ++ rest)) := by
  induction fuel generalizing st parts cur rest with
  | zero =>
    obtain rfl := length_eq_zero_iff.mp (le_zero.mp enough)
    exact ⟨st,parts,cur,if_pos (here.unread 0),here,by simp⟩
  | succ fuel ih =>
    cases rest with
    | nil => exact ⟨st,parts,cur,if_pos (here.unread 0),here,by simp⟩
    | cons c rest =>
      have first : st.buf st.s = c := here.unread 0
      obtain ⟨after,parts',cur',rest',goes,there,tail,same⟩ :
          Steps st rest (resolve parts (pieces (cur ++ c :: rest))) := by
        by_cases corner : cur = []
        · subst corner
          exact here.corner text
        · exact here.inside text corner
      obtain ⟨last,parts'',cur'',ran,final,result⟩ := ih there (fun listed => text (.tail _ (tail.subset listed)))
        (tail.length_le.trans (le_of_succ_le_succ enough))
      refine ⟨last,parts'',cur'',?_,final,result.trans same⟩
      rw [if_neg (by rw [first]; exact fun zero => text (by simp [zero])),loop,goes]
      exact ran

theorem At.finish (here : At st parts cur []) :
    st.buf.get 0 (if st.p = 0 ∨ st.buf st.p ≠ slash then st.p + 1 else st.p) =
      absolute (resolve parts (pieces cur)) ∧ ∀ part ∈ resolve parts (pieces cur), 0 ∉ part := by
  by_cases inside : cur = []
  · subst inside
    refine ⟨?_,fun part listed => (here.plain part (.tail _ listed)).2⟩
    have length : st.p = (slashed parts).length := by simpa using congrArg List.length here.written
    simp only [here.last.mpr rfl,ne_eq,not_true_eq_false,or_false]
    cases parts with
    | nil => exact (congrArg _ (if_pos length)).trans here.written
    | cons part parts =>
      rw [if_neg (by simp [length,slashed]),length]
      exact (of_get_append (length ▸ here.written)).1
  · have front : pieces (cur ++ []) = _ := pieces_front (here.plain cur (mem_cons_self ..)).1 inside rfl
    have left := here.named inside
    rw [append_nil] at front
    simp only [takeWhile_nil,append_nil,mem_cons,not_mem_nil,or_false,not_or] at left
    have resolved : resolve parts (pieces cur) = parts ++ [cur] := by
      rw [front]
      simp [resolve,enter,left,pieces]
    rw [resolved,if_pos (.inr (by simp [here.last,inside])),here.written]
    exact ⟨by simp [absolute,slashed],fun part listed => (here.plain part (by simpa [or_comm] using listed)).2⟩

theorem pieces_slashed (plain : ∀ part ∈ parts, Plain part) : pieces (slashed parts) = parts := by
  induction parts with
  | nil => rfl
  | cons part parts ih =>
    have here := plain part (mem_cons_self ..)
    have ends : (slashed parts).getD 0 slash = slash := by cases parts <;> rfl
    rw [slashed,flatMap_cons,cons_append,pieces_slash,← slashed,pieces_front here.whole here.nonempty ends,
      ih (forall_mem_cons.mp plain).2]

theorem resolve_of_plain (plain : ∀ part ∈ parts, Plain part) :
    resolve front parts = front ++ parts := by
  induction parts generalizing front with
  | nil => simp [resolve]
  | cons part parts ih =>
    have here := plain part (mem_cons_self ..)
    have entered : enter front part = front ++ [part] := by simp [enter,here.notDot,here.notDotDot]
    rw [resolve,foldl_cons,entered,← resolve,ih (forall_mem_cons.mp plain).2]
    simp

theorem resolve_absolute (plain : ∀ part ∈ parts, Plain part) : resolve [] (pieces (absolute parts)) = parts := by
  unfold absolute
  split
  · subst parts
    decide
  · rw [pieces_slashed plain,resolve_of_plain plain,nil_append]

variable {path : List UInt8}

theorem start_run (begins : path.head? = some slash) (text : 0 ∉ path) :
    bbSimplifyPath path = some (absolute (resolve [] (pieces path))) ∧
      ∀ part ∈ resolve [] (pieces path), 0 ∉ part := by
  obtain ⟨rest,rfl⟩ := head?_eq_some_iff.mp begins
  have here : At ⟨(start (slash :: rest)).buf,0,1⟩ [] [] rest :=
    ⟨rfl,by simp [start],fun i => by simp [start,add_comm 1],one_pos,by simp,absurd rfl⟩
  obtain ⟨last,parts,cur,ran,final,result⟩ := here.run (fun listed => text (.tail _ listed)) le_rfl
  obtain ⟨written,bytes⟩ := final.finish
  rw [nil_append] at result
  rw [pieces_slash,← result]
  refine ⟨?_,bytes⟩
  have looped : loop (slash :: rest).length (start (slash :: rest)) = some last := by
    exact ran
  rw [bbSimplifyPath,looped]
  exact congrArg some written

/-- The writer is behind the reader, except in front of the first byte. -/
def Behind (st : State) : Prop := st.p < st.s ∨ st.p = st.s ∧ st.buf st.p = slash

theorem Behind.turn (here : Behind st) (goes : turn st = some after) : after.p ≤ after.s := by
  simp only [SimplifyPath.turn] at goes
  unfold Behind at here
  split_ifs at goes with double single up top
  · cases goes
    omega
  · cases goes
    omega
  · obtain ⟨p,found,rfl⟩ := Option.map_eq_some_iff.mp goes
    have lower := back_lt found
    show p ≤ st.s + 1
    omega
  · cases goes
    show st.p ≤ st.s + 1
    omega
  · cases goes
    rcases here with less | ⟨same,corner⟩
    · exact less
    · exact absurd ⟨corner,by rw [add_zero,← same,corner]⟩ double

theorem Reached.behind (begins : path.head? = some slash) (reached : Reached path st) : Behind st := by
  induction reached with
  | start =>
    obtain ⟨rest,rfl⟩ := head?_eq_some_iff.mp begins
    exact .inr ⟨rfl,rfl⟩
  | next st after reached more goes ih =>
    obtain ⟨turned,there,rfl⟩ := Option.map_eq_some_iff.mp goes
    exact .inl (lt_succ_of_le (ih.turn there))

/-- An absolute path keeps the components that are left once empty ones, `.` and `..` are carried out,
joined by single slashes; a second call changes nothing; the writer never passes the reader. -/
theorem bbSimplifyPath_components {path : List UInt8} (begins : path.head? = some slash) (text : 0 ∉ path) :
    ∃ result, bbSimplifyPath path = some result ∧ result = absolute (resolve [] (pieces path)) ∧
      bbSimplifyPath result = some result ∧
      ∀ st, Reached path st → st.p ≤ st.s ∧ ∀ after, turn st = some after → after.p ≤ after.s := by
  obtain ⟨found,bytes⟩ := start_run begins text
  have plain : ∀ part ∈ resolve [] (pieces path), Plain part := resolve_plain (by simp) fun _ => pieces_whole
  refine ⟨_,found,rfl,?_,fun st reached => ?_⟩
  · generalize resolve [] (pieces path) = parts at *
    have head : (absolute parts).head? = some slash := by cases parts <;> rfl
    have clean : 0 ∉ absolute parts := by
      unfold absolute slashed
      split
      · decide
      · simpa [slash] using bytes
    rw [(start_run head clean).1,resolve_absolute plain]
  · have here := reached.behind begins
    refine ⟨?_,fun after goes => here.turn goes⟩
    unfold Behind at here
    omega

/-- `/a/./b//../c/..` is `/a`. -/
theorem bbSimplifyPath_up :
    ∃ result, bbSimplifyPath [47,97,47,46,47,98,47,47,46,46,47,99,47,46,46] = some result ∧
      result = absolute (resolve [] (pieces [47,97,47,46,47,98,47,47,46,46,47,99,47,46,46])) ∧
      bbSimplifyPath result = some result ∧
      ∀ st, Reached [47,97,47,46,47,98,47,47,46,46,47,99,47,46,46] st →
        st.p ≤ st.s ∧ ∀ after, turn st = some after → after.p ≤ after.s :=
  bbSimplifyPath_components rfl (by decide)

end Stablebox.SimplifyPath
