import Stablebox.Sysklogd.Circular
import Stablebox.Lib.Runs

/-! What the readers print after a run of `circ_message`: the state is described by the
strings below `tail` and the strings from `head` to the end of the buffer, each step keeps
that description, and both readers print the strings in turn. -/
namespace Stablebox.Syslogd

open Libbb List Memory

variable {buf : Shbuf} {msg : List UInt8} {msgs : List (List UInt8)}

theorem strncpy_whole (msg : List UInt8) : strncpy msg (msg.length + 1) = msg ++ [0] := by
  rw [strncpy,take_append,take_of_length_le (by omega)]
  simp

theorem strncpy_part (msg : List UInt8) (n : Nat) (part : n ≤ msg.length) : strncpy msg n = msg.take n := by
  rw [strncpy,take_append_of_le_length part]

/-! ### The step -/

theorem circMessage_append (fits : buf.tail + (msg.length + 1) < buf.size) :
    circMessage buf msg = { buf with
      head := circHead buf msg
      tail := buf.tail + (msg.length + 1)
      data := buf.data.put buf.tail (msg ++ [0]) } := by
  simp [circMessage,circTail,circWrites,fits,strncpy_whole]

theorem circMessage_wrap (inside : buf.tail < buf.size) (wraps : ¬ buf.tail + (msg.length + 1) < buf.size)
    (found : buf.data.memchr (buf.tail + (msg.length + 1) - buf.size)
      (buf.size - (buf.tail + (msg.length + 1) - buf.size)) = some c) :
    circMessage buf msg = { buf with
      head := c + 1
      tail := buf.tail + (msg.length + 1) - buf.size + 1
      data := ((buf.data.put buf.tail (msg.take (buf.size - 1 - buf.tail))).put (buf.size - 1) [0]).put 0
        (msg.drop (buf.size - 1 - buf.tail) ++ [0]) } := by
  have count : msg.length + 1 - (buf.tail + (msg.length + 1) - buf.size) - 1 = buf.size - 1 - buf.tail := by omega
  have part := strncpy_part msg (buf.size - 1 - buf.tail) (by omega)
  simp [circMessage,circHead,circTail,circWrites,wraps,found,count,part]

theorem circWrites_inside (short : msg.length ≤ 1022) (large : 4080 ≤ buf.size) (inside : buf.tail < buf.size) :
    ∀ copy ∈ circWrites buf msg, copy.1 + copy.2.length ≤ buf.size := by
  intro copy listed
  unfold circWrites at listed
  by_cases fits : buf.tail + (msg.length + 1) < buf.size
  · simp only [fits,if_true,mem_singleton] at listed
    rw [listed,strncpy_whole,length_append,length_singleton]
    omega
  · simp only [fits,if_false] at listed
    cases found : buf.data.memchr (buf.tail + (msg.length + 1) - buf.size)
        (buf.size - (buf.tail + (msg.length + 1) - buf.size)) with
    | none =>
      rw [found] at listed
      simp at listed
    | some c =>
      rw [found] at listed
      simp only [mem_cons,not_mem_nil,or_false] at listed
      rcases listed with rfl | rfl | rfl
      · rw [strncpy_part msg _ (by omega),length_take]
        omega
      · simp only [length_singleton]
        omega
      · simp only [length_append,length_drop,length_singleton]
        omega

theorem circTail_inside (short : msg.length ≤ 1022) (large : 4080 ≤ buf.size) (inside : buf.tail < buf.size) :
    circTail buf msg < buf.size := by
  unfold circTail
  by_cases fits : buf.tail + (msg.length + 1) < buf.size
  · simp [fits]
  simp only [fits,if_false]
  cases buf.data.memchr (buf.tail + (msg.length + 1) - buf.size)
      (buf.size - (buf.tail + (msg.length + 1) - buf.size)) with
  | none => exact Nat.lt_of_le_of_lt (Nat.zero_le _) inside
  | some c =>
    simp only
    omega

theorem writesInside_run (msgs : List Message) (buf : Shbuf) (large : 4080 ≤ buf.size)
    (inside : buf.tail < buf.size) : WritesInside buf msgs := by
  induction msgs generalizing buf with
  | nil => trivial
  | cons msg msgs ih =>
    exact ⟨circWrites_inside msg.short large inside,
      ih (circMessage buf msg.bytes) large (circTail_inside msg.short large inside)⟩

/-! ### The strings in the buffer -/

/-- The strings from `head` to the end of the buffer and those below `tail` spell a final segment
of the messages: the last one of the former and the first one of the latter are the parts of a
message that was broken up, or the former are all gone and what is left is complete. -/
def Spells (high : List (List UInt8)) (front : List UInt8) (fresh msgs : List (List UInt8)) : Prop :=
  (∃ old part, high = old ++ [part] ∧ (old ++ (part ++ front) :: fresh) <:+ msgs) ∨
  (high = [] ∧ fresh <:+ msgs ∧ ∃ live, live ≠ [] ∧ live <:+ msgs ∧ live.flatten = (front :: fresh).flatten)

/-- Before the first message is broken up, and after. -/
inductive Shape (buf : Shbuf) (msgs : List (List UInt8)) : Prop
  | flat (start : buf.head = 0) (low : buf.data.get 0 buf.tail = terminated msgs)
  | broken (high : List (List UInt8)) (front : List UInt8) (fresh : List (List UInt8))
      (order : buf.tail < buf.head) (bound : buf.head ≤ buf.size)
      (low : buf.data.get 0 buf.tail = terminated (front :: fresh))
      (upper : buf.data.get buf.head (buf.size - buf.head) = terminated high)
      (plainFront : 0 ∉ front) (plainHigh : ∀ piece ∈ high, 0 ∉ piece)
      (spells : Spells high front fresh msgs)

structure Invariant (buf : Shbuf) (msgs : List (List UInt8)) : Prop where
  large : 4080 ≤ buf.size
  inside : buf.tail < buf.size
  padded : buf.data buf.size = 0
  plain : ∀ msg ∈ msgs, 0 ∉ msg
  shape : Shape buf msgs

theorem Spells.fresh_suffix (spells : Spells high front fresh msgs) : fresh <:+ msgs := by
  rcases spells with ⟨old,part,_,suffix⟩ | ⟨_,suffix,_⟩
  · exact ((suffix_cons _ _).trans (suffix_append _ _)).trans suffix
  · exact suffix

theorem suffix_snoc (msg : List UInt8) (suffix : live <:+ msgs) :
    (live ++ [msg]) <:+ (msgs ++ [msg]) := suffix_append_self_iff.mpr suffix

theorem Spells.push (msg : List UInt8)
    (spells : Spells high front fresh msgs) : Spells high front (fresh ++ [msg]) (msgs ++ [msg]) := by
  rcases spells with ⟨old,part,shape,suffix⟩ | ⟨gone,newer,live,some,suffix,same⟩
  · refine .inl ⟨old,part,shape,?_⟩
    simpa using suffix_snoc msg suffix
  · refine .inr ⟨gone,suffix_snoc msg newer,live ++ [msg],by simp,suffix_snoc msg suffix,?_⟩
    simp [same]

theorem Spells.drop (some : kept ≠ []) (spells : Spells (gone ++ kept) front fresh msgs) :
    Spells kept front fresh msgs := by
  rcases spells with ⟨old,part,shape,suffix⟩ | ⟨none,_⟩
  · have last : kept = kept.dropLast ++ [part] := by
      have ends := congrArg List.getLast? shape
      rw [getLast?_append_of_ne_nil _ some,getLast?_append_of_ne_nil _ (by simp)] at ends
      rw [getLast?_eq_some_getLast some,getLast?_singleton] at ends
      rw [← Option.some.inj ends]
      exact (dropLast_append_getLast some).symm
    refine .inl ⟨kept.dropLast,part,last,?_⟩
    rw [last,← append_assoc] at shape
    have rest := append_cancel_right shape
    rw [← rest,append_assoc] at suffix
    exact (suffix_append _ _).trans suffix
  · exact absurd (append_eq_nil_iff.mp none).2 some

variable {data : Memory}

theorem low_append {tail : Nat} (low : data.get 0 tail = terminated pieces) :
    (data.put tail (msg ++ [0])).get 0 (tail + (msg.length + 1)) = terminated (pieces ++ [msg]) := by
  have same := data.get_put_same tail (msg ++ [0])
  rw [length_append,length_singleton] at same
  rw [get_add,zero_add,same,get_put_outside _ _ _ _ _ (.inl (by omega)),low]
  simp

variable {count size : Nat}

/-- A null byte at the start says that the second part of the message at the end is empty. -/
theorem front_empty (low : data.get 0 count = terminated (front :: fresh)) (plain : 0 ∉ front) (zero : data 0 = 0) :
    front = [] := by
  cases front with
  | nil => rfl
  | cons byte front =>
    have first := of_get low (i := 0) (by simp)
    rw [add_zero,zero] at first
    exact absurd (first ▸ (.head _)) plain

/-- A null byte before the last one says that the first part is empty. -/
theorem part_empty {head : Nat} (upper : data.get head (size - head) = terminated (old ++ [part])) (plain : 0 ∉ part)
    (zero : data (size - 2) = 0) : part = [] := by
  rcases eq_nil_or_concat part with empty | ⟨start,byte,shape⟩
  · exact empty
  have length := congrArg List.length upper
  rw [shape] at upper length plain
  rw [concat_eq_append] at upper length plain
  simp only [get_length,terminated_append,terminated_cons,terminated_nil,length_append,length_cons,length_nil] at length
  have last := of_get upper (i := (terminated old).length + start.length) (by simp)
  rw [show head + ((terminated old).length + start.length) = size - 2 by omega,zero] at last
  simp at last
  exact absurd (by simp [← last]) plain

theorem terminated_ne_nil (some : pieces ≠ []) : 0 < (terminated pieces).length := by
  have bound := length_le_terminated pieces
  have := length_pos_iff.mpr some
  omega

/-- Where `head` goes when a message is appended, and what it leaves. -/
theorem broken_append (fits : buf.tail + (msg.length + 1) < buf.size) (order : buf.tail < buf.head)
    (bound : buf.head ≤ buf.size) (low : buf.data.get 0 buf.tail = terminated (front :: fresh))
    (upper : buf.data.get buf.head (buf.size - buf.head) = terminated high) (plainFront : 0 ∉ front)
    (plainHigh : ∀ piece ∈ high, 0 ∉ piece) (spells : Spells high front fresh msgs) (harmless : Harmless buf msg) :
    ∃ kept, buf.tail + (msg.length + 1) < circHead buf msg ∧ circHead buf msg ≤ buf.size ∧
      buf.data.get (circHead buf msg) (buf.size - circHead buf msg) = terminated kept ∧
      (∀ piece ∈ kept, 0 ∉ piece) ∧ Spells kept front (fresh ++ [msg]) (msgs ++ [msg]) := by
  by_cases reaches : buf.tail + (msg.length + 1) ≥ buf.head
  · have length : (terminated high).length = buf.size - buf.head := by rw [← upper,get_length]
    obtain ⟨gone,kept,shape,some,later,found⟩ := memchr_terminated
      (buf.size - (buf.tail + (msg.length + 1))) high buf.head (by rw [length,upper]) plainHigh reaches
      (by omega) (by omega)
    have moved : circHead buf msg = buf.head + (terminated gone).length := by
      have position : buf.head + (buf.tail + (msg.length + 1) - buf.head) = buf.tail + (msg.length + 1) := by omega
      simp only [circHead,fits,order,reaches,if_true,and_self,position,found]
      omega
    rw [shape,terminated_append,length_append] at length
    rw [shape,terminated_append] at upper
    have rest := (of_get_append upper).2
    rw [moved,show buf.size - (buf.head + (terminated gone).length) = (terminated kept).length by omega]
    refine ⟨kept,later,by omega,rest,fun piece listed => plainHigh piece (by simp [shape,listed]),?_⟩
    rw [shape] at spells
    by_cases whole : kept = []
    · -- The first part of the message at the end is overwritten.
      subst whole
      rw [append_nil] at spells
      rcases spells with ⟨old,part,parts,suffix⟩ | ⟨none,_⟩
      · refine .inr ⟨rfl,suffix_snoc msg ((suffix_cons _ _).trans (suffix_append _ _) |>.trans suffix),?_⟩
        simp only [Harmless,fits,if_true] at harmless
        rcases harmless order reaches with zero | zero | ⟨i,after,before,zero⟩
        · refine ⟨fresh ++ [msg],by simp,suffix_snoc msg
            ((suffix_cons _ _).trans (suffix_append _ _) |>.trans suffix),?_⟩
          rw [front_empty low plainFront zero]
          simp
        · have empty := part_empty (by rw [← parts]; simpa using upper)
            (plainHigh part (by simp [shape,parts])) zero
          rw [empty,nil_append] at suffix
          exact ⟨front :: fresh ++ [msg],by simp,suffix_snoc msg ((suffix_append _ _).trans suffix),by simp⟩
        · refine absurd zero ((memchr_eq_some.mp found).2.2 i after ?_)
          simp only [terminated_nil,length_nil] at length
          omega
      · exact absurd none some
    · exact (spells.drop whole).push msg
  · have stays : circHead buf msg = buf.head := by
      simp [circHead,fits,order,reaches,and_false]
    rw [stays]
    exact ⟨high,by omega,bound,upper,plainHigh,spells.push msg⟩

theorem Invariant.append (invariant : Invariant buf msgs) (plain : 0 ∉ msg)
    (fits : buf.tail + (msg.length + 1) < buf.size) (harmless : Harmless buf msg) :
    Invariant (circMessage buf msg) (msgs ++ [msg]) := by
  obtain ⟨large,inside,padded,plainAll,shape⟩ := invariant
  rw [circMessage_append fits]
  refine ⟨large,fits,?_,?_,?_⟩
  · simpa using (put_after _ (by simp; omega)).trans padded
  · exact forall_mem_append.mpr ⟨plainAll,forall_mem_singleton.mpr plain⟩
  · cases shape with
    | flat start low =>
      have stays : circHead buf msg = 0 := by
        simp [circHead,fits,start]
      exact .flat stays (low_append low)
    | broken high front fresh order bound low upper plainFront plainHigh spells =>
      obtain ⟨kept,later,bound,upper,plainKept,spells⟩ :=
        broken_append fits order bound low upper plainFront plainHigh spells harmless
      refine .broken kept front (fresh ++ [msg]) later bound (low_append low) ?_ plainFront plainKept spells
      have apart := get_put_outside buf.data buf.tail (circHead buf msg)
        (buf.size - circHead buf msg) (msg ++ [0]) (.inr (by simp; omega))
      exact apart.trans upper

/-- The strings below `tail`, of which all but the first are whole messages. -/
theorem Invariant.low (invariant : Invariant buf msgs) : ∃ pieces, buf.data.get 0 buf.tail = terminated pieces ∧
    (∀ piece ∈ pieces, 0 ∉ piece) ∧ ∀ gone kept, gone ≠ [] → pieces = gone ++ kept → kept <:+ msgs := by
  obtain ⟨_,_,_,plain,shape⟩ := invariant
  cases shape with
  | flat start low => exact ⟨msgs,low,plain,fun gone kept _ shape => shape ▸ suffix_append _ _⟩
  | broken high front fresh order bound low upper plainFront plainHigh spells =>
    refine ⟨front :: fresh,low,?_,?_⟩
    · exact forall_mem_cons.mpr ⟨plainFront,fun piece listed => plain piece (spells.fresh_suffix.subset listed)⟩
    · intro gone kept some shape
      cases gone with
      | nil => exact absurd rfl some
      | cons first gone =>
        rw [cons_append,List.cons.injEq] at shape
        exact (shape.2 ▸ suffix_append gone kept).trans spells.fresh_suffix

theorem upper_wrap (data : Memory) (size tail head : Nat) (part : List UInt8) (order : head ≤ tail)
    (ends : tail + part.length + 1 = size) (length : rest.length = k) (apart : k + 1 ≤ head) :
    (((data.put tail part).put (size - 1) [0]).put 0 (rest ++ [0])).get head (size - head)
      = data.get head (tail - head) ++ (part ++ [0]) := by
  rw [get_put_outside _ _ _ _ _ (.inr (by simp; omega))]
  rw [show size - head = (tail - head) + (part.length + 1) by omega,get_add,get_add]
  rw [show head + (tail - head) = tail by omega,show size - 1 = tail + part.length by omega]
  rw [get_put_outside _ _ _ _ _ (.inl (by omega)),get_put_outside _ _ _ _ _ (.inl (by omega)),
    get_put_outside _ _ _ _ _ (.inl (by omega)),get_put_same]
  congr 2
  exact get_put_same _ _ [0]

theorem Invariant.wrap (invariant : Invariant buf msgs) (short : msg.length ≤ 1022) (plain : 0 ∉ msg)
    (wraps : ¬ buf.tail + (msg.length + 1) < buf.size) (harmless : Harmless buf msg) :
    Invariant (circMessage buf msg) (msgs ++ [msg]) := by
  obtain ⟨pieces,low,plainLow,whole⟩ := invariant.low
  obtain ⟨large,inside,padded,plainAll,_⟩ := invariant
  simp only [Harmless,wraps,if_false] at harmless
  have length : (terminated pieces).length = buf.tail := by rw [← low,get_length]
  obtain ⟨gone,kept,shape,some,later,found⟩ := memchr_terminated
    (buf.size - (buf.tail + (msg.length + 1) - buf.size)) pieces 0 (by rw [length,low]) plainLow
    (Nat.zero_le (buf.tail + (msg.length + 1) - buf.size)) (by omega) (by omega)
  have ended := (memchr_eq_some.mp found).1
  rw [zero_add] at ended found later
  rw [shape,terminated_append] at low length
  rw [length_append] at length
  have positive := terminated_ne_nil some
  -- The byte that the search starts at is not the one that it finds.
  have apart : buf.tail + (msg.length + 1) - buf.size + 1 < (terminated gone).length := by
    by_contra close
    rw [show (terminated gone).length - 1 = buf.tail + (msg.length + 1) - buf.size by omega] at ended
    exact harmless ended
  have rest := (of_get_append low).2
  have partLength : (msg.take (buf.size - 1 - buf.tail)).length = buf.size - 1 - buf.tail := by
    rw [length_take]
    omega
  have restLength : (msg.drop (buf.size - 1 - buf.tail)).length = buf.tail + (msg.length + 1) - buf.size := by
    rw [length_drop]
    omega
  rw [circMessage_wrap inside wraps found,Nat.sub_add_cancel positive]
  refine ⟨large,by simp only; omega,?_,?_,?_⟩
  · simp only
    rw [put_after _ (by simp; omega),put_after _ (by simp; omega),put_after _ (by simp; omega),padded]
  · exact forall_mem_append.mpr ⟨plainAll,forall_mem_singleton.mpr plain⟩
  · refine .broken (kept ++ [msg.take (buf.size - 1 - buf.tail)]) (msg.drop (buf.size - 1 - buf.tail)) []
      apart (by simp only; omega) ?_ ?_ (fun zero => plain (mem_of_mem_drop zero)) ?_ ?_
    · have same := get_put_same ((buf.data.put buf.tail (msg.take (buf.size - 1 - buf.tail))).put
        (buf.size - 1) [0]) 0 (msg.drop (buf.size - 1 - buf.tail) ++ [0])
      rw [length_append,restLength,length_singleton] at same
      rw [terminated_cons,terminated_nil]
      exact same
    · have upper := upper_wrap buf.data buf.size buf.tail (terminated gone).length
        (msg.take (buf.size - 1 - buf.tail)) (by omega) (by omega) restLength (by omega)
      simp only [terminated_append,terminated_cons,terminated_nil]
      rw [upper,show buf.tail - (terminated gone).length = (terminated kept).length by omega]
      rw [zero_add] at rest
      rw [rest]
    · intro piece listed
      rcases mem_append.mp listed with old | new
      · exact plainLow piece (by simp [shape,old])
      · exact mem_singleton.mp new ▸ fun zero => plain (mem_of_mem_take zero)
    · refine .inl ⟨kept,_,rfl,?_⟩
      rw [take_append_drop]
      exact suffix_snoc msg (whole gone kept some shape)

theorem Invariant.step (invariant : Invariant buf msgs) (msg : Message) (harmless : Harmless buf msg.bytes) :
    Invariant (circMessage buf msg.bytes) (msgs ++ [msg.bytes]) := by
  by_cases fits : buf.tail + (msg.bytes.length + 1) < buf.size
  · exact invariant.append msg.plain fits harmless
  · exact invariant.wrap msg.short msg.plain fits harmless

theorem Invariant.run (todo : List Message) (invariant : Invariant buf msgs) (harmless : HarmlessRun buf todo) :
    Invariant (circMessages buf todo) (msgs ++ todo.map Message.bytes) := by
  induction todo generalizing buf msgs with
  | nil => simpa [circMessages] using invariant
  | cons msg todo ih =>
    have rest := ih (invariant.step msg harmless.1) harmless.2
    simpa [circMessages] using rest

theorem invariant_init {segment : Memory} (large : 4080 ≤ size) (padded : segment size = 0) :
    Invariant (ipcsyslogInit size segment) [] where
  large := large
  inside := lt_of_lt_of_le (show 0 < 4080 by decide) large
  padded := padded
  plain := by simp
  shape := .flat rfl rfl

/-! ### The readers -/

theorem plainLoop_turn (turn : i ≠ buf.tail) (here : buf.data.cString i (buf.size + 4) = some string) :
    plainLoop buf (fuel + 1) i =
      (plainLoop buf fuel (if i + string.length + 1 ≥ buf.size then 0 else i + string.length + 1)).map
        (string ++ ·) := by
  rw [plainLoop,if_neg turn,here]
  cases after : plainLoop buf fuel (if i + string.length + 1 ≥ buf.size then 0 else i + string.length + 1) <;>
    simp [after]

theorem plainLoop_low (inside : buf.tail < buf.size) (pieces : List (List UInt8)) (fuel i : Nat)
    (here : buf.data.get i (terminated pieces).length = terminated pieces)
    (ends : i + (terminated pieces).length = buf.tail) (plain : ∀ piece ∈ pieces, 0 ∉ piece)
    (enough : pieces.length < fuel) : plainLoop buf fuel i = some pieces.flatten := by
  induction pieces generalizing fuel i with
  | nil =>
    obtain ⟨fuel,rfl⟩ : ∃ less, fuel = less + 1 := ⟨fuel - 1,by simp at enough; omega⟩
    rw [terminated_nil,length_nil,add_zero] at ends
    simp [plainLoop,ends]
  | cons piece pieces ih =>
    obtain ⟨fuel,rfl⟩ : ∃ less, fuel = less + 1 := ⟨fuel - 1,by simp at enough; omega⟩
    have string := cString_terminated (buf.size + 4) here (plain piece (by simp)) (by omega)
    have behind := (of_get_terminated here).2.2
    rw [terminated_cons,length_append,length_cons] at ends
    rw [length_cons] at enough
    have rest := ih fuel (i + piece.length + 1) behind (by omega) (forall_mem_cons.mp plain).2
      (by omega)
    rw [plainLoop_turn (by omega) string,if_neg (by omega),rest]
    simp

theorem plainLoop_high (pieces : List (List UInt8)) (some : pieces ≠ []) (fuel i : Nat)
    (here : buf.data.get i (terminated pieces).length = terminated pieces)
    (ends : i + (terminated pieces).length = buf.size) (plain : ∀ piece ∈ pieces, 0 ∉ piece) (above : buf.tail < i) :
    plainLoop buf (pieces.length + fuel) i = (plainLoop buf fuel 0).map (pieces.flatten ++ ·) := by
  induction pieces generalizing i with
  | nil => exact absurd rfl some
  | cons piece pieces ih =>
    have string := cString_terminated (buf.size + 4) here (plain piece (by simp)) (by omega)
    have behind := (of_get_terminated here).2.2
    rw [terminated_cons,length_append,length_cons] at ends
    rw [show (piece :: pieces).length + fuel = pieces.length + fuel + 1 by simp; omega,plainLoop_turn (by omega) string]
    by_cases last : pieces = []
    · subst last
      rw [terminated_nil,length_nil] at ends
      rw [if_pos (by omega)]
      simp
    · have positive := terminated_ne_nil last
      rw [if_neg (by omega),ih last (i + piece.length + 1) behind (by omega)
        (forall_mem_cons.mp plain).2 (by omega),Option.map_map]
      simp [Function.comp_def]

theorem printCopy_terminated (pieces : List (List UInt8)) (fuel : Nat) (plain : ∀ piece ∈ pieces, 0 ∉ piece)
    (enough : pieces.length ≤ fuel) : printCopy fuel (terminated pieces) = some pieces.flatten := by
  induction pieces generalizing fuel with
  | nil => simp [printCopy]
  | cons piece pieces ih =>
    obtain ⟨fuel,rfl⟩ : ∃ less, fuel = less + 1 := ⟨fuel - 1,by simp at enough; omega⟩
    have rest := ih fuel (forall_mem_cons.mp plain).2 (by simpa using enough)
    obtain ⟨taken,dropped⟩ := Runs.until_first (plain piece (by simp)) (terminated pieces)
    rw [terminated_cons,printCopy.eq_def]
    split
    next same => simp at same
    next same _ => simp at same
    next less same _ =>
      obtain rfl : fuel = less := by simpa using same
      simp only [dropped,taken,rest,Option.map_some,flatten_cons]

theorem read_flat (inside : buf.tail < buf.size) (start : buf.head = 0) (nonempty : msgs ≠ [])
    (low : buf.data.get 0 buf.tail = terminated msgs) (plain : ∀ msg ∈ msgs, 0 ∉ msg) :
    logreadPlain buf = some msgs.flatten ∧ logreadReduced buf = some msgs.flatten := by
  have length : (terminated msgs).length = buf.tail := by rw [← low,get_length]
  have positive := terminated_ne_nil nonempty
  have count := length_le_terminated msgs
  have quiet : banner buf = [] := by simp only [banner,start]; rw [if_neg (by omega)]
  constructor
  · rw [logreadPlain,quiet,start,plainLoop_low inside msgs _ 0 (by rw [length,low]) (by omega) plain (by omega)]
    simp
  · have copy : logCopy buf 0 = terminated msgs := by simp [logCopy,low]
    rw [logreadReduced,quiet,start,copy]
    simp [printCopy_terminated msgs _ plain count]

theorem read_broken (inside : buf.tail < buf.size) (padded : buf.data buf.size = 0) (order : buf.tail < buf.head)
    (bound : buf.head ≤ buf.size) (lower : buf.data.get 0 buf.tail = terminated low)
    (upper : buf.data.get buf.head (buf.size - buf.head) = terminated high) (plainLow : ∀ piece ∈ low, 0 ∉ piece)
    (plainHigh : ∀ piece ∈ high, 0 ∉ piece) :
    logreadPlain buf = some (high ++ low).flatten ∧ logreadReduced buf = some (high ++ low).flatten := by
  have lowLength : (terminated low).length = buf.tail := by rw [← lower,get_length]
  have highLength : (terminated high).length = buf.size - buf.head := by rw [← upper,get_length]
  have lowCount := length_le_terminated low
  have highCount := length_le_terminated high
  have quiet : banner buf = [] := by rw [banner,if_neg (by omega)]
  have tailLoop : ∀ fuel, low.length < fuel → plainLoop buf fuel 0 = some low.flatten := fun fuel enough =>
    plainLoop_low inside low fuel 0 (by rw [lowLength,lower]) (by omega) plainLow enough
  constructor
  · by_cases none : high = []
    · -- `head` is behind the last byte: the padding there is an empty string.
      subst none
      rw [terminated_nil,length_nil] at highLength
      have ended : buf.head = buf.size := by omega
      have string : buf.data.cString buf.size (buf.size + 4) = some [] := by
        have found : buf.data.memchr buf.size 4 = some buf.size :=
          memchr_eq_some.mpr ⟨padded,⟨le_rfl,by omega⟩,fun i after before => absurd after (by omega)⟩
        rw [Memory.cString,Nat.add_sub_cancel_left,found]
        simp [Memory.get]
      rw [logreadPlain,quiet,ended,plainLoop_turn (by omega) string,if_pos (by simp),tailLoop (buf.size + 1) (by omega)]
      simp
    · have fuel : buf.size + 2 = high.length + (buf.size + 2 - high.length) := by omega
      rw [logreadPlain,quiet,fuel,plainLoop_high high none _ _ (by rw [highLength,upper]) (by omega) plainHigh order,
        tailLoop _ (by omega)]
      simp
  · have copy : logCopy buf buf.head = terminated (high ++ low) := by
      rw [logCopy,if_pos order,upper,lower,terminated_append]
    have plain : ∀ piece ∈ high ++ low, 0 ∉ piece := forall_mem_append.mpr ⟨plainHigh,plainLow⟩
    rw [logreadReduced,quiet,copy]
    simp only [printCopy_terminated _ _ plain (length_le_terminated _)]
    simp

theorem Invariant.read (invariant : Invariant buf msgs) (nonempty : msgs ≠ []) :
    ∃ live, live ≠ [] ∧ live <:+ msgs ∧ logreadPlain buf = some live.flatten ∧
      logreadReduced buf = some live.flatten := by
  obtain ⟨large,inside,padded,plain,shape⟩ := invariant
  cases shape with
  | flat start low => exact ⟨msgs,nonempty,suffix_refl _,read_flat inside start nonempty low plain⟩
  | broken high front fresh order bound low upper plainFront plainHigh spells =>
    have plainLow : ∀ piece ∈ front :: fresh, 0 ∉ piece := by
      exact forall_mem_cons.mpr ⟨plainFront,fun piece listed => plain piece (spells.fresh_suffix.subset listed)⟩
    have printed := read_broken inside padded order bound low upper plainLow plainHigh
    rcases spells with ⟨old,part,shape,suffix⟩ | ⟨gone,_,live,some,suffix,same⟩
    · refine ⟨_,by simp,suffix,?_⟩
      rw [shape] at printed
      simpa using printed
    · refine ⟨live,some,suffix,?_⟩
      rw [gone,nil_append,← same] at printed
      exact printed

/-- All copies stay inside the buffer, and both readers print the last messages, whole and in order, after
every run of harmless steps. The byte behind the buffer is the padding of a new segment. -/
theorem circular_log_shown (size : Nat) (large : 4080 ≤ size) (segment : Memory) (padded : segment size = 0)
    (msgs : List Message) (nonempty : msgs ≠ []) :
    WritesInside (ipcsyslogInit size segment) msgs ∧
    (HarmlessRun (ipcsyslogInit size segment) msgs →
      ∃ live, live ≠ [] ∧ live <:+ msgs ∧ Shows (circMessages (ipcsyslogInit size segment) msgs) live) := by
  have invariant := invariant_init large padded
  refine ⟨writesInside_run msgs _ invariant.large invariant.inside,fun harmless => ?_⟩
  obtain ⟨live,some,suffix,plain,reduced⟩ := (invariant.run msgs harmless).read (by simpa using nonempty)
  rw [nil_append] at suffix
  have shape := suffix_iff_eq_drop.mp suffix
  rw [← map_drop] at shape
  generalize (msgs.map Message.bytes).length - live.length = count at shape
  subst shape
  exact ⟨msgs.drop count,fun none => some (by rw [none,map_nil]),drop_suffix count msgs,plain,reduced⟩

def filler (count : Nat) (some : 0 < count) (short : count ≤ 1022) : Message where
  bytes := List.replicate count 120
  nonempty := by simp; omega
  short := by simpa using short
  plain := by simp

theorem filler_length (some : 0 < count) (short : count ≤ 1022) :
    (filler count some short).bytes.length = count := length_replicate

/-- The sixth of these is broken up, and the seventh one moves the head of the buffer. -/
def eightMessages : List Message :=
  [filler 12 (by decide) (by decide),filler 20 (by decide) (by decide),filler 1022 (by decide) (by decide),
    filler 1022 (by decide) (by decide),filler 1022 (by decide) (by decide),filler 987 (by decide) (by decide),
    filler 5 (by decide) (by decide),filler 10 (by decide) (by decide)]

theorem circular_log_shown_eight : WritesInside (ipcsyslogInit 4080 fun _ => 0) eightMessages ∧
    ∃ live, live ≠ [] ∧ live <:+ eightMessages ∧
      Shows (circMessages (ipcsyslogInit 4080 fun _ => 0) eightMessages) live := by
  have shown := circular_log_shown 4080 (by decide) (fun _ => 0) rfl eightMessages (by decide)
  exact ⟨shown.1,shown.2 (by decide +kernel)⟩

/-- The last of these ends, behind the start of the buffer, where the first one ended. -/
def fiveMessages : List Message :=
  [filler 12 (by decide) (by decide),filler 1022 (by decide) (by decide),filler 1022 (by decide) (by decide),
    filler 1022 (by decide) (by decide),filler 1009 (by decide) (by decide)]

theorem last_le_flatMap {live msgs : List Message} (some : live ≠ []) (suffix : live <:+ msgs)
    (ends : msgs.getLast? = Option.some last) : last.bytes.length ≤ (live.flatMap Message.bytes).length := by
  obtain ⟨before,rfl⟩ := suffix
  rw [getLast?_append_of_ne_nil _ some] at ends
  have member : last ∈ live := mem_of_getLast? ends
  exact (sublist_flatten_of_mem (mem_map_of_mem member)).length_le

/-- The start meets the end, and nothing is left of the five messages. -/
theorem five_messages_vanish :
    logreadPlain (circMessages (ipcsyslogInit 4080 fun _ => 0) fiveMessages) = some (text "<empty syslog>\n") ∧
    ¬ ∃ live, live ≠ [] ∧ live <:+ fiveMessages ∧
      Shows (circMessages (ipcsyslogInit 4080 fun _ => 0) fiveMessages) live := by
  have printed : logreadPlain (circMessages (ipcsyslogInit 4080 fun _ => 0) fiveMessages)
      = some (text "<empty syslog>\n") := by decide +kernel
  refine ⟨printed,?_⟩
  rintro ⟨live,some,suffix,plain,_⟩
  rw [printed] at plain
  have long : (filler 1009 (by decide) (by decide)).bytes.length ≤ (live.flatMap Message.bytes).length :=
    last_le_flatMap some suffix rfl
  rw [← Option.some.inj plain,filler_length] at long
  exact absurd long (by decide)

end Stablebox.Syslogd
