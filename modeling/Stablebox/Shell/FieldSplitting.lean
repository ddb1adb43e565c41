import Stablebox.Shell.ExpandParams

/-! Field splitting: what `ifsbreakup` makes of the result of one unquoted expansion with literal
text around it. -/
namespace Stablebox.Ash.Expand

open List

section Fields

variable (ifs : List UInt8)

def white (c : UInt8) : Bool := ifs.contains c && defifs.contains c

/-- What follows the delimiter that begins with `c`: white space around at most one other byte of `IFS`. -/
def behind (c : UInt8) (r : List UInt8) : List UInt8 :=
  if white ifs c then
    match r.dropWhile (white ifs) with
    | [] => []
    | d :: r => if ifs.contains d then r.dropWhile (white ifs) else d :: r
  else r.dropWhile (white ifs)

theorem behind_suffix (c : UInt8) (r : List UInt8) : behind ifs c r <:+ r := by
  have white := dropWhile_suffix (l := r) (white ifs)
  unfold behind
  split
  · split
    · exact nil_suffix
    rename_i d rest shape
    rw [shape] at white
    split
    · exact (dropWhile_suffix _).trans ((suffix_cons d rest).trans white)
    · exact white
  · exact white

def fields : List UInt8 → List (List UInt8)
  | [] => [[]]
  | c :: r =>
    if ifs.contains c then [] :: fields (behind ifs c r)
    else (fields r).modifyHead (c :: ·)
termination_by r => r.length
decreasing_by
  · exact Nat.lt_succ_of_le (behind_suffix ifs c r).length_le
  · exact Nat.lt_succ_self _

/-- The fields of a word: white space at the start counts only behind a literal text, and an empty text
at the end is no field. -/
def splitFields (pre value post : List UInt8) (table : Syntax) : List (List UInt8) :=
  let value := if pre = [] then value.dropWhile (white ifs) else value
  let pieces := surround pre post ((fields ifs value).map (memtodest · table true))
  if pieces.getLast? = some [] then pieces.dropLast else pieces

theorem fields_ne_nil (r : List UInt8) : fields ifs r ≠ [] := by
  fun_induction fields ifs r with
  | case1 => simp
  | case2 c r delimiter ih => simp
  | case3 c r plain ih => simpa using ih

end Fields

/-! ### The text in memory -/

section Memory

variable {mem post r : List UInt8} {table : Syntax} {endoff p : Nat}

theorem memtodest_append (a b : List UInt8) :
    memtodest (a ++ b) table true = memtodest a table true ++ memtodest b table true :=
  flatMap_append

theorem memtodest_cons (c : UInt8) (r : List UInt8) :
    memtodest (c :: r) table true = memtodest [c] table true ++ memtodest r table true :=
  memtodest_append [c] r

theorem special_ctlEsc (table : Syntax) : special ctlEsc table = true := by
  cases table <;> decide

theorem plain_cons (plain : 0 ∉ c :: r) : c ≠ 0 ∧ 0 ∉ r :=
  ⟨fun zero => plain (zero ▸ (.head _)),fun zero => plain (.tail _ zero)⟩

theorem enough_cons (enough : (c :: r).length ≤ fuel) : ∃ more, fuel = more + 1 ∧ r.length ≤ more :=
  ⟨fuel - 1,by simp at enough; omega,by simp at enough; omega⟩

structure At (table : Syntax) (mem post : List UInt8) (endoff : Nat) (r : List UInt8) (p : Nat) : Prop where
  here : mem.drop p = memtodest r table true ++ post
  stop : p + (memtodest r table true).length = endoff
  bound : endoff ≤ mem.length

theorem At.unit (at_p : At table mem post endoff (c :: r) p) (nonzero : c ≠ 0) :
    byteAt mem (skipEsc mem p) = c ∧ skipEsc mem p + 1 = p + (memtodest [c] table true).length := by
  have here := at_p.here
  rw [memtodest_cons,append_assoc] at here
  cases escaped : special c table with
  | true =>
    have unit : memtodest [c] table true = [ctlEsc,c] := by simp [memtodest,nonzero,escaped]
    rw [unit] at here ⊢
    have skip : skipEsc mem p = p + 1 := by simp [skipEsc,byteAt_of_drop here]
    rw [skip]
    exact ⟨byteAt_of_drop (drop_next here),rfl⟩
  | false =>
    have unit : memtodest [c] table true = [c] := by simp [memtodest,nonzero,escaped]
    have other : c ≠ ctlEsc := by
      rintro rfl
      simp [special_ctlEsc] at escaped
    rw [unit] at here ⊢
    have skip : skipEsc mem p = p := by simp [skipEsc,byteAt_of_drop here,other]
    rw [skip]
    exact ⟨byteAt_of_drop here,rfl⟩

theorem At.suffix (at_p : At table mem post endoff r p) (suffix : rest <:+ r)
    (stop : q + (memtodest rest table true).length = endoff) : At table mem post endoff rest q ∧ p ≤ q := by
  obtain ⟨done,rfl⟩ := suffix
  have length := at_p.stop
  rw [memtodest_append,length_append] at length
  have place : q = p + (memtodest done table true).length := by omega
  refine ⟨⟨?_,stop,at_p.bound⟩,by omega⟩
  rw [place,← drop_drop,at_p.here,memtodest_append,append_assoc,drop_left]

theorem At.next (at_p : At table mem post endoff (c :: r) p) (nonzero : c ≠ 0) :
    At table mem post endoff r (skipEsc mem p + 1) := by
  refine (at_p.suffix (suffix_cons c r) ?_).1
  rw [(at_p.unit nonzero).2,← at_p.stop,memtodest_cons c r,length_append,add_assoc]

theorem At.inside (at_p : At table mem post endoff (c :: r) p) (nonzero : c ≠ 0) : p < endoff := by
  have next := (at_p.next nonzero).stop
  have long : p ≤ skipEsc mem p := by unfold skipEsc; split <;> omega
  omega

theorem strchr_eq (nonzero : c ≠ 0) (s : List UInt8) : strchr s c = s.contains c := by
  simp [strchr,nonzero]

/-- Behind white space one other byte of `IFS` belongs to the delimiter; behind other bytes only white space is
skipped. -/
theorem skipDelimiter_behind (at_p : At table mem post endoff r p)
    (plain : 0 ∉ r) (enough : r.length ≤ fuel) :
    (skipDelimiter mem ifs endoff fuel p (white ifs c)).1 + (memtodest (behind ifs c r) table true).length =
      endoff := by
  unfold behind
  generalize white ifs c = ifsspc
  induction r generalizing p fuel ifsspc with
  | nil =>
    have done : p ≥ endoff := le_of_eq at_p.stop.symm
    cases fuel <;> cases ifsspc <;> simpa [skipDelimiter,done] using at_p.stop
  | cons d r ih =>
    obtain ⟨fuel,rfl,few⟩ := enough_cons enough
    obtain ⟨nonzero,others⟩ := plain_cons plain
    have inside := at_p.inside nonzero
    rw [skipDelimiter,if_neg (by omega),(at_p.unit nonzero).1]
    simp only [strchr_eq nonzero,dropWhile_cons]
    by_cases delimiter : d ∈ ifs
    · by_cases space : d ∈ defifs
      · simpa [white,delimiter,space] using ih (at_p.next nonzero) others few ifsspc
      · cases ifsspc with
        | false => simpa [white,delimiter,space] using at_p.stop
        | true => simpa [white,delimiter,space] using ih (at_p.next nonzero) others few false
    · cases ifsspc <;> simpa [white,delimiter] using at_p.stop

/-! ### The loop over a region -/

theorem At.of_shape (shape : mem = before ++ (memtodest r table true ++ post))
    (stop : before.length + (memtodest r table true).length = endoff) : At table mem post endoff r before.length := by
  refine ⟨by rw [shape,drop_left],stop,?_⟩
  simp only [shape,length_append]
  omega

theorem At.set (at_q : At table mem post endoff r q) (before : p < q) : At table (mem.set p 0) post endoff r q :=
  ⟨by rw [drop_set_of_lt before,at_q.here],at_q.stop,by simpa using at_q.bound⟩

theorem At.split (at_p : At table mem post endoff r p) :
    ∃ before, mem = before ++ (memtodest r table true ++ post) ∧ before.length = p := by
  have stop := at_p.stop
  have bound := at_p.bound
  refine ⟨mem.take p,?_,?_⟩
  · rw [← at_p.here,take_append_drop]
  · rw [length_take]
    omega

theorem prefix_set (sub : before <+: mem) (inside : before.length < mem.length) :
    before ++ [0] <+: mem.set before.length 0 := by
  obtain ⟨rest,rfl⟩ := sub
  cases rest with
  | nil => simp at inside
  | cons c rest => exact ⟨rest,by simp⟩

variable {starts : List Nat}

theorem scanRegion_step (at_p : At table mem post region.endoff (c :: r) p) (nonzero : c ≠ 0)
    (cut : region.nulonly = false) (fuel : Nat) : scanRegion ifs region (fuel + 1) ⟨mem,p,start,spc,starts⟩ =
      let next := skipEsc mem p + 1
      if ifs.contains c then
        if p = start ∧ white ifs c then scanRegion ifs region fuel ⟨mem,next,next,true,starts⟩
        else
          let behind := skipDelimiter (mem.set p 0) ifs region.endoff (region.endoff - next) next (white ifs c)
          scanRegion ifs region fuel ⟨mem.set p 0,behind.1,behind.1,behind.2,starts ++ [start]⟩
      else scanRegion ifs region fuel ⟨mem,next,start,spc,starts⟩ := by
  have inside : ¬ p ≥ region.endoff := Nat.not_le_of_lt (at_p.inside nonzero)
  rw [scanRegion,if_neg inside]
  simp only [(at_p.unit nonzero).1,strchr_eq nonzero,cut]
  by_cases delimiter : c ∈ ifs
  · by_cases space : c ∈ defifs <;> simp [white,delimiter,space]
  · simp [delimiter]

theorem length_le_memtodest (plain : 0 ∉ r) : r.length ≤ (memtodest r table true).length := by
  induction r with
  | nil => exact le_refl 0
  | cons c r ih =>
    obtain ⟨nonzero,others⟩ := plain_cons plain
    have rest := ih others
    have unit : 1 ≤ (memtodest [c] table true).length := by
      cases escaped : special c table <;> simp [memtodest,nonzero,escaped]
    rw [memtodest_cons,length_append,length_cons]
    omega

theorem scanRegion_cut (at_p : At table mem post region.endoff (c :: r) p) (plain : 0 ∉ c :: r)
    (cut : region.nulonly = false) (delimiter : ifs.contains c = true) (first : ¬ (p = start ∧ white ifs c = true))
    (fuel : Nat) : ∃ q next, scanRegion ifs region (fuel + 1) ⟨mem,p,start,spc,starts⟩ =
        scanRegion ifs region fuel ⟨mem.set p 0,q,q,next,starts ++ [start]⟩ ∧
      At table (mem.set p 0) post region.endoff (behind ifs c r) q ∧ p < q := by
  obtain ⟨nonzero,others⟩ := plain_cons plain
  have later : p < skipEsc mem p + 1 := by
    unfold skipEsc
    split <;> omega
  have at_next := (at_p.next nonzero).set later
  have few : r.length ≤ region.endoff - (skipEsc mem p + 1) := by
    have long : r.length ≤ (memtodest r table true).length := length_le_memtodest others
    have stop := at_next.stop
    omega
  obtain ⟨at_behind,le⟩ := at_next.suffix (behind_suffix ifs c r) (skipDelimiter_behind at_next others few)
  have step : scanRegion ifs region (fuel + 1) ⟨mem,p,start,spc,starts⟩ = _ := scanRegion_step at_p nonzero cut fuel
  simp only [delimiter,if_true,first,if_false] at step
  exact ⟨_,_,step,at_behind,lt_of_lt_of_le later le⟩

/-- The texts that a run of the loop has cut off, and the last one. -/
def Pieces (before post : List UInt8) (starts : List Nat) (pieces : List (List UInt8)) (s : Split) : Prop :=
  ∃ done last new, s.mem = done ++ (last ++ post) ∧ s.start = done.length ∧ s.starts = starts ++ new ∧
    before <+: done ∧ 0 ∉ last ∧ new.map (stringAt s.mem) ++ [last ++ post] = pieces

theorem dropWhile_head : ∀ d ∈ (r.dropWhile (white ifs)).head?, white ifs d = false := by
  intro d found
  simpa [Option.mem_def.mp found] using head?_dropWhile_not (white ifs) r

theorem behind_head : ∀ d ∈ (behind ifs c r).head?, white ifs d = false := by
  unfold behind
  split
  · split
    · simp
    rename_i d rest shape
    split
    · exact dropWhile_head
    · rw [← shape]
      exact dropWhile_head
  · exact dropWhile_head

theorem surround_cut {α : Type} (lead post : List α) {pieces : List (List α)} (some : pieces ≠ []) :
    surround lead post ([] :: pieces) = lead :: surround [] post pieces := by
  cases pieces with
  | nil => exact absurd rfl some
  | cons a rest => simp [surround]

theorem surround_head {α : Type} (lead unit post a : List α) (rest : List (List α)) :
    surround (lead ++ unit) post (a :: rest) = surround lead post ((unit ++ a) :: rest) := by
  cases rest <;> simp [surround]

theorem Pieces.cut (rest : Pieces behindIt post (starts ++ [before.length]) (surround [] post pieces) s)
    (some : pieces ≠ []) (leadPlain : 0 ∉ lead) (marked : before ++ (lead ++ [0]) <+: behindIt) :
    Pieces before post starts (surround lead post ([] :: pieces)) s := by
  obtain ⟨done,last,new,memory,start,more,sub,lastPlain,texts⟩ := rest
  obtain ⟨tail,rfl⟩ := marked.trans sub
  have here : s.mem.drop before.length = lead ++ 0 :: (tail ++ (last ++ post)) := by simp [memory]
  have text : stringAt s.mem before.length = lead := stringAt_of_drop leadPlain here rfl
  refine ⟨_,last,before.length :: new,memory,start,by simp [more],⟨_,(append_assoc ..).symm⟩,lastPlain,?_⟩
  rw [surround_cut lead post some,← texts,map_cons,text]
  rfl

theorem scanRegion_fields (cut : region.nulonly = false) (plain : 0 ∉ r) (leadPlain : 0 ∉ lead)
    (started : lead = [] → ∀ c ∈ r.head?, white ifs c = false)
    (shape : mem = before ++ (lead ++ (memtodest r table true ++ post)))
    (stop : before.length + lead.length + (memtodest r table true).length = region.endoff) (enough : r.length ≤ fuel) :
    Pieces before post starts (surround lead post ((fields ifs r).map (memtodest · table true)))
      (scanRegion ifs region fuel ⟨mem,before.length + lead.length,before.length,spc,starts⟩) := by
  have at_p : At table mem post region.endoff r (before ++ lead).length :=
    .of_shape (by rw [shape,append_assoc]) (by rw [length_append,stop])
  rw [length_append] at at_p
  fun_induction fields ifs r generalizing mem before lead fuel spc starts with
  | case1 =>
    rw [scanRegion_end _ _ (le_of_eq at_p.stop.symm)]
    exact ⟨before,lead,[],shape,rfl,(append_nil _).symm,prefix_rfl,leadPlain,by simp [surround,memtodest]⟩
  | case2 c r delimiter ih =>
    obtain ⟨fuel,rfl,few⟩ := enough_cons enough
    obtain ⟨nonzero,others⟩ := plain_cons plain
    have first : ¬ (before.length + lead.length = before.length ∧ white ifs c = true) := by
      rintro ⟨same,space⟩
      have notSpace := started (length_eq_zero_iff.mp (by omega)) c rfl
      simp [notSpace] at space
    obtain ⟨q,spc,step,at_q,later⟩ := scanRegion_cut at_p plain cut delimiter first fuel
    have marked : before ++ lead ++ [0] <+: mem.set (before.length + lead.length) 0 := by
      rw [← length_append] at later ⊢
      refine prefix_set ⟨_,by rw [shape,append_assoc]⟩ (lt_of_lt_of_le ?_ at_p.bound)
      rw [length_append]
      exact at_p.inside nonzero
    obtain ⟨behindIt,whole,rfl⟩ := at_q.split
    have kept : before ++ lead ++ [0] <+: behindIt := prefix_of_prefix_length_le marked ⟨_,whole.symm⟩ (by simp; omega)
    have rest : 0 ∉ behind ifs c r := fun zero => others ((behind_suffix ifs c r).subset zero)
    have shorter := le_trans (behind_suffix ifs c r).length_le few
    rw [step]
    exact Pieces.cut (ih rest not_mem_nil (fun _ => behind_head) whole at_q.stop shorter at_q)
      (by simpa using fields_ne_nil ifs (behind ifs c r)) leadPlain (append_assoc before lead [0] ▸ kept)
  | case3 c r ordinary ih =>
    obtain ⟨fuel,rfl,few⟩ := enough_cons enough
    obtain ⟨nonzero,others⟩ := plain_cons plain
    have unit : memtodest [c] table true ≠ [] ∧ 0 ∉ memtodest [c] table true := by
      cases escaped : special c table <;> simp [memtodest,nonzero,nonzero.symm,escaped,ctlEsc]
    have at_next := at_p.next nonzero
    obtain ⟨field,rest,found⟩ := exists_cons_of_ne_nil (fields_ne_nil ifs r)
    rw [memtodest_cons] at shape stop
    rw [(scanRegion_step at_p nonzero cut fuel).trans (if_neg ordinary)]
    rw [(at_p.unit nonzero).2,add_assoc,← length_append] at at_next ⊢
    have head : surround lead post (((fields ifs r).modifyHead (c :: ·)).map (memtodest · table true)) =
        surround (lead ++ memtodest [c] table true) post ((fields ifs r).map (memtodest · table true)) := by
      rw [found,map_cons,surround_head,← memtodest_cons]
      rfl
    rw [head]
    exact ih others (by simp [leadPlain,unit.2]) (fun none => absurd none (by simp [unit.1])) (by simp [shape])
      (by simp at stop ⊢; omega) few at_next

theorem scanRegion_white (cut : region.nulonly = false) (at_p : At table mem post region.endoff r p)
    (plain : 0 ∉ r) (enough : r.length ≤ fuel) :
    ∃ q more next, scanRegion ifs region fuel ⟨mem,p,p,spc,starts⟩ = scanRegion ifs region more ⟨mem,q,q,next,starts⟩ ∧
      At table mem post region.endoff (r.dropWhile (white ifs)) q ∧ (r.dropWhile (white ifs)).length ≤ more := by
  induction r generalizing p fuel spc with
  | nil => exact ⟨p,fuel,spc,rfl,at_p,enough⟩
  | cons c r ih =>
    obtain ⟨fuel,rfl,few⟩ := enough_cons enough
    obtain ⟨nonzero,others⟩ := plain_cons plain
    cases space : white ifs c with
    | false =>
      rw [dropWhile_cons_of_neg (by simp [space])]
      exact ⟨p,fuel + 1,spc,rfl,at_p,enough⟩
    | true =>
      have delimiter : ifs.contains c = true := (Bool.and_eq_true_iff.mp space).1
      rw [dropWhile_cons_of_pos space,scanRegion_step at_p nonzero cut]
      simp only [delimiter,space,and_self,if_true]
      exact ih (at_p.next nonzero) others few

end Memory

theorem Pieces.texts (cut : Pieces before post [] pieces s) (postPlain : 0 ∉ post) :
    (if byteAt s.mem s.start = 0 then s.starts else s.starts ++ [s.start]).map (stringAt s.mem) =
      if pieces.getLast? = some [] then pieces.dropLast else pieces := by
  obtain ⟨done,last,new,memory,start,more,sub,lastPlain,rfl⟩ := cut
  have here : s.mem.drop s.start = last ++ post := by rw [memory,start,drop_left]
  have plain : 0 ∉ last ++ post := by simp [lastPlain,postPlain]
  have text : stringAt s.mem s.start = last ++ post := stringAt_of_drop plain (here.trans (append_nil _).symm) rfl
  have first : byteAt s.mem s.start = 0 ↔ last ++ post = [] := by
    cases shape : last ++ post with
    | nil =>
      have outside := drop_eq_nil_iff.mp (here.trans shape)
      simp [byteAt,getD_eq_getElem?_getD,getElem?_eq_none outside]
    | cons c rest =>
      rw [byteAt_of_drop (here.trans shape)]
      simpa using fun zero => plain (by simp [shape,zero])
  rw [getLast?_concat,dropLast_concat,more,nil_append]
  by_cases none : last ++ post = []
  · rw [if_pos (first.mpr none),if_pos (by rw [none])]
  · rw [if_neg (mt first.mp none),if_neg (by simpa using none),map_append,map_singleton,text]

theorem scanRegion_word (ifs : List UInt8) {mem pre value post : List UInt8} (cut : region.nulonly = false)
    (prePlain : 0 ∉ pre) (plain : 0 ∉ value) (shape : mem = pre ++ (memtodest value table true ++ post))
    (stop : pre.length + (memtodest value table true).length = region.endoff) :
    Pieces [] post []
      (surround pre post
        ((fields ifs (if pre = [] then value.dropWhile (white ifs) else value)).map (memtodest · table true)))
      (scanRegion ifs region (memtodest value table true).length ⟨mem,pre.length,0,false,[]⟩) := by
  have enough : value.length ≤ (memtodest value table true).length := length_le_memtodest plain
  by_cases none : pre = []
  · subst none
    obtain ⟨q,more,spc,step,at_q,few⟩ : ∃ q more next, scanRegion ifs region _ ⟨mem,0,0,false,[]⟩ =
        scanRegion ifs region more ⟨mem,q,q,next,[]⟩ ∧ _ ∧ _ :=
      scanRegion_white cut (At.of_shape shape stop) plain enough
    obtain ⟨before,whole,rfl⟩ := at_q.split
    have rest : 0 ∉ value.dropWhile (white ifs) := fun zero => plain ((dropWhile_suffix _).subset zero)
    obtain ⟨done,last,new,memory,start,starts,_,texts⟩ : Pieces before post [] _ (scanRegion ifs region more _) :=
      scanRegion_fields cut rest not_mem_nil (fun _ => dropWhile_head) whole at_q.stop few
    rw [length_nil,step,if_pos rfl]
    exact ⟨done,last,new,memory,start,starts,List.nil_prefix,texts⟩
  · rw [if_neg none]
    have pieces : Pieces [] post [] _ (scanRegion ifs region _ ⟨mem,_,_,false,_⟩) :=
      scanRegion_fields cut plain prePlain (fun never => absurd never none) shape (by simpa using stop) enough
    rwa [length_nil,zero_add] at pieces

/-- The fields of a word with one unquoted expansion. -/
theorem ifsbreakup_fields (sh : Shell) (pre value post : CString) (table : Syntax) :
    let dest := ((⟨pre.bytes,[]⟩ : Dest).put (memtodest value.bytes table true))
    ifsbreakup sh (dest.put post.bytes).bytes (dest.recordregion pre.bytes.length dest.bytes.length false).regions =
      splitFields (sh.ifs.elim defifs CString.bytes) pre.bytes value.bytes post.bytes table := by
  simp only [ifsbreakup,Dest.recordregion,Dest.put,nil_append,List.foldl,breakRegion,getLast?_singleton,
    Bool.not_false,Bool.true_and,beq_iff_eq,length_append,Nat.add_sub_cancel_left]
  cases sh.ifs <;>
    exact (scanRegion_word _ rfl pre.plain value.plain (append_assoc ..) rfl).texts post.plain

end Stablebox.Ash.Expand
