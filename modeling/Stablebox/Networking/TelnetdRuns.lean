import Stablebox.Networking.TelnetdStream

/-! Runs of a `telnetd` session. The circular buffer is a queue of bytes: a write to the pty
replaces its first part by what the filter leaves of it, and a read adds to its end. From
that follow what the terminal gets and that sequences leave the buffer. -/
namespace Stablebox.Telnetd

open List Memory Nat

variable {ts : Session} {link : Link}

/-! ### The buffer as a queue -/

structure Wf (ts : Session) : Prop where
  start : ts.wridx1 < bufSize
  room : ts.size1 ≤ bufSize
  next : ts.rdidx1 = (ts.wridx1 + ts.size1) % bufSize

def Session.rest (ts : Session) : List UInt8 := ts.content.drop ts.part.length

theorem content_length (ts : Session) : ts.content.length = ts.size1 := around_length _ _ _ _

theorem part_length (ts : Session) : ts.part.length = min (bufSize - ts.wridx1) ts.size1 := get_length _ _ _

theorem content_eq (wf : Wf ts) : ts.content = ts.part ++ ts.rest := by
  have start := wf.start
  have bound : min (bufSize - ts.wridx1) ts.size1 ≤ ts.size1 := by omega
  rw [Session.rest,part_length,Session.content,← around_drop bound]
  exact around_split bound (by omega)

theorem removeIacs_content (wf : Wf ts) :
    (removeIacs ts).1.content = (scan ts.part).1 ++ (scan ts.part).2 ++ ts.rest := by
  have start := wf.start
  have room := wf.room
  obtain ⟨suffix,_,lengths⟩ := scan_leaves ts.part
  have length := part_length ts
  generalize shape : scan ts.part = result at suffix lengths
  obtain ⟨totty,left⟩ := result
  simp only at suffix lengths
  have left_eq := suffix_iff_eq_drop.mp suffix
  simp only [removeIacs,shape,Session.content]
  -- The packed bytes end where the filter stopped.
  have gone : ts.wridx1 + (ts.part.length - left.length - totty.length) + totty.length
      = ts.wridx1 + (ts.part.length - left.length) := by omega
  rw [around_split (n := totty.length) (by omega) (by omega),get_put_same,gone,
    around_put_behind (by omega) (by omega) (by omega),around_put_behind (by omega) (by omega) (by omega)]
  rw [show ts.size1 - (ts.part.length - left.length - totty.length) - totty.length
      = ts.size1 - (ts.part.length - left.length) by omega,around_drop (by omega)]
  have whole := content_eq wf
  rw [Session.content] at whole
  rw [whole,drop_append_of_le_length (by omega),← left_eq,append_assoc]

theorem removeIacs_size (wf : Wf ts) : (removeIacs ts).1.wridx1 + (removeIacs ts).1.size1 = ts.wridx1 + ts.size1 ∧
    (removeIacs ts).1.wridx1 + (scan ts.part).1.length ≤ bufSize ∧
    (scan ts.part).1.length ≤ (removeIacs ts).1.size1 ∧ (removeIacs ts).1.size1 ≤ ts.size1 := by
  have start := wf.start
  have length := part_length ts
  obtain ⟨_,_,lengths⟩ := scan_leaves ts.part
  simp only [removeIacs]
  omega

theorem writePty_spec (wf : Wf ts) (w : Nat) :
    (writePty w ts).2 = (scan ts.part).1.take w ∧
    (writePty w ts).1.content = (scan ts.part).1.drop w ++ (scan ts.part).2 ++ ts.rest ∧
    Wf (writePty w ts).1 ∧
    ((writePty w ts).1.wridx1 = 0 ∨ (writePty w ts).1.wridx1 + ((scan ts.part).1.drop w).length
      + (scan ts.part).2.length = ts.wridx1 + ts.part.length) := by
  have content := removeIacs_content wf
  have length := part_length ts
  obtain ⟨sum,place,enough,less⟩ := removeIacs_size wf
  have room := wf.room
  by_cases empty : ts.size1 = 0
  · have nothing : ts.part = [] := eq_nil_of_length_eq_zero (by omega)
    have whole := content_eq wf
    simp [writePty,empty,nothing,scan,whole,wf]
  · have same : writePty w ts = ({ (removeIacs ts).1 with
        wridx1 := if (removeIacs ts).1.wridx1 + min w (scan ts.part).1.length = bufSize then 0
          else (removeIacs ts).1.wridx1 + min w (scan ts.part).1.length
        size1 := (removeIacs ts).1.size1 - min w (scan ts.part).1.length },
        (scan ts.part).1.take (min w (scan ts.part).1.length)) := by
      simp only [writePty,empty,if_false]
      rfl
    generalize taken : min w (scan ts.part).1.length = k at same
    have takes : (scan ts.part).1.take w = (scan ts.part).1.take k := by
      rw [← taken,take_eq_take_iff]
      omega
    have drops : (scan ts.part).1.drop w = (scan ts.part).1.drop k := by
      rw [← taken]
      rcases le_total w (scan ts.part).1.length with less | more
      · rw [min_eq_left less]
      · rw [min_eq_right more,drop_of_length_le more,drop_length]
    have moved : (removeIacs ts).1.buf1.around bufSize ((removeIacs ts).1.wridx1 + k) ((removeIacs ts).1.size1 - k)
        = (scan ts.part).1.drop k ++ (scan ts.part).2 ++ ts.rest := by
      rw [around_drop (by omega),← Session.content,content,append_assoc,
        drop_append_of_le_length (by omega),append_assoc]
    have stopped : (removeIacs ts).1.wridx1 + (scan ts.part).1.length + (scan ts.part).2.length
        = ts.wridx1 + ts.part.length := by
      obtain ⟨_,_,lengths⟩ := scan_leaves ts.part
      simp only [removeIacs]
      omega
    rw [same,takes,drops]
    refine ⟨rfl,?_,?_,?_⟩
    · by_cases wraps : (removeIacs ts).1.wridx1 + k = bufSize
      · rw [wraps,around_end] at moved
        rw [if_pos wraps]
        exact moved
      · rw [if_neg wraps]
        exact moved
    · have next := wf.next
      have rdidx : (removeIacs ts).1.rdidx1 = ts.rdidx1 := rfl
      by_cases wraps : (removeIacs ts).1.wridx1 + k = bufSize
      · refine ⟨by simp only [wraps,if_true]; decide,by simp only; omega,?_⟩
        simp only [wraps,if_true,rdidx,next]
        rw [← sum,show (removeIacs ts).1.wridx1 + (removeIacs ts).1.size1
          = 0 + ((removeIacs ts).1.size1 - k) + bufSize by omega,add_mod_right]
      · refine ⟨by simp only [wraps,if_false]; omega,by simp only; omega,?_⟩
        simp only [wraps,if_false,rdidx,next]
        congr 1
        omega
    · by_cases wraps : (removeIacs ts).1.wridx1 + k = bufSize
      · exact .inl (if_pos wraps)
      refine .inr ?_
      simp only [wraps,if_false,length_drop]
      omega

theorem readSocket_spec (wf : Wf ts) (fits : bytes.length ≤ ts.maxlen) :
    (readSocket bytes ts).content = ts.content ++ bytes.take (arrived bytes) ∧ Wf (readSocket bytes ts) ∧
    (readSocket bytes ts).wridx1 = ts.wridx1 ∧ (readSocket bytes ts).size1 = ts.size1 + arrived bytes := by
  obtain ⟨start,room,next⟩ := wf
  have counted : arrived bytes ≤ bytes.length := by
    unfold arrived
    split <;> omega
  have inside : ts.rdidx1 < bufSize := next ▸ mod_lt _ (by decide)
  simp only [Session.maxlen] at fits
  have stored : (ts.buf1.put ts.rdidx1 bytes).around bufSize ts.wridx1 (ts.size1 + arrived bytes)
      = ts.content ++ bytes.take (arrived bytes) := by
    rw [next]
    exact around_put_next start counted (by omega) (by omega)
  by_cases none : arrived bytes = 0
  · rw [none] at stored
    simp only [readSocket,none,if_true]
    exact ⟨stored,⟨start,room,next⟩,trivial,rfl⟩
  · simp only [readSocket,none,if_false]
    refine ⟨stored,⟨start,by simp only; omega,?_⟩,trivial,trivial⟩
    rw [← add_assoc,← mod_add_mod,← next]
    split
    · rename_i wraps
      rw [wraps,mod_self]
    · rw [mod_eq_of_lt (by omega)]

theorem reset_spec (wf : Wf ts) : (reset ts).content = ts.content ∧ Wf (reset ts) ∧ (reset ts).size1 = ts.size1 := by
  unfold reset
  split
  · rename_i empty
    refine ⟨?_,⟨(by decide : 0 < bufSize),wf.room,?_⟩,rfl⟩
    · simp [Session.content,empty]
    · simp [empty]
  · exact ⟨rfl,wf,rfl⟩

/-! ### What the terminal gets -/

/-- What was written and what is still to come make up what the terminal is to get. -/
structure Invariant (sent : List Item) (link : Link) : Prop where
  wf : Wf link.session
  parses : ∃ items, link.pending = stream items ∧ Tidy items ∧ keyboard sent = link.output ++ keyboard items

theorem part_le_pending (wf : Wf link.session) :
    link.pending = link.session.part ++ (link.session.rest ++ link.incoming) := by
  rw [Link.pending,content_eq wf,append_assoc]

variable {items : List Item}

theorem part_cut (wf : Wf link.session) (parsed : link.pending = stream items) (harmless : Harmless link (.write w)) :
    ∃ done rest left, items = done ++ rest ∧ link.session.part = stream done ++ left ∧
      left ++ (link.session.rest ++ link.incoming) = stream rest ∧ scan left = ([],left) ∧
      (∀ byte, left.head? = some byte → byte = iac) ∧ Apart done rest := by
  have split := part_le_pending wf
  have bound : link.session.part.length ≤ (stream items).length := by
    rw [← parsed,split,length_append]
    omega
  obtain ⟨done,rest,left,shape,taken,begins,stops,marker⟩ := cut items _ bound
  rw [← parsed,split,take_left] at taken
  have behind : left ++ (link.session.rest ++ link.incoming) = stream rest := by
    have whole : stream done ++ (left ++ (link.session.rest ++ link.incoming)) = stream done ++ stream rest := by
      rw [← stream_append,← shape,← parsed,split,taken,append_assoc]
    exact append_cancel_left whole
  refine ⟨done,rest,left,shape,taken,behind,stops,marker,?_⟩
  rintro front cr partner back rfl rfl isCr isPartner
  have nothing : left = [] := by
    cases left with
    | nil => rfl
    | cons byte left =>
      obtain ⟨second,plain,_,rfl⟩ := Item.eq_partner isPartner
      exact absurd ((List.cons.inj behind).1.symm.trans (marker byte rfl)) plain
  refine harmless front cr partner back (by rw [parsed,shape]; simp) isCr isPartner ?_
  rw [taken,nothing,append_nil]

variable {sent : List Item}

theorem Invariant.write (invariant : Invariant sent link) (w : Nat)
    (harmless : Harmless link (.write w)) : Invariant sent (step link (.write w)) := by
  obtain ⟨wf,items,parsed,tidy,same⟩ := invariant
  obtain ⟨done,rest,left,shape,part,behind,stops,marker,apart⟩ := part_cut wf parsed harmless
  obtain ⟨written,content,wf',_⟩ := writePty_spec wf w
  have scanned : scan link.session.part = (stream (squeeze done),left) := by
    rw [part,scan_stream done left marker,stops,append_nil]
  rw [scanned] at written content
  rw [shape] at tidy same
  obtain ⟨settled,kept,_⟩ := squeeze_spec tidy apart
  -- The kept items are single bytes, so a write of `w` bytes takes `w` of them.
  have bytes : ∀ n, (stream (squeeze done)).drop n = stream ((squeeze done).drop n) ∧
      (stream (squeeze done)).take n = stream ((squeeze done).take n) :=
    stream_data settled.data
  refine ⟨wf',(squeeze done).drop w ++ rest,?_,(settled.drop w).tidy tidy.of_append,?_⟩
  · simp only [Link.pending,step]
    rw [content,(bytes w).1,stream_append,← behind]
    simp
  · simp only [step]
    rw [written,(bytes w).2,(settled.drop w).keyboard,same,kept,append_assoc,← append_assoc (stream _),
      ← stream_append,take_append_drop]

theorem chunk_fits (link : Link) (count : Nat) : (link.chunk count).length ≤ link.session.maxlen := by
  rw [Link.chunk,length_take]
  omega

theorem Invariant.read (invariant : Invariant sent link) (count : Nat)
    (harmless : Harmless link (.read count)) : Invariant sent (step link (.read count)) := by
  obtain ⟨wf,items,parsed,tidy,same⟩ := invariant
  obtain ⟨content,wf',_,_⟩ := readSocket_spec wf (chunk_fits link count)
  have incoming : link.incoming = link.chunk count ++ link.incoming.drop (min count link.session.maxlen) :=
    (take_append_drop _ _).symm
  by_cases ends : (link.chunk count).getLast? = some 0
  · obtain ⟨front,cr,partner,back,shape,isCr,isPartner,place⟩ := harmless ends
    have items_eq := stream_inj (parsed.symm.trans shape)
    subst items_eq
    obtain ⟨kept,tidy⟩ := keyboard_drop_partner isCr isPartner tidy
    refine ⟨wf',front ++ cr :: back,?_,tidy,same.trans (by rw [kept]; rfl)⟩
    have partnerLength : partner.bytes.length = 1 := by
      obtain ⟨_,_,_,rfl⟩ := Item.eq_partner isPartner
      rfl
    have whole : link.session.content ++ link.chunk count ++ link.incoming.drop (min count link.session.maxlen)
        = stream (front ++ [cr,partner]) ++ stream back := by
      rw [append_assoc,← incoming,← stream_append]
      simpa [Link.pending] using shape
    obtain ⟨first,last⟩ := append_inj whole (by rw [place,length_append,content_length])
    have nonempty : link.chunk count ≠ [] := by
      intro none
      rw [none] at ends
      simp at ends
    have positive := length_pos_iff.mpr nonempty
    have shorter : link.session.content ++ (link.chunk count).take ((link.chunk count).length - 1)
        = stream (front ++ [cr]) := by
      have place' : (stream (front ++ [cr])).length = link.session.size1 + ((link.chunk count).length - 1) := by
        have length := place
        rw [show front ++ [cr,partner] = front ++ [cr] ++ [partner] by simp,stream_append,length_append] at length
        simp only [stream_cons,stream_nil,append_nil,partnerLength] at length
        omega
      have whole : (link.session.content ++ link.chunk count).take
          (link.session.size1 + ((link.chunk count).length - 1))
          = link.session.content ++ (link.chunk count).take ((link.chunk count).length - 1) := by
        rw [take_append,content_length,take_of_length_le (by rw [content_length]; omega),Nat.add_sub_cancel_left]
      rw [← whole,first,← place',show front ++ [cr,partner] = front ++ [cr] ++ [partner] by simp,
        stream_append (front ++ [cr]) [partner],take_left]
    simp only [Link.pending,step]
    rw [content,arrived,if_pos ends,shorter,last,← stream_append]
    simp
  · refine ⟨wf',items,?_,tidy,same⟩
    simp only [Link.pending,step]
    rw [content,arrived,if_neg ends,take_length,append_assoc,← incoming]
    exact parsed

theorem Invariant.step (invariant : Invariant sent link) (s : Step) (harmless : Harmless link s) :
    Invariant sent (step link s) := by
  cases s with
  | write w => exact invariant.write w harmless
  | read count => exact invariant.read count harmless
  | reset =>
    obtain ⟨wf,items,parsed,tidy,same⟩ := invariant
    obtain ⟨content,wf',_⟩ := reset_spec wf
    refine ⟨wf',items,?_,tidy,same⟩
    simp only [Link.pending,Telnetd.step]
    rw [content]
    exact parsed

theorem Invariant.run (steps : List Step) (invariant : Invariant sent link)
    (harmless : HarmlessRun link steps) : Invariant sent (run link steps) := by
  induction steps generalizing link with
  | nil => exact invariant
  | cons s steps ih => exact ih (invariant.step s harmless.1) harmless.2

theorem invariant_begin (tidy : Tidy sent) : Invariant sent (begin (stream sent)) where
  wf := ⟨(by decide : 0 < bufSize),zero_le _,rfl⟩
  parses := ⟨sent,rfl,tidy,rfl⟩

/-! ### Sequences leave the buffer -/

/-- The buffer begins with whole items, none of them across its end. -/
structure Holds (ts : Session) (front : List Item) (back : List UInt8) : Prop where
  wf : Wf ts
  content : ts.content = stream front ++ back
  unbroken : Unbroken ts.wridx1 front

def AllData (items : List Item) : Prop := ∀ item ∈ items, item.isData = true

theorem unbroken_data (data : AllData items) (start : Nat) : Unbroken start items := by
  rintro front item back rfl inside
  have one : item.bytes.length = 1 := by
    obtain ⟨_,_,rfl⟩ := Item.eq_data (data item (by simp))
    rfl
  omega

theorem data_items (plain : iac ∉ bytes) : ∃ items, stream items = bytes ∧ AllData items := by
  induction bytes with
  | nil => exact ⟨[],rfl,by simp [AllData]⟩
  | cons byte bytes ih =>
    rw [mem_cons,not_or] at plain
    obtain ⟨items,same,data⟩ := ih plain.2
    exact ⟨.data byte (fun marker => plain.1 marker.symm) :: items,by simp [same,Item.bytes],
      forall_mem_cons.mpr ⟨rfl,data⟩⟩

theorem Unbroken.cut (unbroken : Unbroken start items) (inside : start ≤ bufSize)
    (reaches : bufSize ≤ start + (stream items).length) :
    ∃ before after, items = before ++ after ∧ start + (stream before).length = bufSize := by
  induction items generalizing start with
  | nil =>
    rw [stream_nil,length_nil] at reaches
    exact ⟨[],[],rfl,by simp; omega⟩
  | cons item items ih =>
    by_cases last : start = bufSize
    · exact ⟨[],item :: items,rfl,by simpa using last⟩
    have fits := unbroken [] item items rfl (by simp; omega)
    rw [stream_cons,length_append] at reaches
    have rest : Unbroken (start + item.bytes.length) items := by
      intro front next back shape here
      have placed := unbroken (item :: front) next back (by rw [shape,cons_append])
      rw [stream_cons,length_append,← add_assoc] at placed
      exact placed here
    obtain ⟨before,after,shape,ends⟩ := ih rest fits (by omega)
    refine ⟨item :: before,after,by rw [shape,cons_append],?_⟩
    rw [stream_cons,length_append]
    omega

variable {front : List Item} {back : List UInt8}

theorem Holds.write (holds : Holds ts front back) (w : Nat) :
    ∃ front' back', Holds (writePty w ts).1 front' back' ∧ back' <:+ back ∧ (AllData front → AllData front') ∧
      (AllData front' ∨ (stream front').length + (if w = 0 then 0 else 1) ≤ (stream front).length) := by
  obtain ⟨wf,content,unbroken⟩ := holds
  obtain ⟨_,content',wf',place⟩ := writePty_spec wf w
  obtain ⟨_,plain,lengths⟩ := scan_leaves ts.part
  have whole := (content_eq wf).symm.trans content
  have length := part_length ts
  have start := wf.start
  have size := content_length ts
  by_cases inside : (stream front).length ≤ ts.part.length
  · -- All of it is filtered now.
    obtain ⟨more,part⟩ : stream front <+: ts.part :=
      prefix_of_prefix_length_le (prefix_append _ back) (whole ▸ prefix_append ts.part ts.rest) inside
    rw [← part,append_assoc] at whole
    have back_eq := append_cancel_left whole
    obtain ⟨left,suffix,scanned⟩ := scan_items front more
    have rest : (scan ts.part).2 <:+ more := by
      rw [← part,scanned.1]
      exact (scan_leaves left).1.trans suffix
    obtain ⟨items,bytes,data⟩ := data_items fun marker => plain (mem_of_mem_drop marker)
    refine ⟨items,(scan ts.part).2 ++ ts.rest,⟨wf',?_,unbroken_data data _⟩,?_,fun _ => data,.inl data⟩
    · rw [content',bytes,append_assoc]
    · obtain ⟨gone,rfl⟩ := rest
      exact ⟨gone,by rw [← back_eq]; simp⟩
  · have total : (stream front).length ≤ ts.size1 := by
      rw [content,length_append] at size
      omega
    obtain ⟨before,after,rfl,ends⟩ := unbroken.cut (le_of_lt start) (by omega)
    rw [stream_append,append_assoc] at whole
    obtain ⟨part,rest⟩ := append_inj whole (by omega)
    have scanned : scan ts.part = (stream (squeeze before),[]) := by
      have whole := scan_stream before [] (by simp)
      rw [append_nil] at whole
      rw [part,whole,show scan [] = ([],[]) from rfl,append_nil]
    rw [scanned] at content' place lengths
    have data : AllData (squeeze before) := squeeze_data
    have bytes := stream_data data w
    have dropped : AllData ((squeeze before).drop w) := fun item listed => data item (mem_of_mem_drop listed)
    rw [bytes.1] at content' place
    refine ⟨(squeeze before).drop w ++ after,back,⟨wf',?_,?_⟩,suffix_refl _,?_,.inr ?_⟩
    · rw [content',rest]
      simp
    · rintro done item todo shape here
      have size' := content_length (writePty w ts).1
      have room' := wf'.room
      rw [content',rest] at size'
      rw [append_eq_append_iff] at shape
      rcases shape with ⟨middle,rfl,tail⟩ | ⟨middle,split,tail⟩
      · -- An item behind the end: the data in front of it reaches the end.
        rcases place with zero | reaches
        · rw [tail] at size'
          simp only [stream_append,stream_cons,length_append,length_nil] at size' here ⊢
          omega
        · simp only [stream_append,length_append,length_nil] at reaches here
          omega
      · cases middle with
        | nil =>
          rw [nil_append] at tail
          rw [append_nil] at split
          rcases place with zero | reaches
          · rw [← tail] at size'
            simp only [split,stream_cons,length_append,length_nil] at size' here ⊢
            omega
          · simp only [split,length_nil] at reaches here
            omega
        | cons first middle =>
          obtain ⟨rfl,_⟩ := tail
          exact unbroken_data dropped _ done item middle split here
    · exact fun all => forall_mem_append.mpr ⟨dropped,(forall_mem_append.mp all).2⟩
    · simp only [stream_append,length_append] at inside ⊢
      have fewer := congrArg List.length bytes.1
      rw [length_drop] at fewer
      simp only [length_nil] at lengths
      split <;> omega

theorem Holds.run (steps : List Step) (holds : Holds link.session front back) :
    ∃ front' back', Holds (run link steps).session front' back' ∧ back' <:+ back ++ stored link steps ∧
      (AllData front → AllData front') ∧
      (AllData front' ∨ (stream front').length + accepting steps ≤ (stream front).length) := by
  induction steps generalizing link front back with
  | nil => exact ⟨front,back,holds,by simp [stored],id,.inr (by simp [accepting])⟩
  | cons s steps ih =>
    cases s with
    | write w =>
      obtain ⟨front₁,back₁,holds₁,suffix₁,data₁,fewer₁⟩ := holds.write w
      have next : Holds (step link (.write w)).session front₁ back₁ := holds₁
      obtain ⟨front₂,back₂,holds₂,suffix₂,data₂,fewer₂⟩ := ih next
      refine ⟨front₂,back₂,holds₂,suffix₂.trans (suffix_append_self_iff.mpr suffix₁),data₂ ∘ data₁,?_⟩
      rcases fewer₁ with data | fewer₁
      · exact .inl (data₂ data)
      rcases fewer₂ with data | fewer₂
      · exact .inl data
      refine .inr ?_
      simp only [accepting]
      omega
    | read count =>
      obtain ⟨content,wf,place,_⟩ := readSocket_spec holds.wf (chunk_fits link count)
      have holds₁ : Holds (step link (.read count)).session front
          (back ++ (link.chunk count).take (arrived (link.chunk count))) := by
        refine ⟨wf,?_,?_⟩
        · simp only [step]
          rw [content,holds.content,append_assoc]
        · simp only [step]
          rw [place]
          exact holds.unbroken
      obtain ⟨front₂,back₂,holds₂,suffix₂,rest⟩ := ih holds₁
      rw [append_assoc] at suffix₂
      exact ⟨front₂,back₂,holds₂,suffix₂,rest⟩
    | reset =>
      have holds₁ : Holds (step link .reset).session front back := by
        obtain ⟨content,wf,_⟩ := reset_spec holds.wf
        refine ⟨wf,content.trans holds.content,?_⟩
        simp only [step,reset]
        split
        · rename_i empty
          have none : front = [] := by
            have size := content_length link.session
            rw [holds.content,empty,length_append] at size
            exact stream_eq_nil (eq_nil_of_length_eq_zero (show (stream front).length = 0 by omega))
          subst none
          exact unbroken_data (by simp [AllData]) _
        · exact holds.unbroken
      exact ih holds₁

theorem run_wf (steps : List Step) (wf : Wf link.session) : Wf (run link steps).session := by
  induction steps generalizing link with
  | nil => exact wf
  | cons s steps ih =>
    refine ih ?_
    cases s with
    | write w => exact (writePty_spec wf w).2.2.1
    | read count => exact (readSocket_spec wf (chunk_fits link count)).2.1
    | reset => exact (reset_spec wf).2.1

/-- A sequence of which the buffer holds only the beginning before its end stays there. -/
theorem straddling_stays (wf : Wf ts) {item : Item} (some : 0 < n) (short : n < item.bytes.length)
    (part : ts.part = item.bytes.take n) (w : Nat) :
    (writePty w ts).1.content = ts.content ∧ (writePty w ts).2 = [] := by
  obtain ⟨written,content,_⟩ := writePty_spec wf w
  obtain ⟨stops,_⟩ := scan_incomplete item n some short
  rw [← part] at stops
  rw [stops] at written content
  exact ⟨by rw [content,content_eq wf]; simp,by simpa using written⟩

/-- Enough writes that take something remove a sequence that does not lie across the end of the buffer. -/
theorem sequence_removed (wf : Wf link.session) {sequence : Item}
    (content : link.session.content = stream (front ++ [sequence]) ++ back)
    (unbroken : Unbroken link.session.wridx1 (front ++ [sequence]))
    (enough : (stream (front ++ [sequence])).length ≤ accepting more) :
    ∃ kept rest, (run link more).session.content = kept ++ rest ∧ iac ∉ kept ∧ rest <:+ back ++ stored link more := by
  obtain ⟨front',back',holds,suffix,_,fewer⟩ := Holds.run more ⟨wf,content,unbroken⟩
  refine ⟨stream front',back',holds.content,?_,suffix⟩
  have data : AllData front' := by
    rcases fewer with data | fewer
    · exact data
    · have none : front' = [] := stream_eq_nil (eq_nil_of_length_eq_zero (by omega))
      simp [AllData,none]
  intro marker
  obtain ⟨item,listed,byte⟩ := mem_flatMap.mp marker
  obtain ⟨_,plain,rfl⟩ := Item.eq_data (data item listed)
  exact plain (mem_singleton.mp byte).symm

theorem begin_wf (bytes : List UInt8) : Wf (begin bytes).session :=
  ⟨(by decide : 0 < bufSize),zero_le _,rfl⟩

/-- The terminal gets the stream without its sequences and with its pairs reduced, whatever the reads and writes,
and from every state that a run reaches a sequence in the buffer is gone after enough writes. -/
theorem telnetd_keyboard (sent : List Item) (tidy : Tidy sent) (steps : List Step)
    (harmless : HarmlessRun (begin (stream sent)) steps) :
    ((run (begin (stream sent)) steps).output <+: keyboard sent ∧
      ((run (begin (stream sent)) steps).pending = [] → (run (begin (stream sent)) steps).output = keyboard sent)) ∧
    ∀ (bytes : List UInt8) (before more : List Step) (front : List Item) (sequence : Item) (back : List UInt8),
      (run (begin bytes) before).session.content = stream (front ++ [sequence]) ++ back →
      Unbroken (run (begin bytes) before).session.wridx1 (front ++ [sequence]) →
      (stream (front ++ [sequence])).length ≤ accepting more →
      ∃ kept rest, (run (run (begin bytes) before) more).session.content = kept ++ rest ∧ iac ∉ kept ∧
        rest <:+ back ++ stored (run (begin bytes) before) more := by
  have start := invariant_begin tidy
  obtain ⟨_,items,parsed,_,same⟩ := start.run steps harmless
  refine ⟨⟨⟨keyboard items,same.symm⟩,fun done => ?_⟩,?_⟩
  · rw [done] at parsed
    have none := stream_eq_nil parsed.symm
    rw [same,none]
    simp [keyboard,dataOf,reduce]
  · intro bytes before more front sequence back content unbroken enough
    exact sequence_removed (run_wf before (begin_wf bytes)) content unbroken enough

theorem harmless_write (items : List Item) (parsed : link.pending = stream items)
    (none : ∀ item ∈ items, item.isCr = false) (w : Nat) : Harmless link (.write w) := by
  intro front cr partner back other isCr
  have same := stream_inj (parsed.symm.trans other)
  have not := none cr (by rw [same]; simp)
  rw [not] at isCr
  exact absurd isCr (by decide)

def typed : List Item := [.data 97 (by decide),.command 251 31 (by decide),.data 98 (by decide)]

/-- The option comes in two reads. -/
theorem telnetd_keyboard_typed : (run (begin (stream typed)) [.read 2,.write 9,.read 9,.write 9]).output = [97,98] := by
  have tidy : Tidy typed := by simp [typed,Tidy,Item.isCr]
  have harmless : HarmlessRun (begin (stream typed)) [.read 2,.write 9,.read 9,.write 9] :=
    ⟨fun zero => absurd zero (by decide),harmless_write typed (by decide) (by simp [typed,Item.isCr]) 9,
      fun zero => absurd zero (by decide),harmless_write typed.tail (by decide) (by simp [typed,Item.isCr]) 9,
      trivial⟩
  have shown := (telnetd_keyboard typed tidy _ harmless).1.2 (by decide)
  rw [shown]
  decide

/-- A line end of which the two bytes come in two reads. -/
theorem lineEnd_split :
    (run (begin [13,10]) [.read 1,.write 9,.reset,.read 1,.write 9,.reset]).output = [13,10] ∧
    (run (begin [13,10]) [.read 2,.write 9,.reset]).output = [13] := by
  decide

end Stablebox.Telnetd
