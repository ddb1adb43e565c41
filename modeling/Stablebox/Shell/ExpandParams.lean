import Stablebox.Shell.Expand
import Mathlib.Data.List.TakeWhile

/-! Quoted text on its way through the expansion. A text is a list of items: a byte that stands
for itself, an escaped byte or a quote mark. Each layer keeps the items, whatever `IFS` and the
directories hold, and the last one gives their values; so `"$@"` gives back the parameters. -/
namespace Stablebox.Ash.Expand

open Libbb List

theorem metachars_eq : metachars = [42,63,91] := by decide

/-- A byte that no layer takes for anything else. -/
def Ordinary (c : UInt8) : Prop :=
  c ≠ 0 ∧ ¬(ctlEsc ≤ c ∧ c ≤ ctlQuoteMark) ∧ c ∉ metachars ∧ c ≠ backslash

instance (c : UInt8) : Decidable (Ordinary c) := by
  unfold Ordinary
  infer_instance

variable {c : UInt8}

theorem Ordinary.ne_control (ordinary : Ordinary c) (control : UInt8)
    (among : ctlEsc ≤ control ∧ control ≤ ctlQuoteMark) : c ≠ control := by
  rintro rfl
  exact ordinary.2.1 among

theorem ordinary_of_not_special (nonzero : c ≠ 0) (raw : special c .dq = false) : Ordinary c := by
  refine ⟨nonzero,?_,?_,?_⟩
  · intro control
    simp [special,sit,control] at raw
  · intro among
    rw [metachars_eq,mem_cons,mem_cons,mem_singleton] at among
    revert raw
    obtain rfl | rfl | rfl := among <;> decide
  · rintro rfl
    revert raw
    decide

inductive Item where
  | plain (c : UInt8) (ordinary : Ordinary c)
  | escaped (c : UInt8) (nonzero : c ≠ 0)
  | mark

def Item.code : Item → List UInt8
  | plain c _ => [c]
  | escaped c _ => [ctlEsc,c]
  | mark => [ctlQuoteMark]

def Item.value : Item → List UInt8
  | plain c _ => [c]
  | escaped c _ => [c]
  | mark => []

def Item.pattern : Item → List UInt8
  | plain c _ => [c]
  | escaped c _ => if c = slash then [c] else [backslash,c]
  | mark => []

def encode (items : List Item) : List UInt8 := items.flatMap Item.code

def value (items : List Item) : List UInt8 := items.flatMap Item.value

def pattern (items : List Item) : List UInt8 := items.flatMap Item.pattern

@[simp] theorem encode_cons (item : Item) (items : List Item) :
    encode (item :: items) = item.code ++ encode items := rfl

@[simp] theorem value_cons (item : Item) (items : List Item) : value (item :: items) = item.value ++ value items := rfl

@[simp] theorem pattern_cons (item : Item) (items : List Item) :
    pattern (item :: items) = item.pattern ++ pattern items := rfl

/-! Removing the escapes. -/

theorem Ordinary.not_isQchar (ordinary : Ordinary c) : isQchar c = false := by
  have noEsc := ordinary.ne_control ctlEsc (by decide)
  have noMark := ordinary.ne_control ctlQuoteMark (by decide)
  simp [isQchar,noEsc,noMark]

theorem rmescapesLoop_plain (globbing : Bool) (inquotes : UInt32) (notescaped : Bool)
    (ordinary : Ordinary c) (p : List UInt8) :
    rmescapesLoop globbing inquotes notescaped (c :: p) = c :: rmescapesLoop globbing inquotes globbing p := by
  have noEsc := ordinary.ne_control ctlEsc (by decide)
  have noMark := ordinary.ne_control ctlQuoteMark (by decide)
  rw [rmescapesLoop.eq_def]
  simp [noMark,ordinary.2.2.2,noEsc]

theorem rmescapesLoop_mark (globbing : Bool) (inquotes : UInt32) (notescaped : Bool) (p : List UInt8) :
    rmescapesLoop globbing inquotes notescaped (ctlQuoteMark :: p) =
      rmescapesLoop globbing (~~~inquotes) globbing p := by
  rw [rmescapesLoop.eq_def]
  simp

theorem rmescapesLoop_escaped (globbing : Bool) (inquotes : UInt32) (notescaped : Bool) (c : UInt8) (p : List UInt8) :
    rmescapesLoop globbing inquotes notescaped (ctlEsc :: c :: p) =
      (if notescaped && inquotes != 0 && c != slash then [backslash,c] else [c]) ++
        rmescapesLoop globbing inquotes globbing p := by
  rw [rmescapesLoop.eq_def]
  simp [show ctlEsc ≠ ctlQuoteMark by decide,show ctlEsc ≠ backslash by decide]

theorem rmescapesWith_encode (globbing : Bool) (items : List Item) :
    rmescapesWith globbing false (encode items) = rmescapesLoop globbing 4 globbing (encode items) := by
  induction items with
  | nil => rfl
  | cons item items ih =>
    cases item with
    | plain c ordinary =>
      simp only [encode_cons,Item.code,singleton_append]
      rw [rmescapesLoop_plain _ _ _ ordinary,← ih]
      simp [rmescapesWith,ordinary.not_isQchar]
    | escaped c nonzero => simp [rmescapesWith,Item.code,isQchar]
    | mark => simp [rmescapesWith,Item.code,isQchar]

theorem rmescapesLoop_value (inquotes : UInt32) (items : List Item) :
    rmescapesLoop false inquotes false (encode items) = value items := by
  induction items generalizing inquotes with
  | nil => rfl
  | cons item items ih =>
    cases item with
    | plain c ordinary =>
      simp [Item.code,Item.value,rmescapesLoop_plain _ _ _ ordinary,ih]
    | escaped c nonzero => simp [Item.code,Item.value,rmescapesLoop_escaped,ih]
    | mark => simp [Item.code,Item.value,rmescapesLoop_mark,ih]

theorem rmescapes_encode (items : List Item) : rmescapes (encode items) = value items := by
  rw [rmescapes,rmescapesWith_encode,rmescapesLoop_value]

theorem rmescapesLoop_pattern (inquotes : UInt32) (items : List Item) (quoted : inquotes = 4 ∨ inquotes = ~~~4) :
    rmescapesLoop true inquotes true (encode items) = pattern items := by
  induction items generalizing inquotes with
  | nil => rfl
  | cons item items ih =>
    have nonzero : (inquotes != 0) = true := by
      obtain rfl | rfl := quoted <;> decide
    cases item with
    | plain c ordinary =>
      simp [Item.code,Item.pattern,rmescapesLoop_plain _ _ _ ordinary,ih inquotes quoted]
    | escaped c _ =>
      simp only [encode_cons,Item.code,cons_append,nil_append,rmescapesLoop_escaped,
        ih inquotes quoted,nonzero,pattern_cons,Item.pattern]
      by_cases isSlash : c = slash <;> simp [isSlash]
    | mark =>
      have flipped : ~~~inquotes = 4 ∨ ~~~inquotes = ~~~4 := by
        obtain rfl | rfl := quoted
        · exact Or.inr rfl
        · exact Or.inl (by decide)
      simp [Item.code,Item.pattern,rmescapesLoop_mark,ih _ flipped]

theorem preglob_encode (items : List Item) : preglob (encode items) false = pattern items := by
  rw [preglob,rmescapesWith_encode]
  exact rmescapesLoop_pattern 4 items (Or.inl rfl)

/-! A pattern without a live metacharacter is a file name that is not looked up. -/

theorem scanName_plain (ordinary : Ordinary c) (p : List UInt8) (pos start : Nat) :
    ∃ start', scanName (c :: p) pos start false = scanName p (pos + 1) start' false := by
  obtain ⟨-,-,noMeta,noBackslash⟩ := ordinary
  rw [metachars_eq] at noMeta
  simp only [mem_cons,not_mem_nil,or_false,not_or] at noMeta
  rw [scanName.eq_def]
  by_cases isSlash : c = slash
  · exact ⟨pos + 1,by simp [isSlash,slash,backslash]⟩
  · exact ⟨start,by simp [noMeta,noBackslash,isSlash]⟩

theorem scanName_slash (p : List UInt8) (pos start : Nat) :
    scanName (slash :: p) pos start false = scanName p (pos + 1) (pos + 1) false := by
  rw [scanName.eq_def]
  simp [slash,backslash]

theorem scanName_pattern (items : List Item) (pos start : Nat) :
    (scanName (pattern items) pos start false).metaflag = false := by
  induction items generalizing pos start with
  | nil => rfl
  | cons item items ih =>
    cases item with
    | plain c ordinary =>
      obtain ⟨start',next⟩ := scanName_plain ordinary (pattern items) pos start
      rw [pattern_cons,Item.pattern,singleton_append,next]
      exact ih _ _
    | escaped c nonzero =>
      rw [pattern_cons,Item.pattern]
      split_ifs with isSlash
      · rw [isSlash,singleton_append,scanName_slash]
        exact ih _ _
      · exact ih _ _
    | mark => exact ih _ _

theorem unescape_other (other : c ≠ backslash) (p : List UInt8) : unescape (c :: p) = c :: unescape p := by
  rw [unescape.eq_def]
  simp [other]

theorem unescape_pattern (items : List Item) : unescape (pattern items) = value items := by
  induction items with
  | nil => rfl
  | cons item items ih =>
    cases item with
    | plain c ordinary =>
      simp [Item.pattern,Item.value,unescape_other ordinary.2.2.2,ih]
    | escaped c nonzero =>
      by_cases isSlash : c = slash
      · simp [Item.pattern,Item.value,isSlash,unescape_other (show slash ≠ backslash by decide),ih]
      · simp [Item.pattern,Item.value,isSlash,unescape,ih]
    | mark => exact ih

theorem expmeta_pattern (files : Files) (fuel : Nat) (items : List Item) :
    expmeta files (fuel + 1) [] (pattern items) = [value items] := by
  simp [expmeta,scanName_pattern,unescape_pattern]

variable (sh : Shell)

theorem expandText_encode (files : Files) (items : List Item) : expandText sh files (encode items) = [value items] := by
  rw [expandText]
  split
  · rw [rmescapes_encode]
  simp only [preglob_encode,expmeta_pattern]
  rw [expsort,msort]
  rfl

theorem expandmeta_encode (files : Files) (pieces : List (List Item)) :
    expandmeta sh files (pieces.map encode) = pieces.map value := by
  induction pieces with
  | nil => rfl
  | cons items pieces ih =>
    rw [expandmeta] at ih
    rw [expandmeta,map_cons,flatMap_cons,expandText_encode,ih]
    rfl

/-! The items of a parameter. -/

def itemOf (c : UInt8) (nonzero : c ≠ 0) : Item :=
  if raw : special c .dq = false then .plain c (ordinary_of_not_special nonzero raw)
  else .escaped c nonzero

theorem CString.nonzero (s : CString) : ∀ c ∈ s.bytes, c ≠ 0 := by
  rintro c among rfl
  exact s.plain among

def CString.items (s : CString) : List Item := s.bytes.pmap itemOf s.nonzero

theorem memtodest_items (nonzero : ∀ c ∈ bytes, c ≠ 0) :
    memtodest bytes .dq true = encode (bytes.pmap itemOf nonzero) := by
  induction bytes with
  | nil => rfl
  | cons c bytes ih =>
    have rest := ih (forall_mem_cons.mp nonzero).2
    have first := nonzero c (.head _)
    rw [memtodest] at rest
    rw [memtodest,flatMap_cons,rest,pmap_cons,encode_cons,if_neg first,itemOf]
    split <;> simp_all [Item.code]

theorem value_items (nonzero : ∀ c ∈ bytes, c ≠ 0) : value (bytes.pmap itemOf nonzero) = bytes := by
  induction bytes with
  | nil => rfl
  | cons c bytes ih =>
    rw [pmap_cons,value_cons,ih,itemOf]
    split <;> rfl

/-! Splitting a region at its null bytes. -/

variable {α : Type}

/-- The first piece gets `pre`, the last one `post`; with no piece they are one word. -/
def surround (pre post : List α) : List (List α) → List (List α)
  | [] => [pre ++ post]
  | [a] => [pre ++ a ++ post]
  | a :: b :: rest => (pre ++ a) :: surround [] post (b :: rest)

theorem map_surround {β : Type} (f : α → List β) (pre post : List α) (pieces : List (List α)) :
    (surround pre post pieces).map (flatMap f) =
      surround (pre.flatMap f) (post.flatMap f) (pieces.map (flatMap f)) := by
  fun_induction surround pre post pieces with
  | case1 pre => simp [surround]
  | case2 pre a => simp [surround]
  | case3 pre a b rest ih => simp [surround,ih]

theorem surround_nil (a : List α) (rest : List (List α)) : surround [] [] (a :: rest) = a :: rest := by
  induction rest generalizing a with
  | nil => simp [surround]
  | cons b rest ih => simp [surround,ih]

theorem zero_notMem_encode (items : List Item) : 0 ∉ encode items := by
  induction items with
  | nil => exact not_mem_nil
  | cons item items ih =>
    cases item with
    | plain c ordinary => simpa [Item.code,ih] using ordinary.1.symm
    | escaped c nonzero => simpa [Item.code,ih,ctlEsc] using nonzero.symm
    | mark => simpa [Item.code,ih] using show (0 : UInt8) ≠ ctlQuoteMark by decide

variable {mem : List UInt8}

theorem byteAt_of_drop (here : mem.drop p = c :: rest) : byteAt mem p = c := by
  have first := congrArg head? here
  rw [head?_drop] at first
  simp [byteAt,getD,first]

theorem drop_next (here : mem.drop p = c :: rest) : mem.drop (p + 1) = rest := by
  rw [← drop_drop,here]
  rfl

theorem stringAt_of_drop (plain : 0 ∉ bytes)
    (here : mem.drop p = bytes ++ rest) (ends : rest.headD 0 = 0) : stringAt mem p = bytes := by
  have keep : ∀ c ∈ bytes, decide (c ≠ 0) = true := by
    intro c among
    exact decide_eq_true fun isZero => plain (isZero ▸ among)
  rw [stringAt,here,takeWhile_append_of_pos keep]
  cases rest with
  | nil => simp
  | cons c rest => simp_all

theorem scanRegion_pass (fuel start : Nat) (starts : List Nat)
    (inside : p < region.endoff) (nonzero : byteAt mem (skipEsc mem p) ≠ 0) :
    scanRegion [] region (fuel + 1) ⟨mem,p,start,false,starts⟩ =
      scanRegion [] region fuel ⟨mem,skipEsc mem p + 1,start,false,starts⟩ := by
  simp [scanRegion,strchr,not_le.mpr inside,nonzero]

theorem scanRegion_item (item : Item) (fuel start : Nat) (starts : List Nat) (here : mem.drop p = item.code ++ rest)
    (inside : p < region.endoff) :
    scanRegion [] region (fuel + 1) ⟨mem,p,start,false,starts⟩ =
      scanRegion [] region fuel ⟨mem,p + item.code.length,start,false,starts⟩ := by
  cases item with
  | plain c ordinary =>
    have first := byteAt_of_drop here
    have skip : skipEsc mem p = p := by
      simp [skipEsc,first,ordinary.ne_control ctlEsc (by decide)]
    rw [scanRegion_pass _ _ _ inside (by rw [skip,first]; exact ordinary.1),skip]
    rfl
  | escaped c nonzero =>
    have skip : skipEsc mem p = p + 1 := by simp [skipEsc,byteAt_of_drop here]
    have second := byteAt_of_drop (drop_next here)
    rw [scanRegion_pass _ _ _ inside (by rw [skip,second]; exact nonzero),skip]
    rfl
  | mark =>
    have first := byteAt_of_drop here
    have skip : skipEsc mem p = p := by
      simp [skipEsc,first,show ctlQuoteMark ≠ ctlEsc by decide]
    rw [scanRegion_pass _ _ _ inside (by rw [skip,first]; decide),skip]
    rfl

theorem Item.code_length_pos (item : Item) : 0 < item.code.length := by
  cases item <;> simp [Item.code]

theorem length_le_encode (items : List Item) : items.length ≤ (encode items).length := by
  induction items with
  | nil => exact le_refl 0
  | cons item items ih =>
    have := item.code_length_pos
    simp only [length_cons,encode_cons,length_append]
    omega

theorem scanRegion_items (items : List Item) (fuel p start : Nat) (starts : List Nat)
    (here : mem.drop p = encode items ++ rest) (inside : p + (encode items).length ≤ region.endoff) :
    scanRegion [] region (items.length + fuel) ⟨mem,p,start,false,starts⟩ =
      scanRegion [] region fuel ⟨mem,p + (encode items).length,start,false,starts⟩ := by
  induction items generalizing p with
  | nil => simp [encode]
  | cons item items ih =>
    have long := item.code_length_pos
    rw [encode_cons,append_assoc] at here
    rw [encode_cons,length_append] at inside
    have after : mem.drop (p + item.code.length) = encode items ++ rest := by
      rw [← drop_drop,here,drop_left]
    rw [length_cons,add_right_comm,scanRegion_item item _ _ _ here (by omega),
      ih (p + item.code.length) after (by omega),encode_cons,length_append,add_assoc]

theorem scanRegion_end (ifs : List UInt8) (fuel : Nat) (done : region.endoff ≤ s.p) :
    scanRegion ifs region fuel s = s := by
  cases fuel with
  | zero => rfl
  | succ fuel => simp [scanRegion,done]

theorem scanRegion_null (fuel start : Nat) (starts : List Nat) (nulonly : region.nulonly = true)
    (inside : p < region.endoff) (here : mem.drop p = 0 :: rest) :
    scanRegion [] region (fuel + 1) ⟨mem,p,start,false,starts⟩ =
      scanRegion [] region fuel ⟨mem,p + 1,p + 1,false,starts ++ [start]⟩ := by
  have first := byteAt_of_drop here
  have skip : skipEsc mem p = p := by simp [skipEsc,first,show (0 : UInt8) ≠ ctlEsc by decide]
  have same : mem.set p 0 = mem := by
    have found := congrArg head? here
    rw [head?_drop] at found
    obtain ⟨bound,isZero⟩ := List.getElem?_eq_some_iff.mp found
    calc mem.set p 0 = mem.set p mem[p] := by rw [isZero]
      _ = mem := set_getElem_self bound
  simp [scanRegion,skip,first,strchr,nulonly,not_le.mpr inside,same]

def joinPieces (pieces : List (List Item)) : List UInt8 := [0].intercalate (pieces.map encode)

theorem joinPieces_cons (a b : List Item) (rest : List (List Item)) :
    joinPieces (a :: b :: rest) = encode a ++ 0 :: joinPieces (b :: rest) := by
  simp [joinPieces,intercalate]

theorem joinPieces_one (a : List Item) : joinPieces [a] = encode a := by
  simp [joinPieces,intercalate]

theorem scanRegion_pieces (mem : List UInt8) (region : Region) (first : List Item)
    (pieces : List (List Item)) (lead post : List UInt8) (fuel start : Nat) (starts : List Nat)
    (nulonly : region.nulonly = true) (leadPlain : 0 ∉ lead) (postPlain : 0 ∉ post)
    (here : mem.drop start = lead ++ (joinPieces (first :: pieces) ++ post))
    (stop : region.endoff = start + lead.length + (joinPieces (first :: pieces)).length)
    (enough : (joinPieces (first :: pieces)).length ≤ fuel) :
    let s := scanRegion [] region fuel ⟨mem,start + lead.length,start,false,starts⟩
    s.mem = mem ∧ (s.starts ++ [s.start]).map (stringAt mem) =
      starts.map (stringAt mem) ++ surround lead post ((first :: pieces).map encode) := by
  induction pieces generalizing first lead fuel start starts with
  | nil =>
    have long := length_le_encode first
    rw [joinPieces_one] at here stop enough
    have atFirst : mem.drop (start + lead.length) = encode first ++ post := by
      rw [← drop_drop,here,drop_left]
    have found : stringAt mem start = lead ++ (encode first ++ post) :=
      stringAt_of_drop (by simp [leadPlain,zero_notMem_encode,postPlain])
        (here.trans (append_nil _).symm) rfl
    obtain ⟨more,rfl⟩ := Nat.exists_eq_add_of_le (le_trans long enough)
    rw [scanRegion_items first more _ _ _ atFirst (by omega),scanRegion_end _ _ (by simp [stop])]
    simp [surround,found]
  | cons second pieces ih =>
    have long := length_le_encode first
    rw [joinPieces_cons,length_append,length_cons] at stop enough
    rw [joinPieces_cons,append_assoc,cons_append] at here
    have atFirst : mem.drop (start + lead.length) =
        encode first ++ 0 :: (joinPieces (second :: pieces) ++ post) := by
      rw [← drop_drop,here,drop_left]
    have atNull : mem.drop (start + lead.length + (encode first).length) =
        0 :: (joinPieces (second :: pieces) ++ post) := by
      rw [← drop_drop,atFirst,drop_left]
    have found : stringAt mem start = lead ++ encode first := stringAt_of_drop (by simp [leadPlain,zero_notMem_encode])
        (here.trans (append_assoc _ _ _).symm) rfl
    obtain ⟨more,rfl⟩ : ∃ more, fuel = first.length + (more + 1) := ⟨fuel - first.length - 1,by omega⟩
    rw [scanRegion_items first _ _ _ _ atFirst (by omega),scanRegion_null more start starts nulonly (by omega) atNull]
    have rest := ih second [] more (start + lead.length + (encode first).length + 1) (starts ++ [start])
      not_mem_nil (drop_next atNull) (by simp only [length_nil]; omega) (by omega)
    refine ⟨rest.1,rest.2.trans ?_⟩
    simp [surround,found]

/-- The texts of a word whose only region holds the quoted parameters. -/
theorem ifsbreakup_pieces (pre post first : List Item) (pieces : List (List Item)) :
    ifsbreakup sh (encode pre ++ (joinPieces (first :: pieces) ++ encode post))
        [⟨(encode pre).length,(encode pre).length + (joinPieces (first :: pieces)).length,true⟩] =
      (surround pre post (first :: pieces)).map encode := by
  obtain ⟨sameMem,found⟩ := scanRegion_pieces
    (encode pre ++ (joinPieces (first :: pieces) ++ encode post)) ⟨(encode pre).length,_,true⟩ first pieces
    (encode pre) (encode post) _ 0 [] rfl (zero_notMem_encode pre) (zero_notMem_encode post)
    drop_zero (by rw [zero_add]) (le_refl _)
  rw [zero_add] at sameMem found
  simp only [ifsbreakup,foldl,breakRegion,if_true,Nat.add_sub_cancel_left,sameMem,
    getLast?_singleton,Bool.not_true,Bool.false_and,Bool.false_eq_true,if_false]
  rw [found]
  exact (map_surround Item.code pre post (first :: pieces)).symm

/-! The text of the word. -/

def quotesAfter (inquotes : Bool) : List Item → Bool
  | [] => inquotes
  | .mark :: items => quotesAfter (!inquotes) items
  | _ :: items => quotesAfter inquotes items

theorem head_encode_ne_ctlVar (items : List Item) (noVar : rest.head? ≠ some ctlVar) :
    (encode items ++ rest).head? ≠ some ctlVar := by
  cases items with
  | nil => exact noVar
  | cons item items =>
    cases item with
    | plain c ordinary =>
      simpa [Item.code] using ordinary.ne_control ctlVar (by decide)
    | escaped c nonzero => simpa [Item.code] using show ctlEsc ≠ ctlVar by decide
    | mark => simpa [Item.code] using show ctlQuoteMark ≠ ctlVar by decide

theorem isDolat_of_head {p : List UInt8} (noVar : p.head? ≠ some ctlVar) : isDolat p = false := by
  cases p with
  | nil => rfl
  | cons c p =>
    have other : c ≠ ctlVar := fun isVar => noVar (by rw [isVar]; rfl)
    simp [isDolat,dolatstr,other]

theorem argstr_item (fuel : Nat) (item : Item) {p : List UInt8} (inquotes : Bool) (dest : Dest)
    (keeps : flags.quotes = true) (noVar : p.head? ≠ some ctlVar) :
    argstr sh flags (fuel + 1) (item.code ++ p) inquotes dest =
      argstr sh flags fuel p (quotesAfter inquotes [item]) (dest.put item.code) := by
  cases item with
  | plain c ordinary =>
    have none (control : UInt8) (among : ctlEsc ≤ control ∧ control ≤ ctlQuoteMark) : c ≠ control :=
      ordinary.ne_control control among
    simp only [Item.code,singleton_append,quotesAfter]
    rw [argstr.eq_def]
    simp only [ordinary.1,none ctlEndVar (by decide),none ctlQuoteMark (by decide),
      none ctlEsc (by decide),none ctlVar (by decide),none ctlBackQ (by decide),
      none (ctlBackQ ||| ctlQuote) (by decide),none ctlEndAri (by decide),or_self,if_false]
  | escaped c nonzero =>
    simp only [Item.code,cons_append,nil_append,quotesAfter]
    rw [argstr.eq_def]
    simp [keeps,show ctlEsc ≠ 0 by decide,show ctlEsc ≠ ctlEndVar by decide,show ctlEsc ≠ ctlQuoteMark by decide]
  | mark =>
    simp only [Item.code,singleton_append,quotesAfter]
    rw [argstr.eq_def]
    simp [keeps,isDolat_of_head noVar,show ctlQuoteMark ≠ 0 by decide,show ctlQuoteMark ≠ ctlEndVar by decide]

theorem argstr_items (flags : Flags) (fuel : Nat) (items : List Item) (rest : List UInt8)
    (inquotes : Bool) (dest : Dest) (keeps : flags.quotes = true) (noVar : rest.head? ≠ some ctlVar) :
    argstr sh flags (items.length + fuel) (encode items ++ rest) inquotes dest =
      argstr sh flags fuel rest (quotesAfter inquotes items) (dest.put (encode items)) := by
  induction items generalizing inquotes dest with
  | nil => simp [encode,quotesAfter,Dest.put]
  | cons item items ih =>
    rw [length_cons,add_right_comm,encode_cons,append_assoc,
      argstr_item _ _ _ _ _ keeps (head_encode_ne_ctlVar items noVar),ih]
    cases item <;> simp [quotesAfter,Dest.put]

theorem joinParams_items (params : List CString) :
    joinParams params .dq true [0] = joinPieces (params.map CString.items) := by
  have each (p : CString) : memtodest p.bytes .dq true = encode p.items := memtodest_items p.nonzero
  simp [joinParams,joinPieces,each,Function.comp_def]

theorem evalvar_dolat (rest : List UInt8) (dest : Dest) (full : flags.full = true) :
    evalvar sh flags ((vsNormal ||| vsQuote) :: 64 :: 61 :: rest) dest =
      .ok (if sh.params = [] then dest
        else (dest.put (joinPieces (sh.params.map CString.items))).recordregion dest.bytes.length
          (dest.bytes.length + (joinPieces (sh.params.map CString.items)).length) true,rest) := by
  have keeps : flags.quotes = true := by simp [Flags.quotes,full]
  have isQuoted : decide ((vsNormal ||| vsQuote) &&& vsQuote ≠ 0) = true := by decide
  have isNormal : ¬(vsNormal ||| vsQuote) &&& vsType ≠ vsNormal := by decide
  have noColon : decide ((vsNormal ||| vsQuote) &&& vsNul ≠ 0) = false := by decide
  simp only [evalvar,isQuoted,isNormal,noColon,varvalue,headD_cons,full,keeps,joinParams_items,
    if_false,if_true,Bool.and_self,Bool.false_and]
  cases h : sh.params with
  | nil => simp [joinPieces,Dest.put]
  | cons p params => simp [Dest.put,Dest.recordregion]

/-- Literal text as the parser leaves it: what is quoted in it is escaped, and its quotes are closed. -/
structure Literal where
  items : List Item
  closed : quotesAfter false items = false

def Literal.value (literal : Literal) : List UInt8 := Expand.value literal.items

def dolatWord (pre post : List Item) : List UInt8 :=
  encode pre ++ ctlQuoteMark :: (dolatstr ++ ctlQuoteMark :: encode post)

def dolatDest (sh : Shell) (pre post : List Item) : Dest :=
  if sh.params = [] then ⟨encode pre ++ encode post,[]⟩
  else
    let joined := joinPieces (sh.params.map CString.items)
    ⟨encode pre ++ (joined ++ encode post),[⟨(encode pre).length,(encode pre).length + joined.length,true⟩]⟩

theorem argstr_quotedParams (flags : Flags) (fuel : Nat) (post : List UInt8) (dest : Dest) (full : flags.full = true) :
    argstr sh flags (fuel + 1) (ctlQuoteMark :: (dolatstr ++ ctlQuoteMark :: post)) false dest =
      argstr sh flags fuel post false
        (if sh.params = [] then dest
          else (dest.put (joinPieces (sh.params.map CString.items))).recordregion dest.bytes.length
            (dest.bytes.length + (joinPieces (sh.params.map CString.items)).length) true) := by
  have isThere : isDolat (dolatstr ++ ctlQuoteMark :: post) = true := by simp [isDolat,dolatstr]
  have behind : (dolatstr ++ ctlQuoteMark :: post).drop 1 =
      (vsNormal ||| vsQuote) :: 64 :: 61 :: ctlQuoteMark :: post := rfl
  rw [argstr.eq_def]
  simp only [isThere,behind,evalvar_dolat _ _ _ full,show ctlQuoteMark ≠ 0 by decide,
    show ctlQuoteMark ≠ ctlEndVar by decide,or_self,if_false,if_true,Bool.not_false,Bool.and_self,drop_one,tail_cons]

theorem argstr_dolatWord (flags : Flags) (pre post : List Item) (full : flags.full = true)
    (closed : quotesAfter false pre = false) :
    argstr sh flags ((dolatWord pre post).length + 1) (dolatWord pre post) false ⟨[],[]⟩ =
      .ok (dolatDest sh pre post) := by
  have keeps : flags.quotes = true := by simp [Flags.quotes,full]
  have preLong := length_le_encode pre
  have postLong := length_le_encode post
  obtain ⟨fuel,enough⟩ : ∃ fuel, (dolatWord pre post).length + 1 = pre.length + (post.length + (fuel + 1) + 1) := by
    refine ⟨(dolatWord pre post).length - pre.length - post.length - 1,?_⟩
    simp only [dolatWord,length_append,length_cons]
    omega
  have noVar : (ctlQuoteMark :: (dolatstr ++ ctlQuoteMark :: encode post)).head? ≠ some ctlVar := by
    simpa using show ctlQuoteMark ≠ ctlVar by decide
  have tail := argstr_items sh flags (fuel + 1) post [] false
    (if sh.params = [] then ⟨encode pre,[]⟩
      else ((⟨encode pre,[]⟩ : Dest).put (joinPieces (sh.params.map CString.items))).recordregion
        (encode pre).length ((encode pre).length + (joinPieces (sh.params.map CString.items)).length) true)
    keeps (by simp)
  rw [append_nil] at tail
  rw [enough,dolatWord,argstr_items _ _ _ _ _ _ _ keeps noVar,closed,argstr_quotedParams _ _ _ _ _ full]
  simp only [Dest.put,nil_append] at tail ⊢
  rw [tail,argstr,dolatDest]
  split <;> simp [Dest.recordregion]

theorem ifsbreakup_no_region (items : List Item) :
    ifsbreakup sh (encode items) [] = if items = [] then [] else [encode items] := by
  have whole : stringAt (encode items) 0 = encode items :=
    stringAt_of_drop (zero_notMem_encode items) (append_nil _).symm rfl
  by_cases empty : items = []
  · subst empty
    rfl
  have nonzero : byteAt (encode items) 0 ≠ 0 := by
    have long := length_le_encode items
    have some := length_pos_iff.mpr empty
    have bound : 0 < (encode items).length := by omega
    intro isZero
    rw [byteAt,getD_eq_getElem?_getD,getElem?_eq_getElem bound] at isZero
    exact zero_notMem_encode items (isZero ▸ getElem_mem bound)
  simp [ifsbreakup,nonzero,whole,empty]

theorem expandarg_dolatWord (files : Files) (post : List Item) (closed : quotesAfter false pre = false) :
    expandarg sh files { full := true } (dolatWord pre post) =
      .ok (if sh.params = [] ∧ pre ++ post = [] then []
        else surround (value pre) (value post) (sh.params.map CString.bytes)) := by
  have values : (sh.params.map CString.items).map value = sh.params.map CString.bytes := by
    simp [value_items,CString.items,Function.comp_def]
  rw [expandarg,argstr_dolatWord _ _ _ _ rfl closed]
  simp only [if_true,dolatDest]
  cases params : sh.params with
  | nil =>
    have joined : encode pre ++ encode post = encode (pre ++ post) := by simp [encode]
    simp only [if_true,joined,ifsbreakup_no_region,true_and]
    split
    · rfl
    · have single := expandmeta_encode sh files [pre ++ post]
      simp_all [surround,value]
  | cons p rest =>
    rw [params] at values
    simp only [reduceCtorEq,if_false,false_and,map_cons]
    rw [ifsbreakup_pieces,expandmeta_encode,← map_cons,← map_cons,← values]
    exact congrArg Except.ok (map_surround Item.value pre post ((p :: rest).map CString.items))

/-- `"$@"` gives exactly the positional parameters, whatever `IFS`, the options and the directories
are; literal text around it goes to the first and the last of them. -/
theorem expandarg_quotedParams (sh : Shell) (files : Files) :
    expandarg sh files { full := true } (dolatWord [] []) = .ok (sh.params.map CString.bytes) ∧
    ∀ pre post : Literal, pre.items ≠ [] ∨ post.items ≠ [] →
      expandarg sh files { full := true } (dolatWord pre.items post.items) =
        .ok (surround pre.value post.value (sh.params.map CString.bytes)) := by
  constructor
  · rw [expandarg_dolatWord _ _ _ rfl]
    cases sh.params with
    | nil => rfl
    | cons p rest => simp [value,surround_nil]
  · intro pre post written
    rw [expandarg_dolatWord _ _ _ pre.closed,if_neg]
    · rfl
    rintro ⟨-,empty⟩
    rw [append_eq_nil_iff] at empty
    exact written.elim (· empty.1) (· empty.2)

/-- `a"$@"'*'` with the parameters `*` and the empty string; `*` is also the value of `IFS`. -/
theorem quotedParams_starred :
    let sh : Shell :=
      { arg0 := ⟨[],by decide⟩, params := [⟨[42],by decide⟩,⟨[],by decide⟩], ifs := some ⟨[42],by decide⟩
        lookupvar := fun _ => none, rootpid := 1, exitstatus := 0, backgndpid := 0, optletters := []
        uflag := true, fflag := false }
    expandarg sh ⟨fun _ => none,fun _ => false,fun _ _ => true⟩ { full := true }
      (dolatWord [.plain 97 (by decide)] [.mark,.escaped 42 (by decide),.mark]) = .ok [[97,42],[42]] := by
  intro sh
  exact (expandarg_quotedParams sh _).2 ⟨[.plain 97 (by decide)],rfl⟩
    ⟨[.mark,.escaped 42 (by decide),.mark],rfl⟩ (Or.inl (cons_ne_nil _ _))

end Stablebox.Ash.Expand
