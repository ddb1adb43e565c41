import Stablebox.Networking.Telnetd

/-! The filter of `telnetd` on a stream of items, the session's buffer as a queue of bytes,
and what follows for whole runs: what the terminal gets, and that sequences leave the buffer. -/
namespace Stablebox.Telnetd

open List

/-! ### The filter -/

theorem scan_last (plain : c ≠ iac) : scan [c] = ([c],[]) :=
  (scan.eq_def _).trans (if_pos plain)

theorem scan_pair {c next : UInt8} (rest : List UInt8) (plain : c ≠ iac) (pair : c = 13 ∧ (next = 10 ∨ next = 0)) :
    scan (c :: next :: rest) = (c :: (scan rest).1,(scan rest).2) :=
  (scan.eq_def _).trans ((if_pos plain).trans (if_pos pair))

theorem scan_single {c next : UInt8} (rest : List UInt8) (plain : c ≠ iac)
    (single : ¬ (c = 13 ∧ (next = 10 ∨ next = 0))) :
    scan (c :: next :: rest) = (c :: (scan (next :: rest)).1,(scan (next :: rest)).2) :=
  (scan.eq_def _).trans ((if_pos plain).trans (if_neg single))

theorem scan_command (rest : List UInt8) (other : ¬ (verb = sb ∧ option = teloptNaws)) :
    scan (iac :: verb :: option :: rest) = scan rest :=
  (scan.eq_def _).trans ((if_neg (not_not.mpr rfl)).trans (if_neg other))

theorem scan_naws (a b c d e f : UInt8) (rest : List UInt8) :
    scan (iac :: sb :: teloptNaws :: a :: b :: c :: d :: e :: f :: rest) = scan rest :=
  (scan.eq_def _).trans ((if_neg (not_not.mpr rfl)).trans (if_pos ⟨rfl,rfl⟩))

@[simp] theorem stream_nil : stream [] = [] := rfl

@[simp] theorem stream_cons (item : Item) (items : List Item) :
    stream (item :: items) = item.bytes ++ stream items := by
  simp [stream]

@[simp] theorem stream_append (a b : List Item) : stream (a ++ b) = stream a ++ stream b := by
  simp [stream]

theorem stream_eq_nil (none : stream items = []) : items = [] := by
  cases items with
  | nil => rfl
  | cons item items => cases item <;> cases none

variable {item : Item}

theorem Item.eq_data (isData : item.isData = true) : ∃ byte plain, item = .data byte plain := by
  cases item with
  | data byte plain => exact ⟨byte,plain,rfl⟩
  | command | naws => cases isData

theorem Item.eq_cr (isCr : item.isCr = true) : ∃ plain, item = .data 13 plain := by
  cases item with
  | data byte plain =>
    obtain rfl := of_decide_eq_true isCr
    exact ⟨plain,rfl⟩
  | command | naws => cases isCr

theorem Item.eq_partner (isPartner : item.isPartner = true) :
    ∃ byte plain, (byte = 10 ∨ byte = 0) ∧ item = .data byte plain := by
  cases item with
  | data byte plain => exact ⟨byte,plain,of_decide_eq_true isPartner,rfl⟩
  | command | naws => cases isPartner

def squeeze : List Item → List Item
  | [] => []
  | item :: rest =>
    if item.isData then
      match rest with
      | next :: rest' => if item.isCr && next.isPartner then item :: squeeze rest' else item :: squeeze (next :: rest')
      | [] => [item]
    else squeeze rest

theorem squeeze_data : ∀ item ∈ squeeze items, item.isData = true := by
  fun_induction squeeze items with
  | case1 => simp
  | case2 item isData next rest pair ih => exact forall_mem_cons.mpr ⟨isData,ih⟩
  | case3 item isData next rest single ih => exact forall_mem_cons.mpr ⟨isData,ih⟩
  | case4 item isData => simpa using isData
  | case5 item rest sequence ih => exact ih

theorem scan_items (items : List Item) (more : List UInt8) : ∃ left, left <:+ more ∧
    scan (stream items ++ more) = (stream (squeeze items) ++ (scan left).1,(scan left).2) ∧
    ((∀ byte, more.head? = some byte → byte = iac) → left = more) := by
  fun_induction squeeze items with
  | case1 => exact ⟨more,suffix_refl _,by simp,fun _ => rfl⟩
  | case2 item isData next rest pair ih =>
    obtain ⟨left,suffix,same,whole⟩ := ih
    refine ⟨left,suffix,?_,whole⟩
    rw [Bool.and_eq_true] at pair
    obtain ⟨plain,rfl⟩ := Item.eq_cr pair.1
    obtain ⟨partner,other,second,rfl⟩ := Item.eq_partner pair.2
    simp only [stream_cons,Item.bytes,cons_append,nil_append]
    rw [scan_pair _ plain ⟨rfl,second⟩,same]
  | case3 item isData next rest single ih =>
    obtain ⟨left,suffix,same,whole⟩ := ih
    refine ⟨left,suffix,?_,whole⟩
    obtain ⟨byte,plain,rfl⟩ := Item.eq_data isData
    cases next with
    | data partner other =>
      simp only [Item.isCr,Item.isPartner,Bool.and_eq_true,decide_eq_true_eq] at single
      simp only [stream_cons,Item.bytes,cons_append,nil_append] at same ⊢
      rw [scan_single _ plain single,same]
    | command | naws =>
      simp only [stream_cons,Item.bytes,cons_append,nil_append] at same ⊢
      rw [scan_single _ plain (by simp [iac]),same]
  | case4 item isData =>
    obtain ⟨byte,plain,rfl⟩ := Item.eq_data isData
    cases more with
    | nil => exact ⟨[],suffix_refl _,scan_last plain,fun _ => rfl⟩
    | cons first more =>
      by_cases pair : byte = 13 ∧ (first = 10 ∨ first = 0)
      · refine ⟨more,suffix_cons _ _,scan_pair more plain pair,fun marker => ?_⟩
        have second := pair.2
        rw [marker first rfl] at second
        exact absurd second (by decide)
      · exact ⟨first :: more,suffix_refl _,scan_single more plain pair,fun _ => rfl⟩
  | case5 item rest sequence ih =>
    obtain ⟨left,suffix,same,whole⟩ := ih
    refine ⟨left,suffix,?_,whole⟩
    cases item with
    | data => simp [Item.isData] at sequence
    | command verb option other =>
      simp only [stream_cons,Item.bytes,cons_append,nil_append]
      rw [scan_command _ other,same]
    | naws a b c d =>
      simp only [stream_cons,Item.bytes,cons_append,nil_append]
      rw [scan_naws,same]

theorem scan_stream (items : List Item) (left : List UInt8) (stops : ∀ byte, left.head? = some byte → byte = iac) :
    scan (stream items ++ left) = (stream (squeeze items) ++ (scan left).1,(scan left).2) := by
  obtain ⟨_,_,same,whole⟩ := scan_items items left
  rw [same,whole stops]

theorem scan_incomplete (item : Item) (n : Nat) (some : 0 < n) (short : n < item.bytes.length) :
    scan (item.bytes.take n) = ([],item.bytes.take n) ∧
      ∀ byte, (item.bytes.take n).head? = Option.some byte → byte = iac := by
  cases item with
  | data byte plain =>
    simp only [Item.bytes,length_singleton] at short
    omega
  | command verb option other =>
    simp only [Item.bytes,length_cons,length_nil] at short
    interval_cases n <;> simp [Item.bytes,scan]
  | naws a b c d =>
    simp only [Item.bytes,length_cons,length_nil] at short
    interval_cases n <;> simp [Item.bytes,scan]

theorem cut (items : List Item) (n : Nat) (bound : n ≤ (stream items).length) :
    ∃ done rest left, items = done ++ rest ∧ (stream items).take n = stream done ++ left ∧
      left <+: stream rest ∧ scan left = ([],left) ∧ ∀ byte, left.head? = some byte → byte = iac := by
  induction items generalizing n with
  | nil => exact ⟨[],[],[],rfl,by simp,List.nil_prefix,rfl,by simp⟩
  | cons item items ih =>
    rw [stream_cons,length_append] at bound
    by_cases whole : item.bytes.length ≤ n
    · obtain ⟨done,rest,left,shape,taken,begins,stops⟩ := ih (n - item.bytes.length) (by omega)
      refine ⟨item :: done,rest,left,by rw [shape,cons_append],?_,begins,stops⟩
      rw [stream_cons,take_append,take_of_length_le whole,taken,stream_cons,append_assoc]
    · by_cases none : n = 0
      · exact ⟨[],item :: items,[],rfl,by simp [none],List.nil_prefix,rfl,by simp⟩
      obtain ⟨left,marker⟩ := scan_incomplete item n (by omega) (by omega)
      refine ⟨[],item :: items,item.bytes.take n,rfl,?_,?_,left,marker⟩
      · rw [stream_cons,take_append_of_le_length (by omega),stream_nil,nil_append]
      · exact (List.take_prefix n item.bytes).trans (prefix_append _ _)

theorem Item.bytes_append_inj {x y : Item} (same : x.bytes ++ u = y.bytes ++ v) : x = y ∧ u = v := by
  cases x with
  | data byte plain =>
    cases y with
    | data => simpa [Item.bytes] using same
    | command | naws => exact absurd (cons.inj same).1 plain
  | command verb option other =>
    cases y with
    | data byte plain => exact absurd (cons.inj same).1.symm plain
    | command => simpa [Item.bytes,and_assoc] using same
    | naws =>
      simp only [Item.bytes,cons_append,cons.injEq] at same
      exact absurd ⟨same.2.1,same.2.2.1⟩ other
  | naws =>
    cases y with
    | data byte plain => exact absurd (cons.inj same).1.symm plain
    | command verb option other =>
      simp only [Item.bytes,cons_append,cons.injEq] at same
      exact absurd ⟨same.2.1.symm,same.2.2.1.symm⟩ other
    | naws => simpa [Item.bytes,and_assoc] using same

theorem stream_inj {a b : List Item} (same : stream a = stream b) : a = b := by
  induction a generalizing b with
  | nil => exact (stream_eq_nil same.symm).symm
  | cons x a ih =>
    cases b with
    | nil => exact stream_eq_nil same
    | cons y b =>
      obtain ⟨rfl,rest⟩ := Item.bytes_append_inj same
      rw [ih rest]

/-- What the filter leaves lies behind whole items that come first, and what it keeps is data. -/
theorem scan_leaves (bytes : List UInt8) : (scan bytes).2 <:+ bytes ∧ iac ∉ (scan bytes).1 ∧
    (scan bytes).1.length + (scan bytes).2.length ≤ bytes.length := by
  fun_induction scan bytes with
  | case1 => simp
  | case2 c plain next rest pair ih =>
    obtain ⟨suffix,data,length⟩ := ih
    refine ⟨suffix.trans ((suffix_cons _ _).trans (suffix_cons _ _)),?_,?_⟩
    · simpa [data] using fun same => plain same.symm
    · simp only [length_cons]
      omega
  | case3 c plain next rest single ih =>
    obtain ⟨suffix,data,length⟩ := ih
    refine ⟨suffix.trans (suffix_cons _ _),?_,?_⟩
    · simpa [data] using fun same => plain same.symm
    · simp only [length_cons] at length ⊢
      omega
  | case4 c plain => simpa using fun same => plain same.symm
  | case5 c marker verb option naws a b d e f g rest ih =>
    obtain ⟨suffix,data,length⟩ := ih
    refine ⟨suffix.trans (suffix_append [c,verb,option,a,b,d,e,f,g] rest),data,?_⟩
    simp only [length_cons]
    omega
  | case6 => simp
  | case7 c marker verb option rest other ih =>
    obtain ⟨suffix,data,length⟩ := ih
    refine ⟨suffix.trans (suffix_append [c,verb,option] rest),data,?_⟩
    simp only [length_cons]
    omega
  | case8 => simp

/-! ### What the terminal is to get -/

@[simp] theorem dataOf_append (a b : List Item) : dataOf (a ++ b) = dataOf a ++ dataOf b := by
  simp [dataOf]

theorem dataOf_data (isData : item.isData = true) (items : List Item) :
    dataOf (item :: items) = item.bytes ++ dataOf items := by
  simp [dataOf,isData]

@[simp] theorem dataOf_byte (plain : byte ≠ iac) (items : List Item) :
    dataOf (.data byte plain :: items) = byte :: dataOf items := dataOf_data rfl items

theorem dataOf_sequence (sequence : ¬ item.isData = true) (items : List Item) :
    dataOf (item :: items) = dataOf items := by
  simp [dataOf,sequence]

theorem reduce_cons (single : c = 13 → ∀ byte, rest.head? = some byte → byte ≠ 10 ∧ byte ≠ 0) :
    reduce (c :: rest) = c :: reduce rest := by
  cases rest with
  | nil => simp [reduce]
  | cons next rest =>
    rw [reduce.eq_def]
    simp only
    rw [if_neg]
    rintro ⟨cr,pair⟩
    have other := single cr next rfl
    exact pair.elim other.1 other.2

theorem reduce_pair {next : UInt8} (rest : List UInt8) (pair : next = 10 ∨ next = 0) :
    reduce (13 :: next :: rest) = 13 :: reduce rest := by
  rw [reduce.eq_def]
  simp [pair]

theorem reduce_append_cr (front back : List UInt8) :
    reduce (front ++ 13 :: back) = reduce front ++ reduce (13 :: back) := by
  fun_induction reduce front with
  | case1 => simp
  | case2 c next rest pair ih =>
    obtain ⟨rfl,pair⟩ := pair
    rw [cons_append,cons_append,reduce_pair _ pair,ih,cons_append]
  | case3 c next rest single ih =>
    rw [cons_append,reduce_cons,ih,cons_append]
    rintro rfl byte here
    cases here
    exact not_or.mp fun pair => single ⟨rfl,pair⟩
  | case4 c =>
    rw [singleton_append,reduce_cons]
    · rfl
    rintro _ byte here
    cases here
    decide

theorem keyboard_cons (isData : item.isData = true) (single : item.isCr → Clear items) :
    keyboard (item :: items) = item.bytes ++ keyboard items := by
  obtain ⟨byte,plain,rfl⟩ := Item.eq_data isData
  exact reduce_cons fun cr => single (by simpa [Item.isCr] using cr)

variable {items : List Item}

theorem tidy_cons (single : item.isCr → Clear items) (tidy : Tidy items) : Tidy (item :: items) := by
  refine ⟨fun cr => ?_,tidy⟩
  cases items with
  | nil => trivial
  | cons next rest =>
    refine ⟨fun partner => ?_,fun _ => single cr⟩
    obtain ⟨byte,plain,second,rfl⟩ := Item.eq_partner partner
    exact absurd second (not_or.mpr (single cr byte (by simp)))

theorem Tidy.of_append (tidy : Tidy (a ++ b)) : Tidy b := by
  induction a with
  | nil => exact tidy
  | cons item a ih => exact ih tidy.2

def Settled : List Item → List Item → Prop
  | [],_ => True
  | item :: items,rest => item.isData = true ∧ (item.isCr → Clear (items ++ rest)) ∧ Settled items rest

variable {rest : List Item}

theorem Settled.drop (settled : Settled items rest) (n : Nat) : Settled (items.drop n) rest := by
  induction items generalizing n with
  | nil => simpa using settled
  | cons item items ih =>
    cases n with
    | zero => exact settled
    | succ n => exact ih settled.2.2 n

theorem Settled.keyboard (settled : Settled items rest) : keyboard (items ++ rest) = stream items ++ keyboard rest := by
  induction items with
  | nil => rfl
  | cons item items ih =>
    rw [cons_append,keyboard_cons settled.1 settled.2.1,ih settled.2.2,stream_cons,append_assoc]

theorem Settled.data (settled : Settled items rest) : ∀ item ∈ items, item.isData = true := by
  induction items with
  | nil => simp
  | cons item items ih => exact forall_mem_cons.mpr ⟨settled.1,ih settled.2.2⟩

theorem stream_data (data : ∀ item ∈ items, item.isData = true) (n : Nat) :
    (stream items).drop n = stream (items.drop n) ∧ (stream items).take n = stream (items.take n) := by
  induction items generalizing n with
  | nil => simp
  | cons item items ih =>
    have isData := data item (by simp)
    have rest := fun n => ih (forall_mem_cons.mp data).2 n
    cases n with
    | zero => simp
    | succ n =>
      obtain ⟨byte,plain,rfl⟩ := Item.eq_data isData
      exact ⟨(rest n).1,congrArg (byte :: ·) (rest n).2⟩

theorem Settled.tidy (settled : Settled items rest) (tidy : Tidy rest) : Tidy (items ++ rest) := by
  induction items with
  | nil => exact tidy
  | cons item items ih => exact tidy_cons settled.2.1 (ih settled.2.2)

/-- The filter ends between two items that are not a pair. -/
def Apart (done rest : List Item) : Prop :=
  ∀ front cr partner back, done = front ++ [cr] → rest = partner :: back → cr.isCr → ¬ partner.isPartner

theorem Apart.tail (apart : Apart (item :: done) rest) : Apart done rest := by
  intro front cr partner back shape
  exact apart (item :: front) cr partner back (by rw [shape,cons_append])

theorem squeeze_spec (tidy : Tidy (done ++ rest)) (apart : Apart done rest) :
    Settled (squeeze done) rest ∧ keyboard (done ++ rest) = stream (squeeze done) ++ keyboard rest ∧
      (dataOf (squeeze done ++ rest)).head? = (dataOf (done ++ rest)).head? := by
  fun_induction squeeze done with
  | case1 => exact ⟨trivial,rfl,rfl⟩
  | case2 item isData next items pair ih =>
    obtain ⟨settled,same,first⟩ := ih tidy.2.2 apart.tail.tail
    rw [Bool.and_eq_true] at pair
    have clear : Clear (items ++ rest) := (tidy.1 pair.1).1 pair.2
    refine ⟨⟨isData,fun _ => ?_,settled⟩,?_,?_⟩
    · intro byte here
      exact clear byte (first ▸ here)
    · obtain ⟨plain,rfl⟩ := Item.eq_cr pair.1
      obtain ⟨partner,other,second,rfl⟩ := Item.eq_partner pair.2
      rw [stream_cons,append_assoc,← same]
      exact reduce_pair _ second
    · rw [cons_append,cons_append,dataOf_data isData,dataOf_data isData]
      cases item <;> simp [Item.bytes,Item.isData] at isData ⊢
  | case3 item isData next items single ih =>
    obtain ⟨settled,same,first⟩ := ih tidy.2 apart.tail
    have clear : item.isCr → Clear (next :: items ++ rest) := fun cr => (tidy.1 cr).2 fun partner =>
      single (by rw [Bool.and_eq_true]; exact ⟨cr,partner⟩)
    refine ⟨⟨isData,fun cr byte here => clear cr byte (first ▸ here),settled⟩,?_,?_⟩
    · rw [cons_append,keyboard_cons isData clear,same,stream_cons,append_assoc]
    · rw [cons_append,cons_append,dataOf_data isData,dataOf_data isData]
      cases item <;> simp [Item.bytes,Item.isData] at isData ⊢
  | case4 item isData =>
    have clear : item.isCr → Clear rest := by
      intro cr
      cases rest with
      | nil => simp [Clear,dataOf]
      | cons next rest => exact (tidy.1 cr).2 (apart [] item next rest rfl rfl cr)
    exact ⟨⟨isData,clear,trivial⟩,by rw [singleton_append,keyboard_cons isData clear]; simp,rfl⟩
  | case5 item items sequence ih =>
    obtain ⟨settled,same,first⟩ := ih tidy.2 apart.tail
    refine ⟨settled,?_,?_⟩
    · rw [← same,keyboard,cons_append,dataOf_sequence sequence,keyboard]
    · rw [first,cons_append,dataOf_sequence sequence]

theorem keyboard_drop_partner (isCr : cr.isCr) (isPartner : partner.isPartner)
    (tidy : Tidy (front ++ cr :: partner :: back)) :
    keyboard (front ++ cr :: partner :: back) = keyboard (front ++ cr :: back) ∧ Tidy (front ++ cr :: back) := by
  have here := Tidy.of_append tidy
  have clear : Clear back := (here.1 isCr).1 isPartner
  obtain ⟨plain,rfl⟩ := Item.eq_cr isCr
  obtain ⟨byte,other,second,rfl⟩ := Item.eq_partner isPartner
  constructor
  · simp only [keyboard,dataOf_append,dataOf_byte]
    rw [reduce_append_cr,reduce_append_cr,reduce_pair _ second,reduce_cons fun _ => clear]
  have last : Tidy (.data 13 plain :: back) := tidy_cons (fun _ => clear) here.2.2
  have first : ∀ items rest, (dataOf (items ++ Item.data 13 plain :: rest)).head?
      = (dataOf (items ++ [Item.data 13 plain])).head? := by
    intro items rest
    simp
  induction front with
  | nil => exact last
  | cons item front ih =>
    refine ⟨fun cr => ?_,ih tidy.2⟩
    cases front with
    | nil => simp [Item.isPartner,Clear]
    | cons next front =>
      obtain ⟨paired,alone⟩ := tidy.1 cr
      constructor
      · intro partner byte here
        exact paired partner byte (((first front _).trans (first front back).symm).trans here)
      · intro other byte here
        exact alone other byte (((first (next :: front) _).trans (first (next :: front) back).symm).trans here)

end Stablebox.Telnetd
