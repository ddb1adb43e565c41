import Stablebox.Udhcp.OptionScan

/-! Options in the `file` and `sname` fields: what an overload option asks for, and what `get_option` makes of it. -/
namespace Stablebox.Udhcp

open DhcpMessage List Option Memory UInt8

/-! ### Lists of options -/

/-- What stands in an option field in front of its end. -/
inductive Item where
  | padding
  | option (code : UInt8) (data : List UInt8) (notPadding : code ≠ dhcpPadding) (notEnd : code ≠ dhcpEnd)
      (short : data.length < 256)

namespace Item

def bytes : Item → List UInt8
  | padding => [dhcpPadding]
  | option code data _ _ _ => code :: ofNat data.length :: data

def HasCode (code : UInt8) : Item → Prop
  | padding => False
  | option own _ _ _ _ => own = code

instance (code : UInt8) (item : Item) : Decidable (item.HasCode code) :=
  match item with
  | padding => inferInstanceAs (Decidable False)
  | option own _ _ _ _ => inferInstanceAs (Decidable (own = code))

def text (items : List Item) : List UInt8 := items.flatMap bytes

def find (code : UInt8) : List Item → (place : Nat) → Option Nat
  | [],_ => none
  | item :: rest,place => if item.HasCode code then some (place + 2) else find code rest (place + item.bytes.length)

theorem find_append (code : UInt8) (items more : List Item) (place : Nat) :
    find code (items ++ more) place = (find code items place).or (find code more (place + (text items).length)) := by
  induction items generalizing place with
  | nil => rfl
  | cons item items ih =>
    simp only [cons_append,find]
    split
    · rfl
    · rw [ih]
      simp [text,add_assoc]

/-- The list stands in a field, with an end behind it. -/
structure Fills (p : DhcpMessage) (area : OptionArea) (items : List Item) : Prop where
  here : p.get area.base (text items).length = text items
  ends : p (area.base + (text items).length) = dhcpEnd
  inside : (text items).length < area.size

end Item

open Item

def overloadItem (value : UInt8) : Item := .option dhcpOptionOver [value] (by decide) (by decide) (by simp)

/-- A packet with one overload option in its options field, and with lists of options in the fields that are used by
its value. -/
structure Overloaded (p : DhcpMessage) where
  front : List Item
  value : UInt8
  rest : List Item
  file : List Item
  sname : List Item
  values : value = 1 ∨ value = 2 ∨ value = 3
  single : ∀ item ∈ front ++ rest, ¬ item.HasCode dhcpOptionOver
  options : Fills p .options (front ++ overloadItem value :: rest)
  fileUsed : value &&& fileField ≠ 0 → Fills p .file file
  snameUsed : value &&& snameField ≠ 0 → Fills p .sname sname

namespace Overloaded

variable {p : DhcpMessage} (o : Overloaded p)

def inOptions (code : UInt8) : Option Nat := find code (o.front ++ overloadItem o.value :: o.rest) optionsAt

def inFile (code : UInt8) : Option Nat := if o.value &&& fileField ≠ 0 then find code o.file fileAt else none

def inSname (code : UInt8) : Option Nat := if o.value &&& snameField ≠ 0 then find code o.sname snameAt else none

def wanted (code : UInt8) : Option Nat := ((o.inOptions code).or (o.inFile code)).or (o.inSname code)

/-- The byte that `get_option` takes for the value: the one behind it. -/
def taken : UInt8 := (text o.rest ++ [dhcpEnd]).getD 0 0

/-- The second byte of the field is the length of the overload option, the byte behind its value asks for no field that
the value does not ask for, and there are no further overload options in the other fields. -/
structure Aligned : Prop where
  skip : p (optionsAt + 1) = 1
  file : o.taken &&& fileField ≠ 0 → o.value &&& fileField ≠ 0
  sname : o.taken &&& snameField ≠ 0 → o.value &&& snameField ≠ 0
  fileSimple : ∀ item ∈ o.file, ¬ item.HasCode dhcpOptionOver
  snameSimple : ∀ item ∈ o.sname, ¬ item.HasCode dhcpOptionOver

/-- The option is only in a field that the byte behind the value does not ask for, or in `sname` while `file` is
skipped. -/
def Missed (code : UInt8) : Prop :=
  o.inOptions code = none ∧
    ((o.inFile code ≠ none ∧ o.taken &&& fileField = 0) ∨
      (o.inFile code = none ∧ o.inSname code ≠ none ∧ (o.taken &&& fileField = 0 ∨ o.taken &&& snameField = 0)))

end Overloaded

/-! ### The scan over a list -/

namespace Scan

theorem get_append {p : DhcpMessage} {first second : List UInt8}
    (here : p.get place (first ++ second).length = first ++ second) :
    p.get place first.length = first ∧ p.get (place + first.length) second.length = second := by
  rw [length_append,get_add] at here
  exact append_inj here (by simp)

theorem yields_items {p : DhcpMessage} {area : OptionArea} {overload : UInt8} (items : List Item) (i : Nat)
    (here : p.get (area.base + i) (text items).length = text items) (inside : i + (text items).length < area.size)
    (notPadding : code ≠ dhcpPadding) (simple : ∀ item ∈ items, ¬ item.HasCode dhcpOptionOver ∨ item.HasCode code)
    (found : ∀ data, find code items (area.base + i) = some data → result = some data)
    (behind : find code items (area.base + i) = none →
      Yields (step p code) ⟨area,i + (text items).length,overload⟩ result) :
    Yields (step p code) ⟨area,i,overload⟩ result := by
  induction items generalizing i with
  | nil => exact behind rfl
  | cons item items ih =>
    have split : text (item :: items) = item.bytes ++ text items := rfl
    rw [split] at here inside behind
    obtain ⟨start,more⟩ := get_append here
    rw [length_append] at inside behind
    cases item with
    | padding =>
      have code0 : p (area.base + i) = dhcpPadding := by
        simpa using (get_eq_iff p _ [dhcpPadding]).1 start 0 (by simp)
      have goes : step p code ⟨area,i,overload⟩ = .inl ⟨area,i + 1,overload⟩ := by
        simp [step,turn,byte,code0,notPadding.symm,not_le.2 (show i < area.size by omega)]
      refine .of_next goes (ih (i + 1) more ?_ (forall_mem_cons.mp simple).2 found ?_)
      · simp only [bytes,length_singleton] at inside
        omega
      · intro none
        have rest := behind none
        simpa [bytes,add_assoc] using rest
    | option own data notPad notEnd short =>
      have stands := (get_eq_iff p _ (own :: ofNat data.length :: data)).1 start
      have code0 : p (area.base + i) = own := stands 0 (by simp)
      have length : p (area.base + (i + 1)) = ofNat data.length := stands 1 (by simp)
      have size : (p (area.base + (i + 1))).toNat = data.length := by
        rw [length,toNat_ofNat_of_lt' short]
      have bound : i + (data.length + 2) < area.size := by
        simp only [bytes,length_cons] at inside
        omega
      by_cases same : own = code
      · have done : step p code ⟨area,i,overload⟩ = .inr (some (area.base + i + 2)) := by
          simp [step,turn,byte,code0,same,size,not_le.2 (show i < area.size by omega),
            not_le.2 (show i + 1 + data.length < area.size by omega)]
        rw [found (area.base + i + 2) (by simp [find,HasCode,same])]
        exact .of_done done
      · have other : own ≠ dhcpOptionOver := by
          rcases simple _ mem_cons_self with other | searched
          · exact other
          · exact absurd searched same
        have goes : step p code ⟨area,i,overload⟩ = .inl ⟨area,i + (data.length + 2),overload⟩ := by
          simp [step,turn,byte,code0,same,notPad,notEnd,other,size,add_comm 1,not_le.2 (show i < area.size by omega)]
        have skipped : find code (.option own data notPad notEnd short :: items) (area.base + i) =
            find code items (area.base + (i + (data.length + 2))) := by
          simp [find,HasCode,same,bytes,add_assoc]
        rw [skipped] at found behind
        refine .of_next goes (ih (i + (data.length + 2)) ?_ ?_
          (forall_mem_cons.mp simple).2 found ?_)
        · rw [← add_assoc]
          exact more
        · simp only [bytes,length_cons] at inside
          omega
        · intro none
          have rest := behind none
          simpa [bytes,add_assoc] using rest

theorem step_end {area : OptionArea} {i : Nat} (overload : UInt8) (ends : p (area.base + i) = dhcpEnd)
    (inside : i < area.size) (notEnd : code ≠ dhcpEnd) :
    step p code ⟨area,i,overload⟩ =
      if area = .options ∧ overload &&& fileField ≠ 0 then .inl ⟨.file,0,overload⟩
      else if area = .file ∧ overload &&& snameField ≠ 0 then .inl ⟨.sname,0,overload⟩
      else .inr none := by
  have codes : dhcpEnd ≠ dhcpPadding ∧ dhcpEnd ≠ dhcpOptionOver := by decide
  simp only [step,turn,byte,optCode,add_zero,ends,notEnd.symm,codes,not_le.2 inside,ge_iff_le,if_false,if_true]
  split
  · rfl
  · split <;> rfl

theorem yields_sname {code overload : UInt8} (fills : Fills p .sname items) (notPadding : code ≠ dhcpPadding)
    (notEnd : code ≠ dhcpEnd) (simple : ∀ item ∈ items, ¬ item.HasCode dhcpOptionOver) :
    Yields (step p code) ⟨.sname,0,overload⟩ (find code items snameAt) := by
  refine yields_items items 0 fills.here (by simpa using fills.inside) notPadding
    (fun item mem => .inl (simple item mem))
    (fun data found => found) (fun none => .of_done ?_)
  have last := step_end overload fills.ends fills.inside notEnd
  rw [zero_add,last]
  exact congrArg Sum.inr none.symm

theorem yields_file {code overload : UInt8} (fills : Fills p .file items)
    (next : overload &&& snameField ≠ 0 → Fills p .sname behind) (notPadding : code ≠ dhcpPadding)
    (notEnd : code ≠ dhcpEnd) (simple : ∀ item ∈ items, ¬ item.HasCode dhcpOptionOver)
    (simpleNext : ∀ item ∈ behind, ¬ item.HasCode dhcpOptionOver) :
    Yields (step p code) ⟨.file,0,overload⟩
      ((find code items fileAt).or (if overload &&& snameField ≠ 0 then find code behind snameAt else none)) := by
  refine yields_items items 0 fills.here (by simpa using fills.inside) notPadding
    (fun item mem => .inl (simple item mem))
    (fun data found => ?_) (fun none => ?_)
  · change find code items fileAt = some data at found
    rw [found]
    rfl
  · change find code items fileAt = .none at none
    have last := step_end overload fills.ends fills.inside notEnd
    rw [none,zero_add,none_or]
    by_cases used : overload &&& snameField ≠ 0
    · have moves : step p code ⟨.file,(text items).length,overload⟩ = .inl ⟨.sname,0,overload⟩ := by simp [last,used]
      rw [if_pos used]
      exact .of_next moves (yields_sname (next used) notPadding notEnd simpleNext)
    · exact .of_done (last.trans (by simp [used]))

end Scan

namespace Overloaded

open Scan

variable {p : DhcpMessage} (o : Overloaded p) (code : UInt8)

theorem parts : p.get optionsAt (text o.front).length = text o.front ∧
    p.get (optionsAt + (text o.front).length) 3 = [dhcpOptionOver,1,o.value] ∧
    p.get (optionsAt + ((text o.front).length + 3)) (text o.rest).length = text o.rest ∧
    p (optionsAt + ((text o.front).length + 3 + (text o.rest).length)) = dhcpEnd ∧
    (text o.front).length + 3 + (text o.rest).length < 308 := by
  have whole : text (o.front ++ overloadItem o.value :: o.rest) =
      text o.front ++ ([dhcpOptionOver,1,o.value] ++ text o.rest) := by
    simp [text,overloadItem,bytes]
  have here := o.options.here
  have ends := o.options.ends
  have inside := o.options.inside
  rw [whole] at here ends inside
  obtain ⟨front,more⟩ := get_append here
  obtain ⟨option,rest⟩ := get_append more
  simp only [length_append,length_cons,length_nil] at ends inside
  refine ⟨front,option,?_,?_,?_⟩
  · exact rest
  · rw [add_assoc (text o.front).length]
    exact ends
  · rw [add_assoc]
    exact inside

theorem taken_eq : p (optionsAt + ((text o.front).length + 3)) = o.taken := by
  obtain ⟨_,_,rest,ends,_⟩ := o.parts
  unfold taken
  cases empty : text o.rest with
  | nil =>
    rw [empty] at ends
    exact ends
  | cons first more =>
    rw [empty] at rest
    exact (get_eq_iff p _ (first :: more)).1 rest 0 (by simp)

theorem step_overload (other : code ≠ dhcpOptionOver) :
    step p code ⟨.options,(text o.front).length,0⟩ =
      .inl ⟨.options,(text o.front).length + ((p (optionsAt + 1)).toNat + 2),o.taken⟩ := by
  obtain ⟨_,option,_,_,inside⟩ := o.parts
  have stands := (get_eq_iff p _ [dhcpOptionOver,1,o.value]).1 option
  have first : p (optionsAt + (text o.front).length) = dhcpOptionOver := stands 0 (by simp)
  have second : p (optionsAt + ((text o.front).length + 1)) = 1 := stands 1 (by simp)
  have codes : dhcpOptionOver ≠ dhcpPadding := by decide
  have room : ¬ 308 ≤ (text o.front).length ∧ ¬ 308 ≤ (text o.front).length + 1 + 1 := by omega
  simp [step,turn,byte,OptionArea.base,OptionArea.size,first,second,other.symm,codes,o.taken_eq,room]

theorem inOptions_eq (other : code ≠ dhcpOptionOver) : o.inOptions code =
    (find code o.front optionsAt).or (find code o.rest (optionsAt + ((text o.front).length + 3))) := by
  have skipped : find code (overloadItem o.value :: o.rest) (optionsAt + (text o.front).length) =
      find code o.rest (optionsAt + (text o.front).length + 3) := by
    simp [find,overloadItem,HasCode,bytes,other.symm]
  rw [inOptions,find_append,skipped,add_assoc]

theorem yields_front {result : Option Nat} (notPadding : code ≠ dhcpPadding)
    (found : ∀ data, find code o.front optionsAt = some data → result = some data)
    (behind : find code o.front optionsAt = none →
      Yields (step p code) ⟨.options,(text o.front).length,0⟩ result) :
    Yields (step p code) first result := by
  obtain ⟨front,_,_,_,inside⟩ := o.parts
  refine yields_items o.front 0 front ?_ notPadding
    (fun item mem => .inl (o.single item (mem_append_left _ mem))) found ?_
  · change 0 + (text o.front).length < 308
    omega
  · rw [zero_add]
    exact behind

/-- What `get_option` finds in an aligned packet. -/
def got : Option Nat :=
  (o.inOptions code).or
    (if o.taken &&& fileField ≠ 0 then
      (find code o.file fileAt).or (if o.taken &&& snameField ≠ 0 then find code o.sname snameAt else none)
    else none)

theorem yields_got (aligned : o.Aligned) (notPadding : code ≠ dhcpPadding) (notEnd : code ≠ dhcpEnd)
    (other : code ≠ dhcpOptionOver) : Yields (step p code) first (o.got code) := by
  obtain ⟨_,_,rest,ends,inside⟩ := o.parts
  unfold got
  rw [o.inOptions_eq code other]
  refine o.yields_front code notPadding (fun data found => by rw [found]; rfl) (fun none => ?_)
  have jump := o.step_overload code other
  rw [aligned.skip] at jump
  rw [none,none_or]
  refine .of_next jump (yields_items o.rest ((text o.front).length + 3) rest inside notPadding
    (fun item mem => .inl (o.single item (mem_append_right _ mem))) (fun data found => ?_) (fun none => ?_))
  · change find code o.rest (optionsAt + ((text o.front).length + 3)) = some data at found
    rw [found]
    rfl
  · change find code o.rest (optionsAt + ((text o.front).length + 3)) = .none at none
    have last : step p code ⟨.options,(text o.front).length + 3 + (text o.rest).length,o.taken⟩ = _ :=
      step_end o.taken ends inside notEnd
    rw [none,none_or]
    by_cases used : o.taken &&& fileField ≠ 0
    · have moves : step p code ⟨.options,(text o.front).length + 3 + (text o.rest).length,o.taken⟩ =
          .inl ⟨.file,0,o.taken⟩ := by simp [last,used]
      rw [if_pos used]
      exact .of_next moves (yields_file (o.fileUsed (aligned.file used))
        (fun set => o.snameUsed (aligned.sname set)) notPadding notEnd aligned.fileSimple aligned.snameSimple)
    · exact .of_done (last.trans (by simp [used]))

theorem got_eq_wanted_iff (aligned : o.Aligned) : o.got code = o.wanted code ↔ ¬ o.Missed code := by
  unfold got wanted Missed
  cases o.inOptions code with
  | some data => simp
  | none =>
    by_cases file : o.taken &&& fileField = 0
    · cases o.inFile code <;> cases o.inSname code <;> simp [file]
    have here : find code o.file fileAt = o.inFile code := by simp [inFile,aligned.file file]
    by_cases sname : o.taken &&& snameField = 0
    · rw [here]
      cases o.inFile code <;> cases o.inSname code <;> simp [file,sname]
    · have there : find code o.sname snameAt = o.inSname code := by simp [inSname,aligned.sname sname]
      rw [here,there]
      cases o.inFile code <;> cases o.inSname code <;> simp [file,sname]

theorem find_ne_none (mem : item ∈ items) (has : item.HasCode code) (place : Nat) :
    ∃ data, find code items place = some data := by
  induction items generalizing place with
  | nil => cases mem
  | cons head items ih =>
    by_cases here : head.HasCode code
    · exact ⟨place + 2,if_pos here⟩
    rcases mem_cons.1 mem with rfl | behind
    · exact absurd has here
    · obtain ⟨data,found⟩ := ih behind (place + head.bytes.length)
      exact ⟨data,(if_neg here).trans found⟩

/-- An option in front of the overload option is found, and so is that option itself. In an aligned packet the first
occurrence of every other option is found if and only if it is not missed. -/
theorem getOption_overloaded (notPadding : code ≠ dhcpPadding) (notEnd : code ≠ dhcpEnd) :
    ((code = dhcpOptionOver ∨ ∃ item ∈ o.front, item.HasCode code) → getOption p code = o.wanted code) ∧
      (o.Aligned → (getOption p code = o.wanted code ↔ ¬ o.Missed code)) := by
  have early : (code = dhcpOptionOver ∨ ∃ item ∈ o.front, item.HasCode code) →
      Yields (step p code) first (o.inOptions code) ∧ ∃ data, o.inOptions code = some data := by
    rintro (rfl | ⟨item,mem,has⟩)
    · have searched : ∀ item ∈ o.front ++ overloadItem o.value :: o.rest,
          ¬ item.HasCode dhcpOptionOver ∨ item.HasCode dhcpOptionOver := fun item _ => (em _).symm
      have own : (overloadItem o.value).HasCode dhcpOptionOver := rfl
      have given : ∃ data, o.inOptions dhcpOptionOver = some data :=
        find_ne_none dhcpOptionOver (mem_append_right _ (.head _)) own _
      refine ⟨yields_items _ 0 o.options.here (by simpa using o.options.inside) notPadding searched
        (fun data found => found) (fun none => ?_),given⟩
      obtain ⟨data,found⟩ := given
      exact absurd (found.symm.trans none) (some_ne_none data)
    · obtain ⟨data,found⟩ := find_ne_none code mem has optionsAt
      have whole : o.inOptions code = some data := by
        rw [inOptions,find_append,found]
        rfl
      refine ⟨o.yields_front code notPadding (fun other same => ?_) (fun none => ?_),data,whole⟩
      · exact whole.trans (found.symm.trans same)
      · exact absurd (found.symm.trans none) (some_ne_none data)
  have front : (code = dhcpOptionOver ∨ ∃ item ∈ o.front, item.HasCode code) →
      getOption p code = o.inOptions code ∧ ∃ data, o.inOptions code = some data :=
    fun is => ⟨(getOption_yields p code).unique (early is).1,(early is).2⟩
  refine ⟨fun is => ?_,fun aligned => ?_⟩
  · obtain ⟨same,data,found⟩ := front is
    rw [same,wanted,found]
    rfl
  · by_cases overload : code = dhcpOptionOver
    · obtain ⟨same,data,found⟩ := front (.inl overload)
      have none : ¬ o.Missed code := fun missed => some_ne_none data (found.symm.trans missed.1)
      refine ⟨fun _ => none,fun _ => ?_⟩
      rw [same,wanted,found]
      rfl
    · rw [(getOption_yields p code).unique (o.yields_got code aligned notPadding notEnd overload)]
      exact o.got_eq_wanted_iff code aligned

def addressItem : Item := .option dhcpRequestedIp [192,168,0,7] (by decide) (by decide) (by decide)

def routerItem : Item := .option 0x03 [192,168,0,1] (by decide) (by decide) (by decide)

def hostNameItem : Item := .option 0x0c [0x61,0x62] (by decide) (by decide) (by decide)

def firstPacket : DhcpMessage :=
  put (put (put (fun _ => 0) optionsAt [52,1,3,3,4,192,168,0,1,255]) fileAt
    [50,4,192,168,0,7,255]) snameAt [255]

def firstOverloaded : Overloaded firstPacket where
  front := []
  value := 3
  rest := [routerItem]
  file := [addressItem]
  sname := []
  values := by decide
  single := by decide
  options := ⟨by decide,by decide,by decide⟩
  fileUsed := fun _ => ⟨by decide,by decide,by decide⟩
  snameUsed := fun _ => ⟨by decide,by decide,by decide⟩

theorem getOption_overloaded_first :
    getOption firstPacket dhcpRequestedIp = firstOverloaded.wanted dhcpRequestedIp ↔
      ¬ firstOverloaded.Missed dhcpRequestedIp :=
  (getOption_overloaded firstOverloaded dhcpRequestedIp (by decide) (by decide)).2
    ⟨by decide,by decide,by decide,by decide,by decide⟩

def laterPacket : DhcpMessage :=
  put (put (fun _ => 0) optionsAt [12,2,0x61,0x62,52,1,1,255]) fileAt [50,4,192,168,0,7,255]

def laterOverloaded : Overloaded laterPacket where
  front := [hostNameItem]
  value := 1
  rest := []
  file := [addressItem]
  sname := []
  values := by decide
  single := by decide
  options := ⟨by decide,by decide,by decide⟩
  fileUsed := fun _ => ⟨by decide,by decide,by decide⟩
  snameUsed := fun used => absurd used (by decide)

def snamePacket : DhcpMessage :=
  put (put (fun _ => 0) optionsAt [52,1,2,255]) snameAt [50,4,192,168,0,7,255]

def snameOverloaded : Overloaded snamePacket where
  front := []
  value := 2
  rest := []
  file := []
  sname := [addressItem]
  values := by decide
  single := by decide
  options := ⟨by decide,by decide,by decide⟩
  fileUsed := fun used => absurd used (by decide)
  snameUsed := fun _ => ⟨by decide,by decide,by decide⟩

/-- Neither address is found. -/
theorem overloaded_not_found :
    (laterOverloaded.wanted dhcpRequestedIp = some (fileAt + 2) ∧ getOption laterPacket dhcpRequestedIp = none) ∧
      snameOverloaded.wanted dhcpRequestedIp = some (snameAt + 2) ∧ getOption snamePacket dhcpRequestedIp = none := by
  decide +kernel

end Overloaded

end Stablebox.Udhcp
