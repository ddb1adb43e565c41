import Stablebox.Udhcp.PacketFields

/-! Calls of `add_option_string` and `add_simple_option` on a fresh packet, with the values they
return, and what `get_option` finds afterwards. -/
namespace Stablebox.Udhcp

open DhcpMessage List Option UInt8

def addOptionStringResult (p : DhcpMessage) (optionptr : Nat) (string : List UInt8) : Nat :=
  let last := endOption fun i => p (optionptr + i)
  let len := (string.getD optLen 0).toNat
  if last + len + 2 + 1 ≥ 308 then 0 else len + 2

def addSimpleOptionResult (e : Endian) (p : DhcpMessage) (code : UInt8) (data : UInt32) : Nat :=
  match dhcpOptions.lookup code with
  | none => 0
  | some kind =>
    let data := if e = .big then data <<< UInt32.ofNat (8 * (4 - kind.length)) else data
    addOptionStringResult p optionsAt (code :: ofNat kind.length :: Endian.split32 e data)

structure PlainCode where
  code : UInt8
  padding : code ≠ dhcpPadding
  overload : code ≠ dhcpOptionOver
  finish : code ≠ dhcpEnd

inductive OptionCall where
  | string (code : PlainCode) (data : List UInt8) (short : data.length < 256)
  | simple (code : PlainCode) (data : UInt32)

def optionString (code : UInt8) (data : List UInt8) : List UInt8 := code :: ofNat data.length :: data

namespace OptionCall

variable (e : Endian)

def apply (p : DhcpMessage) : OptionCall → DhcpMessage
  | string code data _ => addOptionString p optionsAt (optionString code.code data)
  | simple code data => addSimpleOption e p code.code data

def result (p : DhcpMessage) : OptionCall → Nat
  | string code data _ => addOptionStringResult p optionsAt (optionString code.code data)
  | simple code data => addSimpleOptionResult e p code.code data

def code : OptionCall → PlainCode
  | string code _ _ => code
  | simple code _ => code

/-- The data of the option; a code that is not in `dhcp_options` has no simple option. -/
def data : OptionCall → Option (List UInt8)
  | string _ data _ => some data
  | simple code data =>
    (dhcpOptions.lookup code.code).map fun kind =>
      (Endian.split32 e (if e = .big then data <<< UInt32.ofNat (8 * (4 - kind.length)) else data)).take
        kind.length

end OptionCall

def addOptions (e : Endian) (p : DhcpMessage) (calls : List OptionCall) : DhcpMessage :=
  calls.foldl (fun p call => call.apply e p) p

def additions (e : Endian) : DhcpMessage → List OptionCall → List (UInt8 × List UInt8)
  | _,[] => []
  | p,call :: calls =>
    (if call.result e p = 0 then [] else [(call.code.code,(call.data e).getD [])]) ++
      additions e (call.apply e p) calls

def optionData (p : DhcpMessage) (code : UInt8) : Option (List UInt8) :=
  (getOption p code).map fun data => p.get data (p (data - 1)).toNat

/-! The list of options. -/

structure Listed (opt : UInt8 × List UInt8) : Prop where
  padding : opt.1 ≠ dhcpPadding
  overload : opt.1 ≠ dhcpOptionOver
  finish : opt.1 ≠ dhcpEnd
  short : opt.2.length < 256

def listing (opts : List (UInt8 × List UInt8)) : List (List UInt8) :=
  opts.map fun opt => optionString opt.1 opt.2

/-- The field is the list of the options and the end option, within its 308 bytes. -/
structure Field (p : DhcpMessage) (opts : List (UInt8 × List UInt8)) : Prop where
  listed : ∀ opt ∈ opts, Listed opt
  holds : Holds p (listing opts)
  inside : (listing opts).flatten.length < 308

theorem optionString_length (code : UInt8) (data : List UInt8) :
    (optionString code data).length = data.length + 2 := rfl

theorem optionString_len (code : UInt8) (short : data.length < 256) :
    ((optionString code data).getD optLen 0).toNat = data.length := by
  simp [optionString,Nat.mod_eq_of_lt short]

theorem Listed.wellFormed (listed : Listed opt) : WellFormed (optionString opt.1 opt.2) := by
  refine ⟨?_,listed.padding,listed.finish⟩
  rw [optionString_len _ listed.short,optionString_length]

variable {p : DhcpMessage} {opts : List (UInt8 × List UInt8)}

theorem Field.wellFormed (field : Field p opts) : ∀ opt ∈ listing opts, WellFormed opt :=
  forall_mem_map.mpr fun opt member => (field.listed opt member).wellFormed

theorem length_le_flatten (opts : List (UInt8 × List UInt8)) :
    2 * (listing opts).length ≤ (listing opts).flatten.length := by
  induction opts with
  | nil => exact le_refl 0
  | cons opt opts ih =>
    simp only [listing,map_cons,length_cons,flatten_cons,length_append,optionString_length] at ih ⊢
    omega

theorem Field.few (field : Field p opts) : (listing opts).length ≤ 153 := by
  have := length_le_flatten opts
  have := field.inside
  omega

theorem Field.endOption (field : Field p opts) :
    endOption (fun i => p (optionsAt + i)) = (listing opts).flatten.length :=
  endOption_holds field.wellFormed (le_trans field.few (by decide)) field.holds

theorem addOptionString_text (p : DhcpMessage) (listed : Listed opt)
    (length : (string.getD optLen 0).toNat = opt.2.length)
    (text : string.take (opt.2.length + 2) = optionString opt.1 opt.2) :
    addOptionString p optionsAt string = addOptionString p optionsAt (optionString opt.1 opt.2) := by
  have whole : (optionString opt.1 opt.2).take (opt.2.length + 2) = optionString opt.1 opt.2 := by
    rw [← optionString_length opt.1 opt.2,take_length]
  simp only [addOptionString,length,text,optionString_len _ listed.short,whole]

theorem Field.addOptionString (field : Field p opts) (opt : UInt8 × List UInt8) (listed : Listed opt)
    (string : List UInt8) (length : (string.getD optLen 0).toNat = opt.2.length)
    (text : string.take (opt.2.length + 2) = optionString opt.1 opt.2) :
    if (listing opts).flatten.length + (opt.2.length + 2) + 1 < 308 then
      addOptionStringResult p optionsAt string = opt.2.length + 2 ∧
        Field (addOptionString p optionsAt string) (opts ++ [opt])
    else addOptionStringResult p optionsAt string = 0 ∧ addOptionString p optionsAt string = p := by
  have total := optionString_length opt.1 opt.2
  have appended : listing (opts ++ [opt]) = listing opts ++ [optionString opt.1 opt.2] := by simp [listing]
  split
  · constructor
    · simp only [addOptionStringResult,field.endOption,length]
      rw [if_neg (by omega)]
    refine ⟨forall_mem_append.mpr ⟨field.listed,forall_mem_singleton.mpr listed⟩,?_,?_⟩
    · rw [addOptionString_text p listed length text,appended]
      exact addOptionString_holds p _ _ field.wellFormed (le_trans field.few (by decide)) field.holds
        listed.wellFormed (by omega)
    · rw [appended]
      simp only [flatten_append,flatten_singleton,length_append]
      omega
  · constructor
    · simp only [addOptionStringResult,field.endOption,length]
      rw [if_pos (by omega)]
    · simp only [Udhcp.addOptionString,field.endOption,length]
      rw [if_pos (by omega)]

theorem Field.string (field : Field p opts) (e : Endian)
    (code : PlainCode) (data : List UInt8) (short : data.length < 256) :
    if (listing opts).flatten.length + (data.length + 2) + 1 < 308 then
      (OptionCall.string code data short).result e p = data.length + 2 ∧
        Field ((OptionCall.string code data short).apply e p) (opts ++ [(code.code,data)])
    else (OptionCall.string code data short).result e p = 0 ∧
      (OptionCall.string code data short).apply e p = p :=
  field.addOptionString (code.code,data) ⟨code.padding,code.overload,code.finish,short⟩
    (optionString code.code data) (optionString_len _ short)
    (by rw [← optionString_length code.code data,take_length])

theorem dhcpOptions_length (found : dhcpOptions.lookup code = some kind) :
    kind.length ≤ 4 := by
  obtain ⟨before,after,split,-⟩ := lookup_eq_some_iff.mp found
  have all : ∀ entry ∈ dhcpOptions, entry.2.length ≤ 4 := by decide
  exact all (code,kind) (by simp [split])

theorem Field.call (field : Field p opts) (e : Endian) (call : OptionCall) :
    match call.data e with
    | none => call.result e p = 0 ∧ call.apply e p = p
    | some data =>
      if (listing opts).flatten.length + (data.length + 2) + 1 < 308 then
        call.result e p = data.length + 2 ∧ Field (call.apply e p) (opts ++ [(call.code.code,data)])
      else call.result e p = 0 ∧ call.apply e p = p := by
  cases call with
  | string code data short => exact field.string e code data short
  | simple code data =>
    simp only [OptionCall.data,OptionCall.apply,OptionCall.result,addSimpleOption,addSimpleOptionResult]
    cases found : dhcpOptions.lookup code.code with
    | none => exact ⟨rfl,rfl⟩
    | some kind =>
      have small := dhcpOptions_length found
      have taken (word : UInt32) : ((Endian.split32 e word).take kind.length).length = kind.length := by
        simp [small]
      simp only [map_some,OptionCall.code]
      generalize (if e = .big then data <<< UInt32.ofNat (8 * (4 - kind.length)) else data) = word
      refine field.addOptionString (code.code,(Endian.split32 e word).take kind.length) ?_ _ ?_ ?_
      · exact ⟨code.padding,code.overload,code.finish,by simp only [taken]; omega⟩
      · simp only [taken,getD_cons_succ,getD_cons_zero,toNat_ofNat']
        omega
      · simp [optionString,taken]

theorem listing_passed (listed : ∀ opt ∈ opts, Listed opt) (others : ∀ opt ∈ opts, code ≠ opt.1) :
    ∀ opt ∈ listing opts, Passed code opt :=
  forall_mem_map.mpr fun opt member =>
    ⟨(listed opt member).wellFormed,(others opt member).symm,(listed opt member).overload⟩

theorem Field.optionData (field : Field p opts)
    (code : UInt8) (notEnd : code ≠ dhcpEnd) : optionData p code = opts.lookup code := by
  have few := field.few
  have inside := field.inside
  cases found : opts.lookup code with
  | none =>
    have others : ∀ opt ∈ opts, code ≠ opt.1 := fun opt member => by
      simpa using lookup_eq_none_iff.mp found opt member
    have walk := getOptionLoop_begins p (502 - (listing opts).length + 1) 0 (listing_passed field.listed others)
      (by omega) field.holds.1
    rw [show 502 - (listing opts).length + 1 + (listing opts).length = 503 by omega,zero_add] at walk
    have atEnd : getOption p code = none := by
      rw [getOption,walk,getOptionLoop,add_zero,field.holds.2,if_neg (by omega),if_neg notEnd.symm]
      rfl
    rw [Udhcp.optionData,atEnd]
    rfl
  | some data =>
    obtain ⟨before,after,rfl,others⟩ := lookup_eq_some_iff.mp found
    have one : Listed (code,data) := field.listed _ (by simp)
    have whole : (listing (before ++ (code,data) :: after)).flatten =
        (listing before ++ [optionString code data]).flatten ++ (listing after).flatten := by
      simp [listing]
    have front : (listing before ++ [optionString code data]).flatten =
        (listing before).flatten ++ optionString code data := by simp
    have begins := field.holds.1
    rw [Begins,whole,length_append,Memory.get_add] at begins
    rw [whole,front,length_append,length_append] at inside
    rw [listing,map_append,length_append] at few
    obtain ⟨start,-⟩ := append_inj begins (by simp)
    have foundAt := getOption_begins p code (listing before) (optionString code data)
      (listing_passed (fun opt member => field.listed opt (mem_append_left _ member))
        fun opt member => by simpa using others opt member)
      one.wellFormed rfl (by rw [listing]; omega) (by omega) start
    rw [front,length_append,Memory.get_add] at start
    obtain ⟨-,here⟩ := append_inj start (by simp)
    have len := (one.wellFormed.bytes here).2
    rw [optionString_length,add_comm data.length,Memory.get_add] at here
    rw [Udhcp.optionData,foundAt,map_some,show optionsAt + (listing before).flatten.length + 2 - 1 =
      optionsAt + (listing before).flatten.length + 1 by omega,len,optionString_len _ one.short]
    have parts : _ = [code,ofNat data.length] ++ data := here
    exact congrArg some (append_inj parts (by simp)).2

theorem Field.addOptions (field : Field p opts)
    (e : Endian) (calls : List OptionCall) : Field (addOptions e p calls) (opts ++ additions e p calls) := by
  induction calls generalizing p opts with
  | nil => simpa [Udhcp.addOptions,additions] using field
  | cons call calls ih =>
    have one := field.call e call
    rw [Udhcp.addOptions,foldl_cons,← Udhcp.addOptions,additions]
    cases given : call.data e with
    | none =>
      rw [given] at one
      obtain ⟨zero,same⟩ := one
      rw [if_pos zero,same,nil_append]
      exact ih field
    | some data =>
      simp only [given] at one
      split at one
      · rw [one.1,if_neg (Nat.succ_ne_zero _),← append_assoc]
        exact ih one.2
      · rw [one.1,one.2,if_pos rfl,nil_append]
        exact ih field

theorem field_udhcpInitHeader (e : Endian) (type : UInt8) :
    Field (udhcpInitHeader e type) [(dhcpMessageType,[type])] where
  listed := forall_mem_singleton.mpr
    ⟨show dhcpMessageType ≠ dhcpPadding by decide,show dhcpMessageType ≠ dhcpOptionOver by decide,
      show dhcpMessageType ≠ dhcpEnd by decide,show 1 < 256 by decide⟩
  holds := udhcpInitHeader_holds e type
  inside := by simp [listing,optionString]

/-- A run of calls: the field stays a list of options, a call that returns 0 changes nothing, and every
code has the data it was first given. The message type is the first addition. -/
theorem options_roundtrip (e : Endian) (type : UInt8) (calls : List OptionCall) :
    let p := addOptions e (udhcpInitHeader e type) calls
    let opts := (dhcpMessageType,[type]) :: additions e (udhcpInitHeader e type) calls
    Field p opts ∧
    (∀ call : OptionCall, (call.result e p = 0 → call.apply e p = p) ∧
      (call.data e = none → call.result e p = 0) ∧
      ∀ data, call.data e = some data →
        (308 < (listing opts).flatten.length + (data.length + 2) + 1 → call.result e p = 0) ∧
        ((listing opts).flatten.length + (data.length + 2) + 1 < 308 →
          call.result e p = data.length + 2)) ∧
    ∀ code, code ≠ dhcpEnd → optionData p code = opts.lookup code := by
  intro p opts
  have field : Field p opts := (field_udhcpInitHeader e type).addOptions e calls
  refine ⟨field,?_,fun code notEnd => field.optionData code notEnd⟩
  intro call
  have one := field.call e call
  cases given : call.data e with
  | none =>
    rw [given] at one
    exact ⟨fun _ => one.2,fun _ => one.1,fun data given => (some_ne_none data given.symm).elim⟩
  | some data =>
    simp only [given] at one
    refine ⟨?_,(fun missing => (some_ne_none data missing).elim),?_⟩
    · intro zero
      split at one
      · exact absurd (one.1.symm.trans zero) (Nat.succ_ne_zero _)
      · exact one.2
    · rintro _ ⟨⟩
      split at one
      · exact ⟨fun tooLong => by omega,fun _ => one.1⟩
      · exact ⟨fun _ => one.1,fun room => by omega⟩

theorem hostName_padding : (0x0c : UInt8) ≠ dhcpPadding := by decide

theorem hostName_end : (0x0c : UInt8) ≠ dhcpEnd := by decide

def hostName : PlainCode := ⟨0x0c,hostName_padding,by decide,hostName_end⟩

/-- A host name of an end and a padding byte is read back, and a second one is not. -/
theorem options_roundtrip_hostName :
    optionData (addOptions .big (udhcpInitHeader .big dhcpAck)
      [.string hostName [dhcpEnd,dhcpPadding] (by decide),.string hostName [7] (by decide)]) 0x0c =
        some [dhcpEnd,dhcpPadding] :=
  ((options_roundtrip .big dhcpAck
    [.string hostName [dhcpEnd,dhcpPadding] (by decide),.string hostName [7] (by decide)]).2.2 0x0c
      (by decide)).trans (by decide +kernel)

/-- A second option whose end option would be the last byte of the field. -/
theorem last_byte_unused (e : Endian) (type : UInt8) (first second : List UInt8) (firstShort : first.length < 256)
    (secondShort : second.length < 256) (n : Nat) (long : second.length = n) (together : first.length + n = 300) :
    let filled := (OptionCall.string hostName first firstShort).apply e (udhcpInitHeader e type)
    endOption (fun i => filled (optionsAt + i)) + (n + 2) + 1 = 308 ∧
      (OptionCall.string hostName second secondShort).result e filled = 0 := by
  intro filled
  have start : (listing [(dhcpMessageType,[type])]).flatten.length = 3 := rfl
  have used : (listing ([(dhcpMessageType,[type])] ++ [(hostName.code,first)])).flatten.length =
      first.length + 5 := by
    simp [listing,optionString]
  have one := (field_udhcpInitHeader e type).string e hostName first firstShort
  rw [start,if_pos (by omega)] at one
  have two := one.2.string e hostName second secondShort
  rw [used,if_neg (by omega)] at two
  exact ⟨by rw [one.2.endOption,used]; omega,two.1⟩

/-- The options area has 308 bytes. With 205 of them taken, 102 bytes and the end option would fill it,
but the call is refused; so is a simple option, whatever the room, with a code that is not in `dhcp_options`. -/
theorem fitting_option_refused :
    let fill (n : Nat) (short : n < 256) : OptionCall :=
      .string hostName (replicate n 7) (by rwa [length_replicate])
    let p := udhcpInitHeader .little dhcpAck
    let filled := (fill 200 (by decide)).apply .little p
    endOption (fun i => filled (optionsAt + i)) + (100 + 2) + 1 = 308 ∧
    (fill 100 (by decide)).result .little filled = 0 ∧
    OptionCall.result .little p (.simple ⟨0x64,by decide,by decide,by decide⟩ 0) = 0 := by
  intro fill p filled
  have refused := last_byte_unused .little dhcpAck (replicate 200 7) (replicate 100 7)
    (by rw [length_replicate]; decide) (by rw [length_replicate]; decide)
    100 length_replicate (by rw [length_replicate])
  exact ⟨refused.1,refused.2,rfl⟩

end Stablebox.Udhcp
