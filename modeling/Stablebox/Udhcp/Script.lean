import Stablebox.Lib.Digits
import Stablebox.Libbb.GetLine
import Stablebox.Udhcp.Message

/-! The environment of the notification scripts (script.c): how the options of a packet are rendered, how much room is
allocated for each, and which bytes of the packet are read. -/
namespace Stablebox.Udhcp.Script

open DhcpMessage Libbb List Digits Nat

/-! ### `fill_envp` -/

/-- What the host decides: the order of bytes, and whether a `long` has 64 bits. -/
structure Host where
  endian : Endian
  wide : Bool

/-- `max_option_length`; every text has a blank and a null byte behind it. -/
def maxOptionLength : OptionType → Nat
  | .ip => (text "255.255.255.255 ").length + 1
  | .ipPair => ((text "255.255.255.255 ").length + 1) * 2
  | .string => 1
  | .boolean => (text "yes ").length + 1
  | .u8 => (text "255 ").length + 1
  | .u16 => (text "65535 ").length + 1
  | .s16 => (text "-32768 ").length + 1
  | .u32 => (text "4294967295 ").length + 1
  | .s32 => (text "-2147483684 ").length + 1

def upperLength (length : Nat) (kind : OptionType) : Nat := maxOptionLength kind * (length / kind.length)

def decimal (n : Nat) : List UInt8 := print 10 1 n

def signed (host : Host) (word : UInt32) : List UInt8 :=
  if host.wide = false ∧ 2 ^ 31 ≤ word.toNat then text "-" ++ decimal (2 ^ 32 - word.toNat) else decimal word.toNat

variable (host : Host) (p : DhcpMessage)

def sprintip (ip : Nat) : List UInt8 :=
  decimal (p ip).toNat ++ text "." ++ decimal (p (ip + 1)).toNat ++ text "." ++ decimal (p (ip + 2)).toNat ++
    text "." ++ decimal (p (ip + 3)).toNat

/-- What one turn of the loop of `fill_options` prints. -/
def renderItem (option : Nat) : OptionType → List UInt8
  | .ipPair => sprintip p option ++ text "/" ++ sprintip p (option + 4)
  | .ip => sprintip p option
  | .boolean => if p option ≠ 0 then text "yes" else text "no"
  | .u8 => decimal (p option).toNat
  | .u16 => decimal (ntohs host.endian (p.load16 host.endian option)).toNat
  | .s16 => decimal (ntohs host.endian (p.load16 host.endian option)).toNat
  | .u32 => decimal (ntohl host.endian (p.load32 host.endian option)).toNat
  | .s32 => signed host (ntohl host.endian (p.load32 host.endian option))
  | .string => []

def optlen : OptionType → Nat
  | .ipPair => 4
  | kind => kind.length

/-- The loop of `fill_options`: the text and the places that are read. -/
def fillLoop (kind : OptionType) : (fuel option len : Nat) → List UInt8 × List Nat
  | 0,_,_ => ([],[])
  | fuel + 1,option,len =>
    let reads := (range kind.length).map (option + ·)
    if len ≤ optlen kind then (renderItem host p option kind,reads)
    else
      let rest := fillLoop kind fuel (option + kind.length) (len - optlen kind)
      (renderItem host p option kind ++ text " " ++ rest.1,reads ++ rest.2)

/-- `fill_options`: all that is written, with the null byte, and the places that are read besides the length. -/
def fillOptions (data : Nat) (option : DhcpOption) : List UInt8 × List Nat :=
  let len := (p (data - 1)).toNat
  match option.kind with
  | .string => (text option.name ++ text "=" ++ p.get data len ++ [0],(range len).map (data + ·))
  | kind =>
    -- `len` is at most 255 and goes down in every turn
    let filled := fillLoop host p kind 256 data len
    (text option.name ++ text "=" ++ filled.1 ++ [0],filled.2)

abbrev dhcpVendoropts : UInt8 := 0x7d

structure Entry where
  option : DhcpOption
  data : Nat
  allocated : Nat
  written : List UInt8
  reads : List Nat

def entry (data : Nat) (option : DhcpOption) : Entry where
  option := option
  data := data
  allocated := upperLength (p (data - 1)).toNat option.kind + (text option.name).length + 2
  written := (fillOptions host p data option).1
  reads := (fillOptions host p data option).2

/-- The loop of `fill_envp` over the supported options. The vendor options go to a file. -/
def fillEnvp : List Entry :=
  dhcpOptionTable.filterMap fun option =>
    match getOption p option.code with
    | none => none
    | some data => if option.code = dhcpVendoropts then none else some (entry host p data option)

/-! ### One item -/

theorem decimal_length {n count : Nat} (positive : 0 < count) (fits : n < 10 ^ count) : (decimal n).length ≤ count := by
  have short : (render 10 n).length ≤ count := (render_length_iff (by decide) positive).mpr fits
  simp only [decimal,print,length_map,length_append,length_replicate]
  omega

theorem decimal_byte (x : UInt8) : (decimal x.toNat).length ≤ 3 :=
  decimal_length (by decide) (lt_trans x.toNat_lt (by decide))

theorem sprintip_length (ip : Nat) : (sprintip p ip).length ≤ 15 := by
  have first := decimal_byte (p ip)
  have second := decimal_byte (p (ip + 1))
  have third := decimal_byte (p (ip + 2))
  have fourth := decimal_byte (p (ip + 3))
  have dot : (text ".").length = 1 := rfl
  simp only [sprintip,length_append,dot]
  omega

theorem signed_length (word : UInt32) : (signed host word).length ≤ 11 := by
  have bound := word.toNat_lt
  have minus : (text "-").length = 1 := rfl
  unfold signed
  split
  · have digits : (decimal (2 ^ 32 - word.toNat)).length ≤ 10 := decimal_length (by decide) (by omega)
    rw [length_append,minus]
    omega
  · have digits : (decimal word.toNat).length ≤ 10 := decimal_length (by decide) (by omega)
    omega

theorem renderItem_length (option : Nat) (kind : OptionType) (single : kind ≠ .ipPair) (item : kind ≠ .string) :
    (renderItem host p option kind).length + 2 ≤ maxOptionLength kind := by
  cases kind with
  | ip =>
    have short := sprintip_length p option
    exact Nat.add_le_add_right short 2
  | ipPair => exact absurd rfl single
  | string => exact absurd rfl item
  | boolean =>
    simp only [renderItem]
    split <;> decide
  | u8 => exact Nat.add_le_add_right (decimal_byte (p option)) 2
  | u16 =>
    have bound := (ntohs host.endian (p.load16 host.endian option)).toNat_lt
    have short : (renderItem host p option .u16).length ≤ 5 := decimal_length (by decide) (by omega)
    exact Nat.add_le_add_right short 2
  | s16 =>
    have bound := (ntohs host.endian (p.load16 host.endian option)).toNat_lt
    have short : (renderItem host p option .s16).length ≤ 5 := decimal_length (by decide) (by omega)
    exact Nat.le_succ_of_le (Nat.add_le_add_right short 2)
  | u32 =>
    have bound := (ntohl host.endian (p.load32 host.endian option)).toNat_lt
    have short : (renderItem host p option .u32).length ≤ 10 := decimal_length (by decide) (by omega)
    exact Nat.add_le_add_right short 2
  | s32 => exact Nat.add_le_add_right (signed_length host _) 2

theorem optlen_eq (single : kind ≠ .ipPair) : optlen kind = kind.length := by
  cases kind <;> first | rfl | exact absurd rfl single

theorem length_pos (kind : OptionType) : 0 < kind.length := by cases kind <;> decide

/-! ### The loop -/

theorem fillLoop_whole (single : kind ≠ .ipPair) (item : kind ≠ .string) (count fuel option : Nat)
    (enough : count < fuel) :
    (fillLoop host p kind fuel option ((count + 1) * kind.length)).1.length + 2 ≤ (count + 1) * maxOptionLength kind ∧
      ∀ k ∈ (fillLoop host p kind fuel option ((count + 1) * kind.length)).2,
        option ≤ k ∧ k < option + (count + 1) * kind.length := by
  have positive := length_pos kind
  induction count generalizing fuel option with
  | zero =>
    cases fuel with
    | zero => exact absurd enough (not_lt_zero _)
    | succ fuel =>
      rw [fillLoop,if_pos (by rw [optlen_eq single]; omega)]
      refine ⟨?_,fun k mem => ?_⟩
      · rw [zero_add,one_mul]
        exact renderItem_length host p option kind single item
      · obtain ⟨j,range,rfl⟩ := mem_map.1 mem
        have small := mem_range.1 range
        omega
  | succ count ih =>
    cases fuel with
    | zero => exact absurd enough (not_lt_zero _)
    | succ fuel =>
      have more : ¬ (count + 1 + 1) * kind.length ≤ optlen kind := by
        rw [optlen_eq single,Nat.succ_mul]
        have filled := mul_le_mul_left (count + 1) positive
        omega
      have left : (count + 1 + 1) * kind.length - optlen kind = (count + 1) * kind.length := by
        rw [optlen_eq single,Nat.succ_mul,Nat.add_sub_cancel]
      obtain ⟨room,inside⟩ := ih fuel (option + kind.length) (Nat.lt_of_succ_lt_succ enough)
      have first := renderItem_length host p option kind single item
      have blank : (text " ").length = 1 := rfl
      have reckoned : (count + 1 + 1) * maxOptionLength kind =
          (count + 1) * maxOptionLength kind + maxOptionLength kind :=
        Nat.succ_mul _ _
      rw [fillLoop,if_neg more,left]
      refine ⟨?_,fun k mem => ?_⟩
      · simp only [length_append,blank]
        omega
      rw [Nat.succ_mul]
      rcases mem_append.1 mem with here | later
      · obtain ⟨j,range,rfl⟩ := mem_map.1 here
        have small := mem_range.1 range
        omega
      · have place := inside k later
        omega

theorem fillLoop_part (single : kind ≠ .ipPair) (count part fuel option : Nat)
    (less : part < kind.length) (empty : part = 0 → count = 0) (enough : count < fuel) :
    ∃ k ∈ (fillLoop host p kind fuel option (count * kind.length + part)).2,
      option + (count * kind.length + part) ≤ k := by
  induction count generalizing fuel option with
  | zero =>
    cases fuel with
    | zero => exact absurd enough (not_lt_zero _)
    | succ fuel =>
      rw [fillLoop,if_pos (by rw [optlen_eq single]; omega)]
      exact ⟨option + part,mem_map.2 ⟨part,mem_range.2 less,rfl⟩,by omega⟩
  | succ count ih =>
    cases fuel with
    | zero => exact absurd enough (not_lt_zero _)
    | succ fuel =>
      have filled : 0 < part := pos_of_ne_zero fun none => succ_ne_zero count (empty none)
      have more : ¬ (count + 1) * kind.length + part ≤ optlen kind := by
        rw [optlen_eq single,Nat.succ_mul]
        omega
      have left : (count + 1) * kind.length + part - optlen kind = count * kind.length + part := by
        rw [optlen_eq single,Nat.succ_mul]
        omega
      obtain ⟨k,mem,behind⟩ := ih fuel (option + kind.length) (fun none => absurd none filled.ne')
        (Nat.lt_of_succ_lt_succ enough)
      rw [fillLoop,if_neg more,left]
      refine ⟨k,mem_append_right _ mem,?_⟩
      rw [Nat.succ_mul]
      omega

/-! ### The entries -/

theorem table_single : ∀ option ∈ dhcpOptionTable, option.kind ≠ .ipPair := by decide

theorem mem_fillEnvp (mem : made ∈ fillEnvp host p) :
    made.option ∈ dhcpOptionTable ∧ getOption p made.option.code = some made.data ∧
      made = entry host p made.data made.option := by
  obtain ⟨option,listed,same⟩ := mem_filterMap.1 mem
  cases found : getOption p option.code with
  | none =>
    rw [found] at same
    cases same
  | some data =>
    rw [found] at same
    dsimp only at same
    split at same
    · cases same
    · cases same
      exact ⟨listed,found,rfl⟩

/-- What is written fits into what was allocated, and only data of the option are read. -/
def Fits (made : Entry) : Prop :=
  made.written.length ≤ made.allocated ∧
    ∀ k ∈ made.reads, made.data ≤ k ∧ k < made.data + (p (made.data - 1)).toNat

theorem fits_string (string : option.kind = .string) :
    Fits p (entry host p data option) := by
  have upper : upperLength (p (data - 1)).toNat .string = (p (data - 1)).toNat := by
    simp [upperLength,maxOptionLength,OptionType.length]
  have equals : (text "=").length = 1 := rfl
  refine ⟨?_,fun k mem => ?_⟩
  · simp only [entry,fillOptions,string,upper,length_append,Memory.get_length,equals,length_cons,length_nil]
    omega
  · simp only [entry,fillOptions,string] at mem
    obtain ⟨j,range,rfl⟩ := mem_map.1 mem
    have small := mem_range.1 range
    simp only [entry]
    omega

theorem entry_item (data : Nat) (item : option.kind ≠ .string) :
    (entry host p data option).written =
        text option.name ++ text "=" ++ (fillLoop host p option.kind 256 data (p (data - 1)).toNat).1 ++ [0] ∧
      (entry host p data option).reads = (fillLoop host p option.kind 256 data (p (data - 1)).toNat).2 := by
  unfold entry fillOptions
  cases kind : option.kind with
  | string => exact absurd kind item
  | _ => exact ⟨rfl,rfl⟩

/-- An entry fits if and only if its option is a text, or its length is that of one or more whole items. -/
theorem fillEnvp_fits_iff (made : Entry) (mem : made ∈ fillEnvp host p) :
    Fits p made ↔ made.option.kind = .string ∨
      (0 < (p (made.data - 1)).toNat ∧ made.option.kind.length ∣ (p (made.data - 1)).toNat) := by
  obtain ⟨listed,_,same⟩ := mem_fillEnvp host p mem
  have single := table_single made.option listed
  have byte := (p (made.data - 1)).toNat_lt
  rw [same]
  simp only [show ∀ data option,(entry host p data option).data = data from fun _ _ => rfl,show ∀ data option,
    (entry host p data option).option = option from fun _ _ => rfl]
  by_cases string : made.option.kind = .string
  · exact ⟨fun _ => .inl string,fun _ => fits_string host p string⟩
  obtain ⟨written,reads⟩ := entry_item host p made.data string
  have positive := length_pos made.option.kind
  constructor
  · rintro ⟨_,inside⟩
    refine .inr (by_contra fun part => ?_)
    have split := div_add_mod' (p (made.data - 1)).toNat made.option.kind.length
    have fuel : (p (made.data - 1)).toNat / made.option.kind.length < 256 := lt_of_le_of_lt (div_le_self _ _) byte
    have none : (p (made.data - 1)).toNat % made.option.kind.length = 0 →
        (p (made.data - 1)).toNat / made.option.kind.length = 0 := by
      intro whole
      have zero : ¬ 0 < (p (made.data - 1)).toNat := fun filled => part ⟨filled,Nat.dvd_of_mod_eq_zero whole⟩
      rw [Nat.eq_zero_of_not_pos zero,Nat.zero_div]
    obtain ⟨k,mem,behind⟩ := fillLoop_part host p single _ ((p (made.data - 1)).toNat % made.option.kind.length) 256
      made.data (mod_lt _ positive) none fuel
    rw [split,← reads] at mem
    rw [split] at behind
    have place := inside k mem
    exact absurd place.2 (not_lt.2 behind)
  · rintro (isString | ⟨filled,count,whole⟩)
    · exact absurd isString string
    obtain ⟨count,rfl⟩ : ∃ more, count = more + 1 :=
      exists_eq_succ_of_ne_zero fun none => by simp [none] at whole; omega
    have product : (count + 1) * made.option.kind.length = (p (made.data - 1)).toNat := by
      rw [whole,mul_comm]
    have few : count + 1 ≤ (p (made.data - 1)).toNat := by
      rw [← product]
      exact Nat.le_mul_of_pos_right _ positive
    obtain ⟨room,inside⟩ := fillLoop_whole host p single string count 256 made.data (by omega)
    rw [product] at room inside
    have equals : (text "=").length = 1 := rfl
    have upper : upperLength (p (made.data - 1)).toNat made.option.kind =
        (count + 1) * maxOptionLength made.option.kind := by
      rw [upperLength,← product,Nat.mul_div_cancel _ positive,mul_comm]
    refine ⟨?_,?_⟩
    · rw [written]
      simp only [entry,upper,length_append,equals,length_cons,length_nil]
      omega
    · rw [reads]
      exact inside

/-- An offer with a subnet mask and one router, and with the magic number and the type of a packet that the client
accepts. -/
def offer (length : UInt8) : DhcpMessage :=
  Memory.put (Memory.put (fun _ => 0) cookieAt [0x63,0x82,0x53,0x63]) optionsAt
    ([53,1,2,1,4,255,255,255,0,3,length] ++ List.replicate 6 255)

def routerOption : DhcpOption := ⟨"router",.ip,true,true,0x03⟩

theorem mem_fillEnvp_offer {length : UInt8}
    (found : getOption (offer length) routerOption.code = some (optionsAt + 11)) :
    entry ⟨.little,false⟩ (offer length) (optionsAt + 11) routerOption ∈ fillEnvp ⟨.little,false⟩ (offer length) := by
  refine mem_filterMap.2 ⟨routerOption,by simp [dhcpOptionTable,routerOption],?_⟩
  rw [found]
  rfl

theorem fillEnvp_fits_router :
    Fits (offer 4) (entry ⟨.little,false⟩ (offer 4) (optionsAt + 11) routerOption) ↔
      routerOption.kind = .string ∨ (0 < (offer 4 (optionsAt + 11 - 1)).toNat ∧
        routerOption.kind.length ∣ (offer 4 (optionsAt + 11 - 1)).toNat) :=
  fillEnvp_fits_iff ⟨.little,false⟩ (offer 4) (entry ⟨.little,false⟩ (offer 4) (optionsAt + 11) routerOption)
    (mem_fillEnvp_offer (by decide +kernel))

/-- A router option of five bytes: 25 bytes are allocated, 35 are written, and three bytes behind the option are
read. -/
theorem router_five_bytes : ∃ made ∈ fillEnvp ⟨.little,false⟩ (offer 5), made.option = routerOption ∧
    made.allocated = 25 ∧ made.written.length = 35 ∧
    ∃ k ∈ made.reads, made.data + (offer 5 (made.data - 1)).toNat ≤ k :=
  ⟨entry ⟨.little,false⟩ (offer 5) (optionsAt + 11) routerOption,mem_fillEnvp_offer (by decide +kernel),rfl,
    by decide +kernel,by decide +kernel,by decide +kernel⟩

end Stablebox.Udhcp.Script
