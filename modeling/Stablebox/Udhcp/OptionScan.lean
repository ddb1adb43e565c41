import Stablebox.Lib.Machine
import Stablebox.Udhcp.Message

/-! `get_option` turn by turn, with the bytes of the field that each turn reads. -/
namespace Stablebox.Udhcp

open DhcpMessage List

/-! ### The scan -/

inductive OptionArea where
  | options
  | file
  | sname
deriving DecidableEq

namespace OptionArea

def base : OptionArea → Nat
  | options => optionsAt
  | file => fileAt
  | sname => snameAt

def size : OptionArea → Nat
  | options => 308
  | file => 128
  | sname => 64

def curr : OptionArea → UInt8
  | options => optionField
  | file => fileField
  | sname => snameField

end OptionArea

structure Scan where
  area : OptionArea
  i : Nat
  overload : UInt8

namespace Scan

variable (p : DhcpMessage) (code : UInt8)

def byte (s : Scan) (k : Nat) : UInt8 := p (s.area.base + k)

/-- One turn: the places of the field that are read, and how it goes on. -/
def turn (s : Scan) : List Nat × (Scan ⊕ Option Nat) :=
  if s.i ≥ s.area.size then ([],.inr none)
  else if s.byte p (s.i + optCode) = code then
    if s.i + 1 + (s.byte p (s.i + optLen)).toNat ≥ s.area.size then ([s.i + optCode,s.i + optLen],.inr none)
    else ([s.i + optCode,s.i + optLen],.inr (some (s.area.base + s.i + 2)))
  else if s.byte p (s.i + optCode) = dhcpPadding then ([s.i + optCode],.inl { s with i := s.i + 1 })
  else if s.byte p (s.i + optCode) = dhcpOptionOver then
    if s.i + 1 + (s.byte p (s.i + optLen)).toNat ≥ s.area.size then ([s.i + optCode,s.i + optLen],.inr none)
    else ([s.i + optCode,s.i + optLen,s.i + 3,optLen],
      .inl ⟨s.area,s.i + ((s.byte p optLen).toNat + 2),s.byte p (s.i + 3)⟩)
  else if s.byte p (s.i + optCode) = dhcpEnd then
    if s.area = .options ∧ s.overload &&& fileField ≠ 0 then ([s.i + optCode],.inl ⟨.file,0,s.overload⟩)
    else if s.area = .file ∧ s.overload &&& snameField ≠ 0 then ([s.i + optCode],.inl ⟨.sname,0,s.overload⟩)
    else ([s.i + optCode],.inr none)
  else ([s.i + optCode,optLen + s.i],.inl { s with i := s.i + ((s.byte p (optLen + s.i)).toNat + 2) })

def step (s : Scan) : Scan ⊕ Option Nat := (s.turn p code).2

def reads (s : Scan) : List Nat := (s.turn p code).1

def first : Scan := ⟨.options,0,0⟩

/-! ### What a turn does -/

inductive Turns (s : Scan) : List Nat × (Scan ⊕ Option Nat) → Prop
  | behind (outside : s.area.size ≤ s.i) : Turns s ([],.inr none)
  | long (inside : s.i < s.area.size) (same : s.byte p s.i = code)
      (outside : s.area.size ≤ s.i + 1 + (s.byte p (s.i + 1)).toNat) : Turns s ([s.i,s.i + 1],.inr none)
  | found (inside : s.i < s.area.size) (same : s.byte p s.i = code)
      (fits : s.i + 1 + (s.byte p (s.i + 1)).toNat < s.area.size) :
      Turns s ([s.i,s.i + 1],.inr (some (s.area.base + s.i + 2)))
  | padding (inside : s.i < s.area.size) (other : s.byte p s.i ≠ code) (is : s.byte p s.i = dhcpPadding) :
      Turns s ([s.i],.inl ⟨s.area,s.i + 1,s.overload⟩)
  | longOverload (inside : s.i < s.area.size) (other : s.byte p s.i ≠ code) (is : s.byte p s.i = dhcpOptionOver)
      (outside : s.area.size ≤ s.i + 1 + (s.byte p (s.i + 1)).toNat) : Turns s ([s.i,s.i + 1],.inr none)
  | overload (inside : s.i < s.area.size) (other : s.byte p s.i ≠ code) (is : s.byte p s.i = dhcpOptionOver)
      (fits : s.i + 1 + (s.byte p (s.i + 1)).toNat < s.area.size) :
      Turns s ([s.i,s.i + 1,s.i + 3,1],.inl ⟨s.area,s.i + ((s.byte p 1).toNat + 2),s.byte p (s.i + 3)⟩)
  | toFile (inside : s.i < s.area.size) (other : s.byte p s.i ≠ code) (is : s.byte p s.i = dhcpEnd)
      (file : s.area = .options ∧ s.overload &&& fileField ≠ 0) : Turns s ([s.i],.inl ⟨.file,0,s.overload⟩)
  | toSname (inside : s.i < s.area.size) (other : s.byte p s.i ≠ code) (is : s.byte p s.i = dhcpEnd)
      (notFile : ¬ (s.area = .options ∧ s.overload &&& fileField ≠ 0))
      (sname : s.area = .file ∧ s.overload &&& snameField ≠ 0) : Turns s ([s.i],.inl ⟨.sname,0,s.overload⟩)
  | done (inside : s.i < s.area.size) (other : s.byte p s.i ≠ code) (is : s.byte p s.i = dhcpEnd)
      (notFile : ¬ (s.area = .options ∧ s.overload &&& fileField ≠ 0))
      (notSname : ¬ (s.area = .file ∧ s.overload &&& snameField ≠ 0)) : Turns s ([s.i],.inr none)
  | skip (inside : s.i < s.area.size) (other : s.byte p s.i ≠ code) (notPadding : s.byte p s.i ≠ dhcpPadding)
      (notEnd : s.byte p s.i ≠ dhcpEnd) (simple : s.byte p s.i ≠ dhcpOptionOver) :
      Turns s ([s.i,s.i + 1],.inl ⟨s.area,s.i + ((s.byte p (s.i + 1)).toNat + 2),s.overload⟩)

theorem turn_turns (s : Scan) : Turns p code s (s.turn p code) := by
  unfold turn
  simp only [optCode,optLen,add_zero,add_comm 1 s.i]
  split_ifs with outside same long padding overload long finish file sname
  · exact .behind outside
  · exact .long (by omega) same long
  · exact .found (by omega) same (by omega)
  · exact .padding (by omega) same padding
  · exact .longOverload (by omega) same overload long
  · exact .overload (by omega) same overload (by omega)
  · exact .toFile (by omega) same finish file
  · exact .toSname (by omega) same finish file sname
  · exact .done (by omega) same finish file sname
  · exact .skip (by omega) same padding finish overload

/-! ### The loop ends -/

/-- What is left of the field and of the fields behind it. -/
def weight (s : Scan) : Nat :=
  s.area.size - s.i +
    match s.area with
    | .options => 194
    | .file => 65
    | .sname => 0

variable {p code}

theorem step_lowers (s next : Scan) (goes : s.step p code = .inl next) : weight next < weight s := by
  have shape := turn_turns p code s
  unfold step at goes
  generalize s.turn p code = turned at shape goes
  cases shape with
  | padding inside =>
    cases goes
    simp only [weight]
    omega
  | overload inside =>
    cases goes
    simp only [weight]
    omega
  | skip inside =>
    cases goes
    simp only [weight]
    omega
  | toFile inside _ _ file =>
    cases goes
    simp only [weight,file.1,OptionArea.size] at inside ⊢
    omega
  | toSname inside _ _ _ sname =>
    cases goes
    simp only [weight,sname.1,OptionArea.size] at inside ⊢
    omega
  | _ => cases goes

theorem getOptionLoop_eq_exec (fuel : Nat) (s : Scan) :
    getOptionLoop p code fuel s.area.base s.i s.area.size s.overload s.area.curr =
      (exec (step p code) fuel s).join := by
  induction fuel generalizing s with
  | zero => rfl
  | succ fuel ih =>
    have options : s.area.curr = optionField ↔ s.area = .options := by cases s.area <;> decide
    have file : s.area.curr = fileField ↔ s.area = .file := by cases s.area <;> decide
    have reads : ∀ i, p (s.area.base + i) = s.byte p i := fun _ => rfl
    -- Both sides make the same tests in the same order.
    rw [getOptionLoop,exec,step,turn]
    simp only [reads,options,file]
    split_ifs
    · rfl
    · rfl
    · rfl
    · exact ih { s with i := s.i + 1 }
    · rfl
    · exact ih ⟨s.area,s.i + ((s.byte p optLen).toNat + 2),s.byte p (s.i + 3)⟩
    · exact ih ⟨.file,0,_⟩
    · exact ih ⟨.sname,0,_⟩
    · rfl
    · exact ih { s with i := s.i + ((s.byte p (optLen + s.i)).toNat + 2) }

theorem getOption_yields (p : DhcpMessage) (code : UInt8) : Yields (step p code) first (getOption p code) := by
  obtain ⟨result,done⟩ := exec_of_weight weight step_lowers 503 first (by decide : weight first < 503)
  have loop : getOption p code = (exec (step p code) 503 first).join := getOptionLoop_eq_exec 503 first
  rw [done] at loop
  exact ⟨503,done.trans (congrArg some loop.symm)⟩

/-! ### The bytes that are read -/

/-- An option whose length byte, or an overload option whose value byte as it is read, lies behind the field. -/
def Cut (p : DhcpMessage) (code : UInt8) (s : Scan) : Prop :=
  s.i < s.area.size ∧
    ((s.i + 1 = s.area.size ∧ (s.byte p s.i = code ∨ (s.byte p s.i ≠ dhcpPadding ∧ s.byte p s.i ≠ dhcpEnd))) ∨
      (s.byte p s.i ≠ code ∧ s.byte p s.i = dhcpOptionOver ∧
        s.i + 1 + (s.byte p (s.i + 1)).toNat < s.area.size ∧ s.area.size ≤ s.i + 3))

theorem reads_inside_iff (s : Scan) : (∀ k ∈ s.reads p code, k < s.area.size) ↔ ¬ Cut p code s := by
  have codes : dhcpOptionOver ≠ dhcpPadding ∧ dhcpOptionOver ≠ dhcpEnd := by decide
  have alone (inside : s.i < s.area.size) (other : s.byte p s.i ≠ code)
      (is : s.byte p s.i = dhcpPadding ∨ s.byte p s.i = dhcpEnd) :
      (∀ k ∈ [s.i],k < s.area.size) ↔ ¬ Cut p code s := by
    refine ⟨?_,fun _ => forall_mem_singleton.2 inside⟩
    rintro - ⟨-,⟨-,same | ⟨notPadding,notEnd⟩⟩ | ⟨-,value,-⟩⟩
    · exact other same
    · exact is.elim notPadding notEnd
    · rw [value] at is
      exact is.elim codes.1 codes.2
  have pair : (∀ k ∈ [s.i,s.i + 1],k < s.area.size) ↔ s.i + 1 < s.area.size := by
    simp only [mem_cons,not_mem_nil,or_false,forall_eq_or_imp,forall_eq]
    omega
  have shape := turn_turns p code s
  unfold reads
  generalize s.turn p code = turned at shape
  cases shape with
  | behind outside => exact ⟨fun _ cut => absurd cut.1 (not_lt.2 outside),fun _ k mem => by cases mem⟩
  | long inside same =>
    rw [pair,Cut]
    simp only [same,ne_eq,not_true,false_and,or_false,true_or,and_true]
    omega
  | found inside same =>
    rw [pair,Cut]
    simp only [same,ne_eq,not_true,false_and,or_false,true_or,and_true]
    omega
  | padding inside other is => exact alone inside other (.inl is)
  | longOverload inside other is outside =>
    rw [pair,Cut]
    simp only [is,codes,ne_eq,not_false_eq_true,true_and,and_true,or_true]
    omega
  | overload inside other is fits =>
    rw [is] at other
    simp only [Cut,is,other,codes,ne_eq,not_false_eq_true,true_and,and_true,or_true,mem_cons,not_mem_nil,or_false,
      forall_eq_or_imp,forall_eq]
    omega
  | toFile inside other is => exact alone inside other (.inr is)
  | toSname inside other is => exact alone inside other (.inr is)
  | done inside other is => exact alone inside other (.inr is)
  | skip inside other notPadding notEnd simple =>
    rw [pair,Cut]
    simp only [other,notPadding,notEnd,simple,ne_eq,not_false_eq_true,false_and,and_false,or_false,or_true,and_true]
    omega

theorem step_found {s : Scan} (found : s.step p code = .inr (some data)) :
    s.area.base + 2 ≤ data ∧ data + (p (data - 1)).toNat ≤ s.area.base + s.area.size := by
  have shape := turn_turns p code s
  unfold step at found
  generalize s.turn p code = turned at shape found
  cases shape with
  | found inside same fits =>
    cases found
    have place : s.area.base + s.i + 2 - 1 = s.area.base + (s.i + 1) := by omega
    rw [place]
    simp only [byte] at fits
    omega
  | _ => cases found

/-- The loop ends; it reads only bytes of the field it is in, and what it finds lies in that field. -/
structure StaysInside (p : DhcpMessage) (code : UInt8) : Prop where
  ends : Yields (step p code) first (getOption p code)
  reads : ∀ s, Reaches (step p code) first s → ∀ k ∈ s.reads p code, k < s.area.size
  found : ∀ s data, Reaches (step p code) first s → s.step p code = .inr (some data) →
    s.area.base + 2 ≤ data ∧ data + (p (data - 1)).toNat ≤ s.area.base + s.area.size

/-- `get_option` stays inside of the packet if and only if the scan comes to no option that is cut off. -/
theorem getOption_inside_iff (p : DhcpMessage) (code : UInt8) :
    StaysInside p code ↔ ∀ s, Reaches (step p code) first s → ¬ Cut p code s := by
  constructor
  · intro inside s comes
    exact (reads_inside_iff s).1 (inside.reads s comes)
  · intro whole
    exact ⟨getOption_yields p code,fun s comes => (reads_inside_iff s).2 (whole s comes),
      fun _ _ _ found => step_found found⟩

def lastByte : DhcpMessage := fun k =>
  if k = optionsAt then 0x0c else if k = optionsAt + 1 then 253
  else if k = optionsAt + 255 then 0x0c else if k = optionsAt + 256 then 50
  else if k = optionsAt + 307 then 0x0c else 0

/-- The byte behind the options field is read. -/
theorem lastByte_outside : ∃ s, Reaches (step lastByte dhcpServerId) first s ∧ ∃ k ∈ s.reads lastByte dhcpServerId,
    s.area.size ≤ k := by
  refine ⟨⟨.options,307,0⟩,?_,308,by decide,by decide⟩
  have passed : step lastByte dhcpServerId first = .inl ⟨.options,255,0⟩ := rfl
  exact .step_then passed (.one rfl)

end Scan

end Stablebox.Udhcp
