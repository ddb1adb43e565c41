import Stablebox.Networking.HttpdAddressText

/-! When `checkPermIP` does what the lines say. A range whose address has bits outside its mask is
never matched, and a malformed line, which is to deny every client, denies none when a number other
than zero was read before the error. -/
namespace Stablebox.Httpd

open Libbb Digits List UInt32

namespace AddressLine

/-- What the line says of the client is what is compared: the address has no bit outside its mask; a
malformed line, if it is stored as one, has only zeros before the error. -/
def Heeded (line : AddressLine) (client : UInt32) : Prop :=
  match readRule line.text with
  | .star => True
  | .range ip mask => ip &&& mask = ip
  | .malformed =>
    match overflow line.text with
    | some (ip,mask) => line.allow = false ∧ client &&& mask = ip
    | none => line.text.head? ≠ some 42 ∧ ∀ v ∈ (numbers 4 line.text).1, v = 0

/-- An `A:` line lets the client in: by its range, or as a malformed one whose bits overflow. -/
def Admits (line : AddressLine) (client : UInt32) : Prop :=
  line.allow = true ∧
    match readRule line.text with
    | .star => False
    | .range ip mask => ip &&& mask = ip ∧ InRange ip mask client
    | .malformed =>
      match overflow line.text with
      | some (ip,mask) => client &&& mask = ip
      | none => False

def starred (line : AddressLine) : Bool := !line.allow && line.text.head? == some 42

def stored (line : AddressLine) : Bool := line.text.head? != some 42

variable {line : AddressLine}

theorem record_of_range (rule : readRule line.text = .range ip mask) : line.record = ⟨ip,mask,line.allow⟩ := by
  rw [record,scanIpMask_range rule]

theorem covers_range_iff (ip mask client : UInt32) :
    client &&& mask = ip ↔ InRange ip mask client ∧ ip &&& mask = ip := by
  constructor
  · rintro rfl
    have again : client &&& mask &&& mask = client &&& mask := by rw [UInt32.and_assoc,UInt32.and_self]
    exact ⟨again.symm,again⟩
  · rintro ⟨inRange,clean⟩
    exact inRange.trans clean

theorem readRule_star_head {text : List UInt8} (head : text.head? = some 42) :
    (numbers 4 text).1 = [] ∧ overflow text = none := by
  cases text with
  | nil => cases head
  | cons c text =>
    obtain rfl := Option.some.inj head
    have none : numbers 4 (42 :: text) = ([],42 :: text) := by
      rw [numbers,numberAt_other text (by decide)]
    exact ⟨by rw [none],by simp [overflow,none]⟩

theorem text_of_star {text : List UInt8} (rule : readRule text = .star) : text = [42] := by
  simp only [readRule] at rule
  split at rule
  · assumption
  split at rule
  · cases rule
  · split at rule <;> cases rule

theorem stored_of_range (rule : readRule line.text = .range ip mask) : line.stored = true := by
  rw [stored,bne_iff_ne]
  intro head
  simp only [readRule,(readRule_star_head head).1,if_true] at rule
  split at rule <;> cases rule

theorem record_of_malformed (some : line.text ≠ []) (rule : readRule line.text = .malformed)
    (noOverflow : overflow line.text = none) (client : UInt32) :
    line.record.allow = false ∧
      (line.record.covers client = true ↔ ∀ v ∈ (numbers 4 line.text).1, v = 0) := by
  have scanned := scanIpMask_malformed some rule
  rw [noOverflow] at scanned
  obtain ⟨noMask,zero⟩ := scanned
  have stored : line.record = ⟨(scanIpMask line.text).1,0,false⟩ := by
    rw [record]
    split
    · rename_i ip mask found
      rw [found] at noMask
      cases noMask
    · rename_i ip found
      rw [found]
  rw [stored,HtaccessIp.covers,beq_iff_eq,UInt32.and_zero]
  exact ⟨rfl,eq_comm.trans zero⟩

theorem record_of_overflow (some : line.text ≠ []) (rule : readRule line.text = .malformed)
    (wraps : overflow line.text = Option.some (ip,mask)) : line.record = ⟨ip,mask,line.allow⟩ := by
  have scanned := scanIpMask_malformed some rule
  rw [wraps] at scanned
  rw [record,scanned]

theorem record_denies_iff (client : UInt32) (some : line.text ≠ []) :
    (line.stored = true ∧ line.record.allow = false ∧ line.record.covers client = true) ↔
      line.Denies client ∧ line.Heeded client := by
  cases rule : readRule line.text with
  | star =>
    have notStored : line.stored = false := by simp [stored,text_of_star rule]
    simp [notStored,Denies,rule]
  | range ip mask =>
    simp only [stored_of_range rule,record_of_range rule,Denies,Heeded,rule,HtaccessIp.covers,beq_iff_eq,true_and]
    rw [covers_range_iff,and_assoc]
  | malformed =>
    simp only [Denies,Heeded,rule,true_and]
    by_cases head : line.text.head? = Option.some 42
    · simp [stored,head,(readRule_star_head head).2]
    cases wraps : overflow line.text with
    | none =>
      obtain ⟨denies,covers⟩ := record_of_malformed some rule wraps client
      simp [stored,head,denies,covers]
    | some pair =>
      simp [stored,head,record_of_overflow some rule wraps,HtaccessIp.covers]

theorem record_admits_iff (client : UInt32) (some : line.text ≠ []) :
    (line.stored = true ∧ line.record.allow = true ∧ line.record.covers client = true) ↔
      line.Admits client := by
  cases rule : readRule line.text with
  | star =>
    have notStored : line.stored = false := by simp [stored,text_of_star rule]
    simp [notStored,Admits,rule]
  | range ip mask =>
    simp only [stored_of_range rule,record_of_range rule,Admits,rule,HtaccessIp.covers,beq_iff_eq,true_and]
    rw [covers_range_iff,and_comm (a := InRange ip mask client)]
  | malformed =>
    simp only [Admits,rule]
    by_cases head : line.text.head? = Option.some 42
    · simp [stored,head,(readRule_star_head head).2]
    cases wraps : overflow line.text with
    | none => simp [(record_of_malformed some rule wraps client).1]
    | some pair => simp [stored,head,record_of_overflow some rule wraps,HtaccessIp.covers]

end AddressLine

open AddressLine

/-! The list. -/

/-- The kept list: the denying records in front, the last one first, then the allowing ones. -/
theorem foldl_add (rules : List AddressLine) (conf : IpConfig) :
    (rules.foldl IpConfig.add conf).ipAD =
        (((rules.filter stored).map record).filter (!·.allow)).reverse ++ conf.ipAD ++
          ((rules.filter stored).map record).filter (·.allow) ∧
      (rules.foldl IpConfig.add conf).flgDenyAll = conf.flgDenyAll + ofNat (rules.countP starred) := by
  induction rules generalizing conf with
  | nil => simp
  | cons line rules ih =>
    rw [foldl_cons]
    obtain ⟨list,flag⟩ := ih (conf.add line)
    rw [list,flag,IpConfig.add]
    by_cases head : line.text.head? = some 42
    · have notStored : ¬line.stored = true := by simp [stored,head]
      rw [if_pos head,filter_cons_of_neg notStored]
      cases allow : line.allow with
      | true => simp [starred,allow]
      | false =>
        have isStarred : line.starred = true := by simp [starred,allow,head]
        rw [countP_cons_of_pos isStarred]
        simp only [Bool.false_eq_true,if_false,true_and]
        rw [ofNat_add,add_assoc,add_comm (ofNat _)]
        rfl
    · have isStored : line.stored = true := by simp [stored,head]
      have notStarred : ¬line.starred = true := by simp [starred,head]
      rw [if_neg head,filter_cons_of_pos isStored,map_cons,countP_cons_of_neg notStarred]
      cases allow : line.record.allow <;> simp [allow]

theorem addressLine_text (read : addressLine raw = some line) :
    line.text ≠ [] := by
  simp only [addressLine] at read
  cases split : splitColon (stripLine raw) with
  | none => simp [split] at read
  | some pair =>
    simp only [split,Option.bind_eq_bind,Option.bind_some] at read
    split at read
    · cases read
    rename_i nonempty
    split at read
    · obtain rfl := Option.some.inj read
      exact nonempty
    · split at read
      · obtain rfl := Option.some.inj read
        exact nonempty
      · cases read

/-- The first record that matches is a denying one if any of them matches. -/
theorem checkPermIP_list (flag client : UInt32) (deny : ∀ cur ∈ denying, cur.allow = false)
    (allow : ∀ cur ∈ allowing, cur.allow = true) :
    checkPermIP ⟨denying ++ allowing,flag⟩ client = true ↔
      (¬∃ cur ∈ denying, cur.covers client = true) ∧
        ((∃ cur ∈ allowing, cur.covers client = true) ∨ flag = 0) := by
  rw [checkPermIP,find?_append]
  cases first : denying.find? (·.covers client) with
  | some cur =>
    have member := mem_of_find?_eq_some first
    have covers := find?_some first
    have found : ∃ cur ∈ denying, cur.covers client = true := ⟨cur,member,covers⟩
    simp [deny cur member,found]
  | none =>
    have noneDenies : ¬∃ cur ∈ denying, cur.covers client = true := by
      simpa using find?_eq_none.mp first
    cases second : allowing.find? (·.covers client) with
    | some cur =>
      have member := mem_of_find?_eq_some second
      have covers := find?_some second
      have found : ∃ cur ∈ allowing, cur.covers client = true := ⟨cur,member,covers⟩
      simp [allow cur member,found,noneDenies]
    | none =>
      have noneAllows : ¬∃ cur ∈ allowing, cur.covers client = true := by
        simpa using find?_eq_none.mp second
      simp [noneDenies,noneAllows]

theorem checkPermIP_parse (file : List (List UInt8)) (client : UInt32) :
    checkPermIP (parseAddresses file) client = true ↔
      (¬∃ line ∈ addressLines file, line.Denies client ∧ line.Heeded client) ∧
        ((∃ line ∈ addressLines file, line.Admits client) ∨ (addressLines file).countP starred % 2 ^ 32 = 0) := by
  have nonempty : ∀ line ∈ addressLines file, line.text ≠ [] := by
    intro line member
    obtain ⟨raw,-,read⟩ := mem_filterMap.mp member
    exact addressLine_text read
  rw [parseAddresses]
  generalize addressLines file = rules at nonempty ⊢
  obtain ⟨list,flag⟩ := foldl_add rules ⟨[],0⟩
  rw [append_nil] at list
  have denies : (∃ cur ∈ ((rules.filter stored).map record).filter (!·.allow), cur.covers client = true) ↔
      ∃ line ∈ rules, line.Denies client ∧ line.Heeded client := by
    constructor
    · rintro ⟨cur,member,covers⟩
      simp only [mem_filter,mem_map,Bool.not_eq_true'] at member
      obtain ⟨⟨line,⟨among,isStored⟩,rfl⟩,deny⟩ := member
      exact ⟨line,among,(record_denies_iff client (nonempty line among)).mp ⟨isStored,deny,covers⟩⟩
    · rintro ⟨line,among,heeded⟩
      obtain ⟨isStored,deny,covers⟩ := (record_denies_iff client (nonempty line among)).mpr heeded
      refine ⟨line.record,?_,covers⟩
      simp only [mem_filter,mem_map,Bool.not_eq_true']
      exact ⟨⟨line,⟨among,isStored⟩,rfl⟩,deny⟩
  have admits : (∃ cur ∈ ((rules.filter stored).map record).filter (·.allow), cur.covers client = true) ↔
      ∃ line ∈ rules, line.Admits client := by
    constructor
    · rintro ⟨cur,member,covers⟩
      simp only [mem_filter,mem_map] at member
      obtain ⟨⟨line,⟨among,isStored⟩,rfl⟩,allow⟩ := member
      exact ⟨line,among,(record_admits_iff client (nonempty line among)).mp ⟨isStored,allow,covers⟩⟩
    · rintro ⟨line,among,admitted⟩
      obtain ⟨isStored,allow,covers⟩ := (record_admits_iff client (nonempty line among)).mpr admitted
      refine ⟨line.record,?_,covers⟩
      simp only [mem_filter,mem_map]
      exact ⟨⟨line,⟨among,isStored⟩,rfl⟩,allow⟩
  have unset : (rules.foldl IpConfig.add ⟨[],0⟩).flgDenyAll = 0 ↔ rules.countP starred % 2 ^ 32 = 0 := by
    rw [flag,← UInt32.toNat_inj,UInt32.zero_add,UInt32.toNat_ofNat']
    rfl
  have whole : rules.foldl IpConfig.add ⟨[],0⟩ =
      ⟨(((rules.filter stored).map record).filter (!·.allow)).reverse ++
        ((rules.filter stored).map record).filter (·.allow),(rules.foldl IpConfig.add ⟨[],0⟩).flgDenyAll⟩ := by
    rw [← list]
  rw [whole,checkPermIP_list,unset,admits]
  · simp only [mem_reverse,denies]
  · intro cur member
    simpa using (mem_filter.mp (mem_reverse.mp member)).2
  · intro cur member
    exact (mem_filter.mp member).2

theorem denies_of_starred {line : AddressLine} (isStarred : line.starred = true) (client : UInt32) :
    line.DeniesRest ∨ line.Denies client := by
  simp only [starred,Bool.and_eq_true,Bool.not_eq_true',beq_iff_eq] at isStarred
  obtain ⟨deny,head⟩ := isStarred
  have none := (readRule_star_head head).1
  cases rule : readRule line.text with
  | star => exact Or.inl ⟨deny,by simp [rule]⟩
  | malformed => exact Or.inr (by simp [Denies,rule])
  | range ip mask =>
    simp only [readRule,none,if_true] at rule
    split at rule <;> cases rule

/-- The check agrees with the lines exactly when a heeded line turns the client away; or no line does, and
if there is `D:*`, the client lies in an `A:` range just when it gets past `D:*`; or a line that is not heeded
turns it away, and `D:*` does so too. -/
theorem checkPermIP_agrees_iff (file : List (List UInt8)) (client : UInt32) :
    (checkPermIP (parseAddresses file) client = true ↔ Permitted (addressLines file) client) ↔
      (∃ line ∈ addressLines file, line.Denies client ∧ line.Heeded client) ∨
      ((∀ line ∈ addressLines file, ¬line.Denies client) ∧
        ((∀ line ∈ addressLines file, ¬line.DeniesRest) ∨
          ((∃ line ∈ addressLines file, line.Allows client) ↔
            (∃ line ∈ addressLines file, line.Admits client) ∨
              (addressLines file).countP starred % 2 ^ 32 = 0))) ∨
      ((∃ line ∈ addressLines file, line.Denies client) ∧ (∀ line ∈ addressLines file, ¬line.Admits client) ∧
        (addressLines file).countP starred % 2 ^ 32 ≠ 0) := by
  rw [checkPermIP_parse]
  generalize addressLines file = rules
  have noneDenies : (∀ line ∈ rules, ¬line.Denies client) ↔ ¬∃ line ∈ rules, line.Denies client := by simp
  have noneAdmits : (∀ line ∈ rules, ¬line.Admits client) ↔ ¬∃ line ∈ rules, line.Admits client := by simp
  rw [noneDenies,noneAdmits]
  by_cases denied : ∃ line ∈ rules, line.Denies client
  · have refused : ¬Permitted rules client := fun permitted => noneDenies.mp permitted.1 denied
    -- only `D:*` can make up for a line that is not heeded
    simp only [refused,denied,iff_false,not_and,not_true_eq_false,false_and,true_and,false_or]
    rw [not_or,← or_iff_not_imp_left]
  · have noneHeeded : ¬∃ line ∈ rules, line.Denies client ∧ line.Heeded client := by
      rintro ⟨line,member,denies,-⟩
      exact denied ⟨line,member,denies⟩
    have noStar : (∀ line ∈ rules, ¬line.DeniesRest) → rules.countP starred % 2 ^ 32 = 0 := by
      intro none
      have zero : rules.countP starred = 0 := by
        rw [countP_eq_zero]
        intro line member isStarred
        obtain rest | denies := denies_of_starred isStarred client
        · exact none line member rest
        · exact denied ⟨line,member,denies⟩
      rw [zero,Nat.zero_mod]
    simp only [Permitted,noneDenies,denied,noneHeeded,not_false_eq_true,true_and,false_and,false_or,or_false]
    by_cases none : ∀ line ∈ rules, ¬line.DeniesRest
    · simp only [noStar none,or_true,true_iff,iff_true]
      exact or_comm
    · simp only [none,or_false,false_or]
      exact iff_comm

/-- `D:10.1.2.3/8` does not keep 10.0.0.1 out, and the malformed `A:10.0.0.300` keeps nobody out. -/
theorem stray_bits_let_in :
    checkPermIP (parseAddresses [text "D:10.1.2.3/8\n"]) 0x0a000001 = true ∧
      ¬Permitted (addressLines [text "D:10.1.2.3/8\n"]) 0x0a000001 ∧
      checkPermIP (parseAddresses [text "A:10.0.0.300\n"]) 0x0a000001 = true ∧
      ¬Permitted (addressLines [text "A:10.0.0.300\n"]) 0x0a000001 := by
  refine ⟨by decide,?_,by decide,?_⟩
  · intro permitted
    exact permitted.1 ⟨false,text "10.1.2.3/8"⟩ (by decide) ⟨rfl,rfl⟩
  · intro permitted
    exact permitted.1 ⟨true,text "10.0.0.300"⟩ (by decide) trivial

end Stablebox.Httpd
