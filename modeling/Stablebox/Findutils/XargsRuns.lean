import Stablebox.Findutils.XargsRead

/-! Whole runs of `xargs`: the commands get the words of the input in their order. -/
namespace Stablebox.Xargs

open Libbb List Except

variable {o : Options} {l : Limits} {status : Nat → Nat} {input : List UInt8}

/-! ### Counting -/

/-- The number of words for the next command; only the last one of them can cross the limit on their size. -/
structure Counts (l : Limits) (list : List (List UInt8)) (n : Nat) : Prop where
  inside : n ≤ list.length
  some : list ≠ [] → 0 < n
  most : 0 < l.nMaxArg → (n : Int) ≤ l.nMaxArg
  below : size (list.take (n - 1)) ≤ l.nMaxChars

structure CountsFrom (l : Limits) (nChars n : Nat) (list : List (List UInt8)) (total : Nat) : Prop where
  least : n ≤ total
  inside : total ≤ n + list.length
  some : list ≠ [] → n < total
  most : (n : Int) < l.nMaxArg → (total : Int) ≤ l.nMaxArg
  below : nChars ≤ l.nMaxChars → nChars + size (list.take (total - n - 1)) ≤ l.nMaxChars

theorem CountsFrom.nil (nChars n : Nat) : CountsFrom l nChars n [] n :=
  ⟨le_refl _,le_refl _,fun more => absurd rfl more,fun below => by omega,fun fits => by simpa [size] using fits⟩

theorem CountsFrom.here (nChars : Nat) (data : List UInt8) (link : List (List UInt8)) :
    CountsFrom l nChars n (data :: link) (n + 1) :=
  ⟨by omega,by simp,fun _ => by omega,fun below => by omega,fun fits => by simpa [size] using fits⟩

theorem CountsFrom.cons (rest : CountsFrom l (nChars + data.length) (n + 1) link total)
    (fits : nChars + data.length ≤ l.nMaxChars) (other : (n + 1 : Nat) ≠ l.nMaxArg) :
    CountsFrom l nChars n (data :: link) total := by
  have least := rest.least
  have inside := rest.inside
  refine ⟨by omega,by simp only [length_cons]; omega,fun _ => by omega,fun below => rest.most (by omega),fun _ => ?_⟩
  rcases Nat.eq_or_lt_of_le least with last | further
  · simp only [← last,Nat.add_sub_cancel_left,Nat.sub_self,take_zero,size,map_nil,sum_nil]
    omega
  · have shift : total - n - 1 = total - (n + 1) - 1 + 1 := by omega
    rw [shift,take_succ_cons]
    simpa [size,add_assoc] using rest.below fits

theorem countPlain_counts (l : Limits) (list : List (List UInt8)) (nChars n : Nat) :
    CountsFrom l nChars n list (countPlain l nChars n list) := by
  induction list generalizing nChars n with
  | nil => exact .nil nChars n
  | cons data link ih =>
    rw [countPlain]
    split
    · exact .here nChars data link
    · rename_i more
      exact .cons (ih _ _) (not_lt.mp fun crossed => more (.inl crossed)) fun counted => more (.inr counted)

theorem countTermopt_counts (l : Limits) (terminate : Bool) (list : List (List UInt8)) (nChars n : Nat) :
    (∀ total, countTermopt l terminate nChars n list = .ok total → CountsFrom l nChars n list total) ∧
    ∀ message, countTermopt l terminate nChars n list = .error message → terminate = true := by
  induction list generalizing nChars n with
  | nil =>
    refine ⟨fun total same => ?_,fun message impossible => (by cases impossible)⟩
    obtain rfl := ok.inj same
    exact .nil nChars n
  | cons data link ih =>
    rw [countTermopt]
    split
    · split
      · rename_i ends
        exact ⟨fun total impossible => (by cases impossible),fun _ _ => ends⟩
      · refine ⟨fun total same => ?_,fun message impossible => (by cases impossible)⟩
        obtain rfl := ok.inj same
        exact .here nChars data link
    · rename_i more
      refine ⟨fun total same => ?_,(ih _ _).2⟩
      by_cases last : (n + 1 : Nat) = l.nMaxArg ∧ link = []
      · obtain ⟨counted,rfl⟩ := last
        obtain rfl := ok.inj same
        exact .here nChars data []
      · exact .cons ((ih _ _).1 total same) (not_lt.mp fun crossed => more (.inl crossed)) fun counted =>
          more (.inr ⟨counted,fun none => last ⟨counted,none⟩⟩)

theorem count_spec (o : Options) (l : Limits) (list : List (List UInt8)) :
    (∀ n, o.count l list = .ok n → Counts l list n) ∧
    ∀ message, o.count l list = .error message → o.terminate = true ∧ list ≠ [] := by
  have whole : ∀ n, CountsFrom l 0 0 list n → Counts l list n := fun n counts =>
    ⟨by have := counts.inside; omega,counts.some,counts.most,by simpa using counts.below (Nat.zero_le _)⟩
  rw [Options.count]
  split
  · obtain ⟨counts,ends⟩ := countTermopt_counts l o.terminate list 0 0
    refine ⟨fun n same => whole n (counts n same),fun message same => ⟨ends message same,?_⟩⟩
    rintro rfl
    cases same
  · refine ⟨fun n same => ?_,fun message impossible => (by cases impossible)⟩
    obtain rfl := ok.inj same
    exact whole _ (countPlain_counts l list 0 0)

/-! ### One turn -/

structure Small (l : Limits) (group : List (List UInt8)) : Prop where
  most : 0 < l.nMaxArg → (group.length : Int) ≤ l.nMaxArg
  below : size (entries group.dropLast) ≤ l.nMaxChars

/-- A command takes words from the front of those that are pending. -/
structure Takes (l : Limits) (pending group left : List (List UInt8)) : Prop extends Small l group where
  split : pending = group ++ left
  some : pending ≠ [] → group ≠ []

theorem takes_of_counts (counts : Counts l (entries held) n) (stops : unread = [] ∨ l.nMaxChars < size (entries held)) :
    Takes l (held ++ unread) (held.take n) (held.drop n ++ unread) := by
  have length : (held.take n).length = n := length_take_of_le (by simpa [entries] using counts.inside)
  refine ⟨⟨fun positive => ?_,?_⟩,by rw [← append_assoc,take_append_drop],fun nonempty => ?_⟩
  · rw [length]
    exact counts.most positive
  · rw [dropLast_eq_take,length,take_take,min_eq_left (Nat.sub_le n 1),entries,map_take]
    exact counts.below
  · have more : held ≠ [] := by
      rintro rfl
      rcases stops with rfl | long
      · exact nonempty rfl
      · simp [entries,size] at long
    have positive := counts.some (by simpa [entries] using more)
    intro none
    rw [none] at length
    simp at length
    omega

structure Holds (o : Options) (s : Run) (held : List (List UInt8)) : Prop where
  list : s.list = entries held
  eof : s.eof = true → s.rest = []

def pending (o : Options) (s : Run) (held : List (List UInt8)) : List (List UInt8) := held ++ o.words s.rest

theorem tokens_nil (o : Options) : o.tokens [] = [] := by
  rw [Options.tokens]
  split_ifs <;> rfl

def Options.args (o : Options) (group : List (List UInt8)) : List (List UInt8) := o.argv ++ group.map cString

theorem step_cases (holds : Holds o s held) :
    (∃ message, step o l status s = .inr ⟨s.commands,.died message⟩ ∧
      (¬ AllFit l.nMaxChars (o.tokens s.rest) ∨ (o.terminate = true ∧ pending o s held ≠ []))) ∨
    (step o l status s = .inr ⟨s.commands,.returned s.childError⟩ ∧ pending o s held = [] ∧ s.noEmpty = true) ∨
    ∃ group left, Takes l (pending o s held) group left ∧ (pending o s held = [] → s.noEmpty = false) ∧
      ((step o l status s = .inr ⟨s.commands ++ [o.args group],.returned (status s.commands.length)⟩ ∧
        status s.commands.length ≠ 0 ∧ status s.commands.length ≠ 123) ∨
      ∃ next held', step o l status s = .inl next ∧ Holds o next held' ∧ pending o next held' = left ∧
        next.commands = s.commands ++ [o.args group] ∧ next.noEmpty = true ∧
        (AllFit l.nMaxChars (o.tokens s.rest) ↔ AllFit l.nMaxChars (o.tokens next.rest))) := by
  obtain ⟨returns,fails⟩ := readArgs_spec o l.nMaxChars s.list holds.eof
  cases reading : o.readArgs l.nMaxChars s.list s.rest s.eof with
  | error message =>
    exact .inl ⟨message,by rw [step,reading],.inl (fails message reading)⟩
  | ok read =>
    obtain ⟨taken,ok⟩ := returns read reading
    have list : read.list = entries (held ++ taken) := by rw [ok.list,holds.list,entries_append]
    have words : pending o s held = (held ++ taken) ++ o.words read.rest := by
      rw [pending,Options.words,ok.passes.1,append_assoc,Options.words]
    have stops : o.words read.rest = [] ∨ l.nMaxChars < size (entries (held ++ taken)) := by
      rcases ok.stops with ended | long
      · exact .inl (by rw [Options.words,ended,tokens_nil]; rfl)
      · exact .inr (by rwa [← list])
    have empty : read.list = [] ↔ pending o s held = [] := by
      rw [list,words,entries,map_eq_nil_iff]
      constructor
      · intro none
        rw [none] at stops ⊢
        exact stops.resolve_right fun long => by simp [entries,size] at long
      · exact fun none => (append_eq_nil_iff.mp none).1
    by_cases done : read.list = [] ∧ s.noEmpty = true
    · exact .inr (.inl ⟨by rw [step,reading]; exact if_pos done,empty.mp done.1,done.2⟩)
    obtain ⟨counted,ends⟩ := count_spec o l read.list
    cases counting : o.count l read.list with
    | error message =>
      obtain ⟨terminate,more⟩ := ends message counting
      refine .inl ⟨message,?_,.inr ⟨terminate,fun none => more (empty.mpr none)⟩⟩
      rw [step,reading]
      simp only [if_neg done,counting]
    | ok n =>
      have counts := counted n counting
      rw [list] at counts
      right; right
      refine ⟨(held ++ taken).take n,(held ++ taken).drop n ++ o.words read.rest,?_,?_,?_⟩
      · rw [words]
        exact takes_of_counts counts stops
      · intro none
        by_contra other
        exact done ⟨empty.mpr none,by simpa using other⟩
      · have strings : (read.list.take n).map cString = ((held ++ taken).take n).map cString := by
          rw [list,entries,← map_take,map_map]
          exact map_congr_left fun w _ => cString_terminated w
        by_cases aborts : status s.commands.length > 0 ∧ status s.commands.length ≠ 123
        · refine .inl ⟨?_,ne_of_gt aborts.1,aborts.2⟩
          rw [step,reading]
          simp only [if_neg done,counting,if_pos aborts,strings,Options.args]
        · refine .inr ⟨s.after read n (status s.commands.length) (o.args ((held ++ taken).take n)),
            (held ++ taken).drop n,
            ?_,⟨?_,ok.eof⟩,rfl,rfl,rfl,ok.passes.2⟩
          · rw [step,reading]
            simp only [if_neg done,counting,if_neg aborts,strings,Options.args]
          · simp only [Run.after]
            rw [list,entries,entries,map_drop]

/-! ### Runs -/

structure Keeps (o : Options) (l : Limits) (input : List UInt8) (s : Run) (groups : List (List (List UInt8)))
    (held : List (List UInt8)) : Prop extends Holds o s held where
  commands : s.commands = groups.map o.args
  words : o.words input = groups.flatten ++ pending o s held
  fits : AllFit l.nMaxChars (o.tokens input) ↔ AllFit l.nMaxChars (o.tokens s.rest)
  small : ∀ group ∈ groups, Small l group
  first : s.noEmpty = false → o.noEmpty = false
  empty : o.words input = [] → groups = if s.noEmpty = true ∧ o.noEmpty = false then [[]] else []

structure Ends (o : Options) (l : Limits) (status : Nat → Nat) (input : List UInt8) (result : Result)
    (groups : List (List (List UInt8))) : Prop where
  commands : result.commands = groups.map o.args
  front : groups.flatten <+: o.words input
  small : ∀ group ∈ groups, Small l group
  whole : AllFit l.nMaxChars (o.tokens input) → o.terminate = false → (∀ i, status i = 0 ∨ status i = 123) →
    groups.flatten = o.words input ∧ ∃ childError, result.ending = .returned childError
  empty : AllFit l.nMaxChars (o.tokens input) → o.words input = [] → groups = if o.noEmpty then [] else [[]]

section Snoc

variable {s : Run} {groups : List (List (List UInt8))} {held group left : List (List UInt8)}

section

variable (keeps : Keeps o l input s groups held) (takes : Takes l (pending o s held) group left)

include keeps takes

theorem Keeps.snoc_words : o.words input = (groups ++ [group]).flatten ++ left := by
  rw [keeps.words,takes.split,flatten_append,append_assoc]
  simp

theorem Keeps.snoc_small : ∀ other ∈ groups ++ [group], Small l other :=
  forall_mem_append.mpr ⟨keeps.small,forall_mem_singleton.mpr takes.toSmall⟩

theorem Keeps.snoc_empty (first : pending o s held = [] → s.noEmpty = false) (none : o.words input = []) :
    groups ++ [group] = [[]] ∧ o.noEmpty = false := by
  have words := keeps.words
  rw [none] at words
  have nothing : pending o s held = [] := (append_eq_nil_iff.mp words.symm).2
  have split := takes.split
  rw [nothing] at split
  have before := keeps.empty none
  rw [first nothing] at before
  rw [before,(append_eq_nil_iff.mp split.symm).1]
  exact ⟨rfl,keeps.first (first nothing)⟩

end

end Snoc

theorem turn_keeps (weight : Nat) (s : Run) (kept : ∃ groups held, Keeps o l input s groups held ∧
      weight = (pending o s held).length + if s.noEmpty then 0 else 1) :
    (∃ lighter next, step o l status s = .inl next ∧ (∃ groups held, Keeps o l input next groups held ∧
      lighter = (pending o next held).length + if next.noEmpty then 0 else 1) ∧ lighter < weight) ∨
    ∃ result, step o l status s = .inr result ∧ ∃ groups, Ends o l status input result groups := by
  obtain ⟨groups,held,keeps,rfl⟩ := kept
  have front : groups.flatten <+: o.words input := ⟨_,keeps.words.symm⟩
  rcases step_cases keeps.toHolds with ⟨message,died,why⟩ | ⟨returned,none,noEmpty⟩ |
    ⟨group,left,takes,first,⟨aborted,failed,stopped⟩ | ⟨next,held',goes,holds,rest,ran,noEmpty,fits⟩⟩
  · refine .inr ⟨_,died,groups,keeps.commands,front,keeps.small,?_,?_⟩
    · intro fit quiet _
      rcases why with large | ⟨terminate,_⟩
      · exact absurd (keeps.fits.mp fit) large
      · cases quiet.symm.trans terminate
    · intro fit none
      rcases why with large | ⟨_,more⟩
      · exact absurd (keeps.fits.mp fit) large
      have words := keeps.words
      rw [none] at words
      exact absurd (append_eq_nil_iff.mp words.symm).2 more
  · refine .inr ⟨_,returned,groups,keeps.commands,front,keeps.small,fun _ _ _ => ⟨?_,_,rfl⟩,fun _ empty => ?_⟩
    · rw [keeps.words,none,append_nil]
    · rw [keeps.empty empty,noEmpty]
      cases o.noEmpty <;> rfl
  · refine .inr ⟨_,aborted,groups ++ [group],by simp [keeps.commands],⟨left,(keeps.snoc_words takes).symm⟩,
      keeps.snoc_small takes,?_,fun _ empty => ?_⟩
    · intro _ _ succeeds
      rcases succeeds s.commands.length with zero | other
      · exact absurd zero failed
      · exact absurd other stopped
    · obtain ⟨only,absent⟩ := keeps.snoc_empty takes first empty
      rw [only,absent]
      rfl
  · have shorter : (pending o next held').length + (if next.noEmpty then 0 else 1)
        < (pending o s held).length + if s.noEmpty then 0 else 1 := by
      rw [rest,noEmpty,takes.split,length_append]
      by_cases none : pending o s held = []
      · rw [first none]
        simp only [if_true,Bool.false_eq_true,if_false]
        omega
      · have positive := length_pos_iff.mpr (takes.some none)
        simp only [if_true]
        omega
    refine .inl ⟨_,next,goes,⟨groups ++ [group],held',⟨holds,?_,?_,?_,keeps.snoc_small takes,?_,?_⟩,rfl⟩,shorter⟩
    · simp [ran,keeps.commands]
    · rw [rest]
      exact keeps.snoc_words takes
    · exact keeps.fits.trans fits
    · intro present
      cases noEmpty.symm.trans present
    · intro none
      obtain ⟨only,absent⟩ := keeps.snoc_empty takes first none
      rw [only,if_pos ⟨noEmpty,absent⟩]

theorem start_keeps (o : Options) (l : Limits) (input : List UInt8) : Keeps o l input (o.start input) [] [] := by
  refine ⟨⟨rfl,fun impossible => (by cases impossible)⟩,rfl,rfl,Iff.rfl,by simp,id,fun _ => ?_⟩
  rw [if_neg]
  rintro ⟨present,absent⟩
  have same : o.noEmpty = true := present
  cases same.symm.trans absent

theorem yields_ends (o : Options) (l : Limits) (status : Nat → Nat) (input : List UInt8) :
    ∃ result, Yields (step o l status) (o.start input) result ∧ ∃ groups, Ends o l status input result groups :=
  yields_of_weight Nat.lt_wfRel.wf
    (fun weight s => ∃ groups held, Keeps o l input s groups held ∧
      weight = (pending o s held).length + if s.noEmpty then 0 else 1)
    (fun result => ∃ groups, Ends o l status input result groups) turn_keeps _ _ ⟨[],[],start_keeps o l input,rfl⟩

/-! ### The result -/

theorem terminated_length (words : List (List UInt8)) : (terminated words).length = size (entries words) := by
  induction words with
  | nil => rfl
  | cons w words ih =>
    simp only [terminated_cons,length_append,length_cons,ih,entries,size,map_cons,sum_cons,length_nil]
    omega

theorem terminated_strings (group : List (List UInt8)) :
    (terminated (group.map cString)).length ≤ size (entries group) := by
  rw [← terminated_length]
  induction group with
  | nil => exact le_rfl
  | cons w group ih =>
    have shorter : (cString w).length ≤ w.length := (List.takeWhile_prefix _).length_le
    simp only [map_cons,terminated_cons,length_append,length_cons]
    omega

/-- The fixed arguments with any `-n` consecutive words of the input, or with all of them, fit into the limit. -/
def Options.BlocksFit (o : Options) (input : List UInt8) (limit : Nat) : Prop :=
  ∀ j, (terminated o.argv).length +
    (terminated (((o.words input).drop j).take (o.maxArgs.getD (o.words input).length))).length ≤ limit

theorem limits_ok (limits : o.limits = .ok l) :
    (∀ n, o.maxArgs = some n → 0 < n ∧ l.nMaxArg = n) ∧
    ∀ n, o.maxChars = some n → o.share + l.nMaxChars = n := by
  rw [Options.limits.eq_def] at limits
  cases chars : o.nMaxChars with
  | error message =>
    rw [chars] at limits
    cases limits
  | ok mc =>
    simp only [chars] at limits
    have room : ∀ n, o.maxChars = some n → o.share + mc = n := by
      intro n asked
      rw [Options.nMaxChars.eq_def,asked] at chars
      simp only at chars
      split_ifs at chars with bad small
      have left := ok.inj chars
      omega
    cases counted : o.maxArgs with
    | none =>
      rw [counted] at limits
      obtain rfl := ok.inj limits
      exact ⟨fun n impossible => (by cases impossible),room⟩
    | some m =>
      simp only [counted] at limits
      split_ifs at limits with bad
      obtain rfl := ok.inj limits
      refine ⟨fun n same => ?_,room⟩
      obtain rfl := Option.some.inj same
      exact ⟨by omega,rfl⟩

/-- The words of a command are consecutive words of the input. -/
theorem Ends.consecutive (ends : Ends o l status input result groups) (listed : group ∈ groups) :
    ∃ j left, (o.words input).drop j = group ++ left := by
  obtain ⟨before,after,split⟩ := append_of_mem listed
  obtain ⟨left,whole⟩ := ends.front
  refine ⟨before.flatten.length,after.flatten ++ left,?_⟩
  rw [← whole,split]
  simp

theorem Ends.size_le (ends : Ends o l status input result groups) (limits : o.limits = .ok l)
    (fit : o.BlocksFit input limit) (listed : group ∈ groups) :
    (terminated o.argv).length + size (entries group) ≤ limit := by
  obtain ⟨j,left,drops⟩ := ends.consecutive listed
  have few : group.length ≤ o.maxArgs.getD (o.words input).length := by
    cases counted : o.maxArgs with
    | none =>
      have lengths := congrArg List.length drops
      simp only [length_drop,length_append] at lengths
      rw [Option.getD_none]
      omega
    | some n =>
      obtain ⟨positive,most⟩ := (limits_ok limits).1 n counted
      have length := (ends.small group listed).most (by omega)
      rw [Option.getD_some]
      omega
  have whole := fit j
  rw [drops,take_append,take_of_length_le few,terminated_append,length_append,terminated_length group] at whole
  omega

/-- The commands get the words of the input in their order, each once: all of them if every word fits into what `-s`
leaves, every quote is closed and no command asks to stop, and the first ones otherwise. -/
theorem xargs_partitions (o : Options) (status : Nat → Nat) (input : List UInt8) :
    ∃ result groups, o.Runs status input result ∧ result.commands = groups.map (o.argv ++ ·) ∧
      groups.flatten <+: (o.words input).map cString ∧
      (∀ n, o.maxArgs = some n → ∀ group ∈ groups, group.length ≤ n) ∧
      (∀ l, o.limits = .ok l → AllFit l.nMaxChars (o.tokens input) →
        (o.words input = [] → groups = if o.noEmpty then [] else [[]]) ∧
        (o.terminate = false → (∀ i, status i = 0 ∨ status i = 123) →
          groups.flatten = (o.words input).map cString ∧ ∃ childError, result.ending = .returned childError)) ∧
      ∀ limit, o.maxChars = some limit → ∀ group ∈ groups,
        o.share + (terminated group.dropLast).length ≤ limit ∧
        (o.BlocksFit input limit → (terminated (o.argv ++ group)).length ≤ limit) := by
  cases limits : o.limits with
  | error message =>
    exact ⟨⟨[],.died message⟩,[],by simp [Options.Runs,limits],rfl,List.nil_prefix,by simp,
      fun l impossible => (by cases impossible),by simp⟩
  | ok l =>
    obtain ⟨result,yields,groups,ends⟩ := yields_ends o l status input
    refine ⟨result,groups.map (·.map cString),by simpa [Options.Runs,limits] using yields,?_,?_,?_,?_,?_⟩
    · rw [ends.commands,map_map]
      rfl
    · rw [← map_flatten]
      exact ends.front.map _
    · intro n counted group listed
      obtain ⟨words,there,rfl⟩ := mem_map.mp listed
      obtain ⟨positive,most⟩ := (limits_ok limits).1 n counted
      have length := (ends.small words there).most (by omega)
      rw [length_map]
      omega
    · intro l' same fit
      obtain rfl := ok.inj same
      refine ⟨fun none => ?_,fun quiet succeeds => ?_⟩
      · rw [ends.empty fit none]
        cases o.noEmpty <;> rfl
      · obtain ⟨all,ended⟩ := ends.whole fit quiet succeeds
        exact ⟨by rw [← map_flatten,all],ended⟩
    · intro limit asked group listed
      obtain ⟨words,there,rfl⟩ := mem_map.mp listed
      constructor
      · have room := (limits_ok limits).2 limit asked
        have below := (ends.small words there).below
        have strings := terminated_strings words.dropLast
        rw [← map_dropLast]
        omega
      · intro fit
        have small := ends.size_le limits fit there
        have strings := terminated_strings words
        rw [terminated_append,length_append]
        omega

theorem runs_of_exec (limits : o.limits = .ok l) (fuel : Nat)
    (done : exec (step o l status) fuel (o.start input) = some result) : o.Runs status input result := by
  rw [Options.Runs,limits]
  exact ⟨fuel,done⟩

theorem xargs_partitions_three :
    ∃ (result : Result) (groups : List (List (List UInt8))),
      Options.Runs { noOptions with maxArgs := some 2 } (fun _ => 0) (text "a b\n c") result ∧
      result.commands = groups.map ([text "echo"] ++ ·) ∧ (∀ group ∈ groups, group.length ≤ 2) ∧
      groups.flatten = [text "a",text "b",text "c"] := by
  obtain ⟨result,groups,runs,commands,-,most,whole,-⟩ :=
    xargs_partitions { noOptions with maxArgs := some 2 } (fun _ => 0) (text "a b\n c")
  refine ⟨result,groups,runs,commands,most 2 rfl,?_⟩
  have tokens : Options.tokens { noOptions with maxArgs := some 2 } (text "a b\n c")
      = [.word (text "a"),.word (text "b"),.word (text "c")] := by rfl
  have words : Options.words { noOptions with maxArgs := some 2 } (text "a b\n c") =
      [text "a",text "b",text "c"] := by rfl
  obtain ⟨all,-⟩ := (whole ⟨20480,2⟩ (by decide +kernel) (by
    rw [tokens]
    intro token listed
    simp only [mem_cons,not_mem_nil,or_false] at listed
    rcases listed with rfl | rfl | rfl <;> exact lt_of_lt_of_le (by decide : 1 < 2) (by decide))).2 rfl fun _ =>
      .inl rfl
  rw [all,words]
  rfl

/-- With `-0` the end-of-file string is a word like any other. Of two words the second one crosses the limit of `-s`
and is used all the same. -/
theorem xargs_zero_and_size :
    Options.Runs { noOptions with zero := true } (fun _ => 0) (text "a" ++ [0] ++ text "_" ++ [0])
      ⟨[[text "echo",text "a",text "_"]],.returned 0⟩ ∧
    Options.Runs { noOptions with maxChars := some 10 } (fun _ => 0) (text "aaaa b")
      ⟨[[text "echo",text "aaaa",text "b"]],.returned 0⟩ ∧
    (terminated [text "echo",text "aaaa",text "b"]).length = 12 :=
  ⟨runs_of_exec (l := ⟨20480,20480⟩) (by decide +kernel) 3 (by decide +kernel),
    runs_of_exec (l := ⟨5,5⟩) (by decide +kernel) 3
    (by decide +kernel),
    by decide +kernel⟩

end Stablebox.Xargs
