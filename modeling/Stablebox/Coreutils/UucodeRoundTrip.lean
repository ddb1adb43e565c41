import Mathlib.Data.List.GetD
import Stablebox.Coreutils.Uucode

/-! uudecode recreates what uuencode was given. Both sides are compared with one encoding by
groups of three bytes. -/
namespace Stablebox.Uucode

open Libbb List Digits

def quads (tbl : List UInt8) : List UInt8 → List UInt8
  | [] => []
  | [a] => [encoded tbl (a.toNat / 4),encoded tbl (a.toNat % 4 * 16),encoded tbl 64,encoded tbl 64]
  | [a,b] =>
    [encoded tbl (a.toNat / 4),encoded tbl (a.toNat % 4 * 16 + b.toNat / 16),encoded tbl (b.toNat % 16 * 4),
      encoded tbl 64]
  | a :: b :: c :: rest =>
    encoded tbl (a.toNat / 4) :: encoded tbl (a.toNat % 4 * 16 + b.toNat / 16) ::
      encoded tbl (b.toNat % 16 * 4 + c.toNat / 64) :: encoded tbl (c.toNat % 64) :: quads tbl rest

theorem quads_length (tbl bytes : List UInt8) : (quads tbl bytes).length = 4 * ((bytes.length + 2) / 3) := by
  fun_induction quads tbl bytes with
  | case1 => rfl
  | case2 => simp
  | case3 => simp
  | case4 a b c rest ih =>
    simp only [length_cons,ih]
    omega

theorem encodeGroups_length (tbl : List UInt8) (turns : Nat) (s : List UInt8) :
    (encodeGroups tbl turns s).length = 4 * turns := by
  induction turns generalizing s with
  | zero => rfl
  | succ turns ih =>
    simp only [encodeGroups,length_append,length_cons,length_nil,ih]
    omega

theorem uuencode_cons (tbl : List UInt8) (a b c : UInt8) (s : List UInt8) (length : Nat) :
    uuencode (a :: b :: c :: s) (length + 3) tbl =
      encoded tbl (a.toNat / 4) :: encoded tbl (a.toNat % 4 * 16 + b.toNat / 16) ::
        encoded tbl (b.toNat % 16 * 4 + c.toNat / 64) :: encoded tbl (c.toNat % 64) :: uuencode s length tbl := by
  have turns : (length + 3 + 2) / 3 = (length + 2) / 3 + 1 := by omega
  have size := encodeGroups_length tbl ((length + 2) / 3) s
  have one : (3 * ((length + 2) / 3 + 1) = length + 3 + 1) ↔ 3 * ((length + 2) / 3) = length + 1 := by omega
  have two : (3 * ((length + 2) / 3 + 1) = length + 3 + 2) ↔ 3 * ((length + 2) / 3) = length + 2 := by omega
  simp only [uuencode,turns,one,two,encodeGroups,getD_cons_zero,getD_cons_succ,drop_succ_cons,drop_zero]
  generalize encodeGroups tbl ((length + 2) / 3) s = store at size ⊢
  by_cases empty : store = []
  · rw [empty,length_nil] at size
    rw [if_neg (by omega),if_neg (by omega),if_neg (by omega),if_neg (by omega)]
    rfl
  · have first (x : UInt8) : (x :: store).dropLast = x :: store.dropLast := dropLast_cons_of_ne_nil empty
    have more : store.dropLast ≠ [] := by
      rw [Ne,← length_eq_zero_iff,length_dropLast]
      have := length_pos_iff.mpr empty
      omega
    have second (x : UInt8) : (x :: store.dropLast).dropLast = x :: store.dropLast.dropLast :=
      dropLast_cons_of_ne_nil more
    split
    · simp [first]
    split
    · simp [first,second]
    · rfl

theorem uuencode_eq (tbl bytes : List UInt8) (zeros : Nat) :
    uuencode (bytes ++ replicate zeros 0) bytes.length tbl = quads tbl bytes := by
  fun_induction quads tbl bytes with
  | case1 => simp [uuencode,encodeGroups]
  | case2 a => simp [uuencode,encodeGroups,getElem?_getD_replicate_default_eq]
  | case3 a b => simp [uuencode,encodeGroups,getElem?_getD_replicate_default_eq]
  | case4 a b c rest ih =>
    have step := uuencode_cons tbl a b c (rest ++ replicate zeros 0) rest.length
    rw [ih] at step
    exact step

theorem merge_bytes (a b c : UInt8) :
    UInt8.ofNat (a.toNat / 4 * 4 ||| (a.toNat % 4 * 16 + b.toNat / 16) / 16) = a ∧
      UInt8.ofNat ((a.toNat % 4 * 16 + b.toNat / 16) * 16 ||| (b.toNat % 16 * 4 + c.toNat / 64) / 4) = b ∧
        UInt8.ofNat ((b.toNat % 16 * 4 + c.toNat / 64) * 64 ||| c.toNat % 64) = c := by
  have boundA := a.toNat_lt
  have boundB := b.toNat_lt
  have boundC := c.toNat_lt
  have join (i high low : Nat) (byte : UInt8) (small : low < 2 ^ i)
      (value : (high * 2 ^ i + low) % 2 ^ 8 = byte.toNat) : UInt8.ofNat (high * 2 ^ i ||| low) = byte := by
    apply UInt8.toNat_inj.mp
    rw [mul_comm,← Nat.two_pow_add_eq_or_of_lt small,UInt8.toNat_ofNat',mul_comm,value]
  exact ⟨join 2 _ _ a (by omega) (by omega),join 4 _ _ b (by omega) (by omega),
    join 6 _ _ c (by omega) (by omega)⟩

theorem sixBits_encoded : ∀ i < 64, sixBits (encoded tblStd i) = i := by decide

theorem mergeStd_quads (bytes : List UInt8) : mergeStd (bytes.length * 4 / 3) (quads tblStd bytes) = bytes := by
  fun_induction quads tblStd bytes with
  | case1 => rfl
  | case2 a =>
    have bound := a.toNat_lt
    have merged := (merge_bytes a 0 0).1
    have length : [a].length * 4 / 3 = 0 + 1 := by simp
    simp only [UInt8.toNat_zero,Nat.zero_div,add_zero] at merged
    rw [length]
    simp (disch := omega) only [mergeStd,getD_cons_zero,getD_cons_succ,sixBits_encoded,merged]
  | case3 a b =>
    have boundA := a.toNat_lt
    have boundB := b.toNat_lt
    obtain ⟨first,second,_⟩ := merge_bytes a b 0
    have length : [a,b].length * 4 / 3 = 1 + 1 := by simp
    simp only [UInt8.toNat_zero,Nat.zero_div,add_zero] at second
    rw [length]
    simp (disch := omega) only [mergeStd,getD_cons_zero,getD_cons_succ,sixBits_encoded,first,second]
  | case4 a b c rest ih =>
    have boundA := a.toNat_lt
    have boundB := b.toNat_lt
    have boundC := c.toNat_lt
    obtain ⟨first,second,third⟩ := merge_bytes a b c
    have length : (a :: b :: c :: rest).length * 4 / 3 = rest.length * 4 / 3 + 3 + 1 := by
      simp only [length_cons]
      omega
    rw [length]
    simp (disch := omega) only [mergeStd,getD_cons_zero,getD_cons_succ,sixBits_encoded,first,second,third,
      drop_succ_cons,drop_zero,ih]

theorem encoded_mem (tbl : List UInt8) (inside : i < tbl.length) : encoded tbl i ∈ tbl := by
  simp [encoded,inside]

theorem quads_mem (size : tbl.length = 65) (bytes : List UInt8) : ∀ ch ∈ quads tbl bytes, ch ∈ tbl := by
  have inside (i : Nat) (small : i < 65) : encoded tbl i ∈ tbl := encoded_mem tbl (by omega)
  fun_induction quads tbl bytes with
  | case1 => simp
  | case2 a =>
    have bound := a.toNat_lt
    simp (disch := omega) [inside]
  | case3 a b =>
    have boundA := a.toNat_lt
    have boundB := b.toNat_lt
    simp (disch := omega) [inside]
  | case4 a b c rest ih =>
    have boundA := a.toNat_lt
    have boundB := b.toNat_lt
    have boundC := c.toNat_lt
    simpa (disch := omega) [inside] using ih

theorem tblStd_plain : ∀ ch ∈ tblStd, (ch ≠ 0 ∧ ch ≠ 10) ∧ ch ≠ 101 := by decide +kernel

/-- What `fread` gives for a whole file: only the last read is short. -/
structure Chunked (reads : List (List UInt8)) : Prop where
  full : ∀ chunk ∈ reads.dropLast, chunk.length = srcBufSize
  sized : ∀ chunk ∈ reads, 0 < chunk.length ∧ chunk.length ≤ srcBufSize

variable {reads : List (List UInt8)}

theorem Chunked.tail (chunked : Chunked (chunk :: reads)) : Chunked reads := by
  refine ⟨fun other listed => chunked.full other ?_,fun other listed => chunked.sized other (by simp [listed])⟩
  cases reads with
  | nil => simp at listed
  | cons next reads => simp [listed]

def lineOf (base64 : Bool) (chunk : List UInt8) : List UInt8 :=
  if base64 then quads tblBase64 chunk else encoded tblStd chunk.length :: quads tblStd chunk

theorem encodeLines_eq (base64 : Bool) (chunked : Chunked reads) :
    encodeLines base64 reads 60 = reads.flatMap fun chunk => 10 :: lineOf base64 chunk := by
  induction reads with
  | nil => rfl
  | cons chunk reads ih =>
    obtain ⟨positive,small⟩ := chunked.sized chunk (by simp)
    have body (tbl : List UInt8) : (uuencode (if chunk.length ≠ srcBufSize then
        chunk ++ replicate (srcBufSize - chunk.length) 0 else chunk) chunk.length tbl).take
          (if chunk.length ≠ srcBufSize then 4 * ((chunk.length + 2) / 3) else 60) = quads tbl chunk := by
      have length := quads_length tbl chunk
      split
      · rw [uuencode_eq,take_of_length_le (by omega)]
      have whole := uuencode_eq tbl chunk 0
      rw [replicate_zero,append_nil] at whole
      rw [whole,take_of_length_le (by simp only [srcBufSize] at small; omega)]
    have rest : encodeLines base64 reads (if chunk.length ≠ srcBufSize then 4 * ((chunk.length + 2) / 3) else 60) =
        reads.flatMap fun chunk => 10 :: lineOf base64 chunk := by
      cases reads with
      | nil => rfl
      | cons next reads =>
        rw [if_neg (by simpa using chunked.full chunk (by simp))]
        exact ih chunked.tail
    simp only [encodeLines,Nat.pos_iff_ne_zero.mp positive,if_false,body,rest,flatMap_cons,lineOf]
    cases base64 <;> simp

theorem readStduu_lines (reads : List (List UInt8)) (chunked : Chunked reads) (fuel : Nat)
    (enough : reads.length + 2 ≤ fuel) :
    readStduu fuel ((reads.flatMap fun chunk => lineOf false chunk ++ [10]) ++ text "\x60\nend\n") =
      .ok reads.flatten := by
  induction reads generalizing fuel with
  | nil =>
    obtain ⟨fuel,rfl⟩ : ∃ more, fuel = more + 2 := ⟨fuel - 2,by simp at enough; omega⟩
    rfl
  | cons chunk reads ih =>
    obtain ⟨fuel,rfl⟩ : ∃ more, fuel = more + 1 := ⟨fuel - 1,by simp at enough; omega⟩
    obtain ⟨positive,small⟩ := chunked.sized chunk (by simp)
    simp only [srcBufSize] at small
    have later := ih chunked.tail fuel (by simp at enough; omega)
    have length := quads_length tblStd chunk
    have sizeMem : encoded tblStd chunk.length ∈ tblStd := encoded_mem tblStd (show _ < 65 by omega)
    have plain : ∀ ch ∈ lineOf false chunk, ch ≠ 0 ∧ ch ≠ 10 := by
      intro ch listed
      simp only [lineOf,Bool.false_eq_true,if_false,mem_cons] at listed
      rcases listed with rfl | listed
      · exact (tblStd_plain _ sizeMem).1
      · exact (tblStd_plain ch (quads_mem rfl chunk ch listed)).1
    have notEnd : lineOf false chunk ≠ text "end" := by
      intro eq
      have head := congrArg List.head? eq
      exact (tblStd_plain _ sizeMem).2 (Option.some.inj head)
    have line := chomped_append (lineOf false chunk)
      ((reads.flatMap fun chunk => lineOf false chunk ++ [10]) ++ text "\x60\nend\n") plain
    simp only [flatMap_cons,append_assoc,cons_append,nil_append]
    rw [readStduu,line]
    simp only [notEnd,if_false]
    simp only [lineOf,Bool.false_eq_true,if_false,sixBits_encoded chunk.length (by omega)]
    rw [if_neg (by omega),if_neg (by omega),if_neg (by omega)]
    simp only [lineOf,Bool.false_eq_true,if_false] at later
    rw [later,mergeStd_quads]
    rfl

theorem base64Index_encoded : ∀ i < 64, base64Index (encoded tblBase64 i) = some i ∧
    encoded tblBase64 i ≠ 61 ∧ encoded tblBase64 i ≠ 10 := by decide

theorem readBase64_char (small : i < 64) (file : List UInt8) (termCount : Nat) (room : translated.length < 3) :
    readBase64 (encoded tblBase64 i :: file) translated termCount = readBase64 file (translated ++ [i]) 0 := by
  obtain ⟨index,notPad,notLine⟩ := base64Index_encoded i small
  rw [readBase64,index]
  simp [notPad,notLine,ne_of_lt room]

theorem readBase64_last (i : Nat) (small : i < 64) (file : List UInt8) (translated : List Nat) (termCount : Nat)
    (full : translated.length = 3) (later : readBase64 file [] 0 = .ok out) :
    readBase64 (encoded tblBase64 i :: file) translated termCount = .ok (mergeBase64 (translated ++ [i]) ++ out) := by
  obtain ⟨index,notPad,notLine⟩ := base64Index_encoded i small
  rw [readBase64,index]
  simp only [notPad,notLine,if_false,full,if_true,later]
  rfl

theorem readBase64_pad (file : List UInt8) (translated : List Nat) (later : readBase64 file [] 0 = .ok out) :
    readBase64 (encoded tblBase64 64 :: file) translated 0 = .ok (mergeBase64 translated ++ out) := by
  have index : base64Index (encoded tblBase64 64) = some 64 := by decide
  have pad : encoded tblBase64 64 = 61 := by decide
  rw [readBase64,index]
  simp only [pad,if_true,later]
  rfl

theorem readBase64_quads (bytes file : List UInt8) (termCount : Nat) (line : bytes = [] → termCount = 0)
    (later : readBase64 file [] 0 = .ok out) :
    readBase64 (quads tblBase64 bytes ++ file) [] termCount = .ok (bytes ++ out) := by
  fun_induction quads tblBase64 bytes generalizing termCount with
  | case1 => simp [line rfl,later]
  | case2 a =>
    have bound := a.toNat_lt
    have merged := (merge_bytes a 0 0).1
    simp only [UInt8.toNat_zero,Nat.zero_div,add_zero] at merged
    simp only [cons_append,nil_append]
    rw [readBase64_char (by omega) _ _ (by simp),readBase64_char (by omega) _ _ (by simp),
      readBase64_pad _ _ (readBase64_pad _ _ later)]
    simp only [nil_append,cons_append,mergeBase64,merged]
  | case3 a b =>
    have boundA := a.toNat_lt
    have boundB := b.toNat_lt
    obtain ⟨first,second,_⟩ := merge_bytes a b 0
    simp only [UInt8.toNat_zero,Nat.zero_div,add_zero] at second
    simp only [cons_append,nil_append]
    rw [readBase64_char (by omega) _ _ (by simp),readBase64_char (by omega) _ _ (by simp),
      readBase64_char (by omega) _ _ (by simp),readBase64_pad _ _ later]
    simp only [nil_append,cons_append,mergeBase64,first,second]
  | case4 a b c rest ih =>
    have boundA := a.toNat_lt
    have boundB := b.toNat_lt
    have boundC := c.toNat_lt
    obtain ⟨first,second,third⟩ := merge_bytes a b c
    simp only [cons_append]
    rw [readBase64_char (by omega) _ _ (by simp),readBase64_char (by omega) _ _ (by simp),
      readBase64_char (by omega) _ _ (by simp),readBase64_last _ (by omega) _ _ _ (by simp) (ih 0 (fun _ => rfl))]
    simp only [nil_append,cons_append,mergeBase64,first,second,third]

theorem readBase64_lines (chunked : Chunked reads) :
    readBase64 ((reads.flatMap fun chunk => lineOf true chunk ++ [10]) ++ text "====\n") [] 1 = .ok reads.flatten := by
  induction reads with
  | nil => rfl
  | cons chunk reads ih =>
    obtain ⟨positive,_⟩ := chunked.sized chunk (by simp)
    have later := ih chunked.tail
    simp only [flatMap_cons,append_assoc,singleton_append,flatten_cons]
    exact readBase64_quads chunk _ 1 (fun empty => by simp [empty] at positive) later

structure FileName where
  bytes : List UInt8
  plain : ∀ ch ∈ bytes, ch ≠ 0 ∧ ch ≠ 10

theorem mode_lt (src : SrcStream) : src.mode < 512 := by
  cases src with
  | named stMode => exact Nat.mod_lt _ (by decide)
  | stdin umask =>
    simp only [SrcStream.mode]
    omega

theorem uuencodeMain_eq (base64 : Bool) (src : SrcStream) (name : List UInt8) (chunked : Chunked reads) :
    uuencodeMain base64 src name reads =
      ((if base64 then text "begin-base64 " else text "begin ") ++ (print 8 0 src.mode ++ 32 :: name)) ++
        10 :: ((reads.flatMap fun chunk => lineOf base64 chunk ++ [10]) ++
          if base64 then text "====\n" else text "\x60\nend\n") := by
  have rotate (lines : List (List UInt8)) (last : List UInt8) :
      (lines.flatMap fun chunk => 10 :: lineOf base64 chunk) ++ 10 :: last =
        10 :: ((lines.flatMap fun chunk => lineOf base64 chunk ++ [10]) ++ last) := by
    induction lines with
    | nil => rfl
    | cons chunk lines ih => simp [ih]
  have size : 4 * ((srcBufSize + 2) / 3) = 60 := rfl
  rw [uuencodeMain,size,encodeLines_eq base64 chunked]
  cases base64 with
  | true =>
    have keyword : text "begin" ++ text "-base64" ++ text " " = text "begin-base64 " := rfl
    have last : text "\n====\n" = 10 :: text "====\n" := rfl
    have blank : text " " = [32] := rfl
    simp only [if_true,← append_assoc,keyword]
    simp only [last,blank,append_assoc,rotate,cons_append,nil_append]
  | false =>
    have keyword : text "begin" ++ text " " = text "begin " := rfl
    have last : text "\n\x60\nend\n" = 10 :: text "\x60\nend\n" := rfl
    have blank : text " " = [32] := rfl
    simp only [Bool.false_eq_true,if_false,append_nil,← append_assoc,keyword]
    simp only [last,blank,append_assoc,rotate,cons_append,nil_append]

theorem digit_plain : ∀ ch ∈ print 8 width n, (ch ≠ 0 ∧ ch ≠ 10) ∧ ch ≠ 32 := by
  intro ch listed
  obtain ⟨digit,there,rfl⟩ := mem_map.mp listed
  have small : digit < 8 := by
    rcases mem_append.mp there with zero | there
    · rw [eq_of_mem_replicate zero]
      decide
    · exact render_lt (by decide) digit there
  have every : ∀ digit < 8, (ascii digit ≠ 0 ∧ ascii digit ≠ 10) ∧ ascii digit ≠ 32 := by
    decide
  exact every digit small

theorem decodeFrom_eq (outname : Option (List UInt8)) (small : mode < 512) (name : List UInt8)
    (body : (if base64 then readBase64 file [] 1 else readStduu file.length file) = .ok bytes) :
    decodeFrom base64 outname (print 8 0 mode ++ 32 :: name) file = .ok ⟨outname.getD name,mode,bytes⟩ := by
  have number : strtoul 8 (print 8 0 mode ++ 32 :: name) = mode :=
    strtoul_print (by decide) (by decide) 0 (by simp [isDigit]) (by omega)
  have found : ((print 8 0 mode ++ 32 :: name).dropWhile (· ≠ 32)).tail? = some name := by
    have digits : ∀ ch ∈ print 8 0 mode, decide (ch ≠ 32) = true := by
      intro ch listed
      simpa using (digit_plain ch listed).2
    rw [dropWhile_append_of_pos digits]
    simp
  simp only [decodeFrom,number,found,Nat.mod_eq_of_lt small]
  cases base64 <;> simp only [Bool.false_eq_true,if_false,if_true] at body <;> cases outname <;>
    simp [body,bind,Except.bind,pure,Except.pure]

/-- What `uuencode` writes is decoded to the same bytes, mode and name. -/
theorem uuencode_roundTrip (base64 : Bool) (src : SrcStream) (name : FileName) (outname : Option (List UInt8))
    (reads : List (List UInt8)) (chunked : Chunked reads) :
    uudecodeMain outname (uuencodeMain base64 src name.bytes reads) =
      .ok ⟨outname.getD name.bytes,src.mode,reads.flatten⟩ := by
  have size : ∀ lines : List (List UInt8),
      lines.length ≤ (lines.flatMap fun chunk => lineOf base64 chunk ++ [10]).length := by
    intro lines
    induction lines with
    | nil => simp
    | cons chunk lines ih =>
      simp only [flatMap_cons,length_append,length_cons,length_nil]
      omega
  rw [uuencodeMain_eq base64 src name.bytes chunked,uudecodeMain]
  obtain ⟨fuel,enough⟩ : ∃ fuel, (((if base64 then text "begin-base64 " else text "begin ") ++
      (print 8 0 src.mode ++ 32 :: name.bytes)) ++ 10 :: ((reads.flatMap fun chunk =>
        lineOf base64 chunk ++ [10]) ++ if base64 then text "====\n" else text "\x60\nend\n")).length = fuel + 1 :=
    Nat.exists_eq_succ_of_ne_zero (by simp)
  have plain : ∀ ch ∈ (if base64 then text "begin-base64 " else text "begin ") ++
      (print 8 0 src.mode ++ 32 :: name.bytes), ch ≠ 0 ∧ ch ≠ 10 := by
    have keywords : (∀ ch ∈ text "begin-base64 ", ch ≠ 0 ∧ ch ≠ 10) ∧ ∀ ch ∈ text "begin ", ch ≠ 0 ∧ ch ≠ 10 := by
      decide +kernel
    refine forall_mem_append.mpr ⟨?_,forall_mem_append.mpr
      ⟨fun ch digit => (digit_plain ch digit).1,forall_mem_cons.mpr ⟨by decide,name.plain⟩⟩⟩
    cases base64
    · exact keywords.2
    · exact keywords.1
  rw [enough,searchBegin,chomped_append _ _ plain]
  cases base64 with
  | true =>
    have body := readBase64_lines chunked
    have keyword : (text "begin-base64 ").isPrefixOf
        (text "begin-base64 " ++ (print 8 0 src.mode ++ 32 :: name.bytes)) = true := by simp
    simp only [if_true,keyword]
    exact decodeFrom_eq outname (mode_lt src) name.bytes body
  | false =>
    have fuelEnough := size reads
    have body := readStduu_lines reads chunked _ (show reads.length + 2 ≤ ((reads.flatMap fun chunk =>
      lineOf false chunk ++ [10]) ++ text "\x60\nend\n").length by
        rw [length_append]
        exact add_le_add fuelEnough (by decide))
    have other : (text "begin-base64 ").isPrefixOf
        (text "begin " ++ (print 8 0 src.mode ++ 32 :: name.bytes)) = false := rfl
    have keyword : (text "begin ").isPrefixOf
        (text "begin " ++ (print 8 0 src.mode ++ 32 :: name.bytes)) = true := by simp
    simp only [Bool.false_eq_true,if_false,other,keyword,if_true]
    exact decodeFrom_eq outname (mode_lt src) name.bytes body

theorem uuencode_roundTrip_sample :
    uudecodeMain none (uuencodeMain true (.named 0o100644) (text "note") [[104,105]]) =
      .ok ⟨text "note",0o644,[104,105]⟩ :=
  uuencode_roundTrip true (.named 0o100644) ⟨text "note",by decide +kernel⟩ none [[104,105]] ⟨by simp,by decide⟩

end Stablebox.Uucode
