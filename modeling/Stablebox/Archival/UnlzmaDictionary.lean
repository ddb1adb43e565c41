import Stablebox.Archival.UnlzmaCoder
import Stablebox.Archival.UnlzmaWindow

/-! Which dictionaries `unlzma` gets right: all up to two gigabytes, and none above. In a
larger one the wrapped difference of `buffer_pos` and `rep0` can already lie inside of
the buffer, and is then taken for the place itself. -/
namespace Stablebox.Unlzma

open List

section

variable {σ : Type} (h : Header) (w : Window σ)

def literalCode (position : Nat) (previousByte : UInt8) : Decode (Bool × Nat) := do
  let matched ← rcBit (isMatch + 0 <<< 4 + (position &&& (1 <<< h.pb - 1)))
  let mi ← plainBits (literalProbs + litSize * (((position &&& (1 <<< h.lp - 1)) <<< h.lc) +
    previousByte.toNat >>> (8 - h.lc))) 8 1
  return (matched,mi)

theorem leads_literalCode (position : Nat) (previousByte byte : UInt8) :
    Leads (literalCode h position previousByte) (false,2 ^ 8 + byte.toNat) := by
  refine (leads_bit _ false).bind ?_
  have bits := leads_plainBits (literalProbs + litSize * (((position &&& (1 <<< h.lp - 1)) <<< h.lc) +
    previousByte.toNat >>> (8 - h.lc))) 8 1 byte.toNat (le_refl 8) (by decide) byte.toNat_lt
  exact bits.bind (leads_pure _)

theorem symbol_literal {window next : σ} (rep0 rep1 rep2 rep3 : Nat) {rc after : Rc}
    (decodes : literalCode h (w.position window) previousByte rc = .ok ((false,2 ^ 8 + byte.toNat),after))
    (puts : w.put window byte = .ok next) :
    symbol h w ⟨window,previousByte,0,rep0,rep1,rep2,rep3⟩ rc = .ok (some ⟨next,byte,0,rep0,rep1,rep2,rep3⟩,after) := by
  obtain ⟨⟨matched,rc₁⟩,first,decodes⟩ := bind_eq_ok decodes
  obtain ⟨⟨mi,rc₂⟩,second,decodes⟩ := bind_eq_ok decodes
  cases decodes
  have value : UInt8.ofNat (2 ^ 8 + byte.toNat) = byte := by
    apply UInt8.toNat_inj.mp
    have := byte.toNat_lt
    rw [UInt8.toNat_ofNat']
    omega
  have literals : literal h w ⟨window,previousByte,0,rep0,rep1,rep2,rep3⟩ rc₁ =
      .ok (⟨next,byte,0,rep0,rep1,rep2,rep3⟩,after) := by
    simp only [literal]
    rw [if_neg (by decide),bind_run rfl,bind_run second,value,bind_run (lift_run puts)]
    rfl
  rw [symbol,bind_run first]
  exact bind_run literals

def matchCode (position : Nat) : Decode (Bool × Bool × Nat × Nat) := do
  let matched ← rcBit (isMatch + 0 <<< 4 + (position &&& (1 <<< h.pb - 1)))
  let repeated ← rcBit (isRep + 0)
  let len ← matchLen lenCoder (position &&& (1 <<< h.pb - 1))
  let distance ← matchDistance len
  return (matched,repeated,len,distance)

theorem leads_matchCode (position distance : Nat) (large : 2 ^ 31 ≤ distance) (small : distance < 2 ^ 32) :
    Leads (matchCode h position) (true,false,0,distance) :=
  (leads_bit _ true).bind ((leads_bit _ false).bind ((leads_matchLen _ _ (by decide)).bind
    ((leads_matchDistance 0 distance large small).bind (leads_pure _))))

theorem symbol_match (previousByte : UInt8) (rep0 rep1 rep2 rep3 : Nat) {rc after : Rc}
    (decodes : matchCode h (w.position window) rc = .ok ((true,false,len,distance),after))
    (small : distance + 1 < 2 ^ 32) :
    symbol h w ⟨window,previousByte,0,rep0,rep1,rep2,rep3⟩ rc =
      copy w len ⟨window,previousByte,7,distance + 1,rep0,rep1,rep2⟩ after := by
  obtain ⟨⟨matched,rc₁⟩,first,decodes⟩ := bind_eq_ok decodes
  obtain ⟨⟨repeated,rc₂⟩,second,decodes⟩ := bind_eq_ok decodes
  obtain ⟨⟨length,rc₃⟩,third,decodes⟩ := bind_eq_ok decodes
  obtain ⟨⟨far,rc₄⟩,fourth,decodes⟩ := bind_eq_ok decodes
  cases decodes
  have whole : (distance + 1) % 2 ^ 32 = distance + 1 := Nat.mod_eq_of_lt small
  rw [symbol,bind_run first]
  show (_ >>= _ : Decode (Option (Locals σ))) rc₁ = _
  rw [bind_run second]
  show lengthAndCopy w _ _ _ rc₂ = _
  rw [lengthAndCopy,bind_run third]
  show (_ >>= _ : Decode (Option (Locals σ))) rc₃ = _
  rw [bind_run fourth,whole,if_neg (by omega)]
  rfl

theorem copyMatch_two {window middle next : σ} (previousByte : UInt8) (readX : w.peek window rep0 = .ok x)
    (putX : w.put window x = .ok middle) (room : w.room middle = .ok true) (readY : w.peek middle rep0 = .ok y)
    (putY : w.put middle y = .ok next) :
    copyMatch w rep0 2 window previousByte = .ok (next,y) := by
  simp [copyMatch,readX,putX,room,readY,putY,bind,Except.bind,pure,Except.pure]

theorem exec_last_match {window middle next : σ} (previousByte : UInt8) {place far : Nat} (rep0 rep1 rep2 rep3 : Nat)
    {rc after : Rc} (position : w.position window = place) (more : place < h.dstSize)
    (decodes : matchCode h place rc = .ok ((true,false,0,far - 1),after)) (positive : 0 < far) (small : far < 2 ^ 32)
    (readX : w.peek window far = .ok x) (putX : w.put window x = .ok middle) (room : w.room middle = .ok true)
    (readY : w.peek middle far = .ok y) (putY : w.put middle y = .ok next) (full : ¬ w.position next < h.dstSize) :
    exec (step h w) 2 (rc,⟨window,previousByte,0,rep0,rep1,rep2,rep3⟩) = some ⟨none,next⟩ := by
  subst position
  have back : far - 1 + 1 = far := Nat.sub_add_cancel positive
  have decoded := symbol_match h w previousByte rep0 rep1 rep2 rep3 decodes (by omega)
  rw [back] at decoded
  have copies := copyMatch_two w previousByte readX putX room readY putY
  have copied : copy w 0 ⟨window,previousByte,7,far,rep0,rep1,rep2⟩ after =
      .ok (some ⟨next,y,7,far,rep0,rep1,rep2⟩,after) := bind_run (lift_run copies)
  have turn : step h w (rc,⟨window,previousByte,0,rep0,rep1,rep2,rep3⟩) =
      .inl (after,⟨next,y,7,far,rep0,rep1,rep2⟩) := by
    simp only [step,if_pos more,copied,decoded]
  have last : step h w (after,⟨next,y,7,far,rep0,rep1,rep2⟩) = .inr ⟨none,next⟩ := by
    simp only [step,if_neg full]
  rw [exec,turn]
  simp only [exec,last]

theorem exec_literal (window next : σ) (previousByte byte : UInt8) (rep0 rep1 rep2 rep3 fuel place : Nat)
    (rc after : Rc) (position : w.position window = place) (more : place < h.dstSize)
    (decodes : literalCode h place previousByte rc = .ok ((false,2 ^ 8 + byte.toNat),after))
    (puts : w.put window byte = .ok next) :
    exec (step h w) (fuel + 1) (rc,⟨window,previousByte,0,rep0,rep1,rep2,rep3⟩) =
      exec (step h w) fuel (after,⟨next,byte,0,rep0,rep1,rep2,rep3⟩) := by
  subst position
  rw [exec]
  simp only [step,if_pos more,symbol_literal h w rep0 rep1 rep2 rep3 decodes puts]

end

/-! A stream for every larger dictionary: one byte, a dictionary full of zeros, and a match
that reaches back to the byte. -/

def farHeader (dictSize : Nat) : Header := ⟨0,0,0,dictSize,dictSize + 2⟩

def farText (dictSize : Nat) : List UInt8 := 97 :: List.replicate (dictSize - 1) 0

section

variable (large : 2 ^ 31 < dictSize) (small : dictSize < 2 ^ 32)

include large small

theorem farHeader_proper : (farHeader dictSize).Proper := by
  constructor
  · show 0 < dictSize
    omega
  · exact small
  · show dictSize + 2 < 2 ^ 64
    omega

omit small in
theorem farText_length : (farText dictSize).length = dictSize := by
  simp only [farText,length_cons,length_replicate]
  omega

omit large small in
theorem farText_getElem? (i : Nat) (positive : 0 < i) (inside : i < dictSize) : (farText dictSize)[i]? = some 0 := by
  cases i with
  | zero => omega
  | succ i =>
    rw [farText,getElem?_cons_succ,getElem?_replicate,if_pos (by omega)]

theorem far_history :
    (history (farHeader dictSize)).peek (farText dictSize) dictSize = .ok 97 ∧
      (history (farHeader dictSize)).peek (farText dictSize ++ [97]) dictSize = .ok 0 := by
  have length := farText_length large
  have next := farText_getElem? 1 (by decide) (show 1 < dictSize by omega)
  constructor
  · simp only [history,length]
    rw [if_neg (by simp only [farHeader]; omega),Nat.sub_self]
    rfl
  · simp only [history,length_append,length_singleton,length]
    rw [if_neg (by simp only [farHeader]; omega),Nat.add_sub_cancel_left,getD_eq_getElem?_getD,
      getElem?_append_left (by omega),next]
    rfl

/-- The circular buffer takes the wrapped difference for a place and finds a zero. -/
theorem far_circular (d : Dictionary) (out : List UInt8) (reflects : Reflects (farHeader dictSize) d out)
    (starts : farText dictSize <+: out) (length : out.length = dictSize ∨ out.length = dictSize + 1) :
    (circular (farHeader dictSize)).peek d dictSize = .ok 0 := by
  have place : d.bufferPos = out.length - dictSize := by
    have place := reflects.place
    simp only [farHeader] at place
    rcases length with same | same
    · rw [place,same,Nat.mod_self,Nat.sub_self]
    · rw [place,same,Nat.add_mod_left,Nat.mod_eq_of_lt (by omega),Nat.add_sub_cancel_left]
  have pos := dictionaryPos_eq dictSize d.bufferPos dictSize (by omega) small (by omega) le_rfl
  rw [if_neg (by omega),if_pos (by omega)] at pos
  have inside : 2 ^ 32 - (dictSize - d.bufferPos) < (farHeader dictSize).capacity := by
    simp only [Header.capacity,farHeader]
    omega
  have zero : out[2 ^ 32 - (dictSize - d.bufferPos)]? = some 0 := by
    have early := farText_getElem? (2 ^ 32 - (dictSize - d.bufferPos)) (by omega) (show _ < dictSize by omega)
    obtain ⟨tail,rfl⟩ := starts
    rw [getElem?_append_left (by rw [farText_length large]; omega)]
    exact early
  have cell := reflects.mirrors _ _ zero (by simp only [farHeader]; omega)
  simp only [farHeader] at cell
  rw [Nat.mod_eq_of_lt (by omega)] at cell
  show (if dictionaryPos dictSize d.bufferPos dictSize < (farHeader dictSize).capacity then
    Except.ok (d.buffer (dictionaryPos dictSize d.bufferPos dictSize)) else _) = _
  rw [pos,if_pos inside,cell]

theorem far_match (range : Nat) (p : Nat → Prob) (low : 2 ^ 16 ≤ range) (high : range < 2 ^ 32) (previousByte : UInt8) :
    ∃ code bytes, code < range ∧ ∀ bound,
      exec (step (farHeader dictSize) (history (farHeader dictSize))) 2
        (⟨code,range,bound,p,bytes⟩,⟨farText dictSize,previousByte,0,1,1,1,1⟩) =
          some ⟨none,farText dictSize ++ [97] ++ [0]⟩ ∧
      ∀ d, Reflects (farHeader dictSize) d (farText dictSize) → ∃ last,
        exec (step (farHeader dictSize) (circular (farHeader dictSize))) 2
          (⟨code,range,bound,p,bytes⟩,⟨d,previousByte,0,1,1,1,1⟩) = some ⟨none,last⟩ ∧
        Reflects (farHeader dictSize) last (farText dictSize ++ [0] ++ [0]) := by
  have length := farText_length large
  have proper := farHeader_proper large small
  have room (n : Nat) (short : n < dictSize + 2) : n < (farHeader dictSize).dstSize := short
  obtain ⟨_,_,least,_,leads⟩ :=
    leads_matchCode (farHeader dictSize) dictSize (dictSize - 1) (by omega) (by omega) range p low high
  obtain ⟨code,bytes,inside,decodes⟩ := leads 0 [] (by omega)
  rw [append_nil] at decodes
  refine ⟨code,bytes,inside,fun bound => ?_⟩
  obtain ⟨_,decodes⟩ := decodes bound
  have shorter := room (farText dictSize).length (by omega)
  have short (x : UInt8) := room (farText dictSize ++ [x]).length
    (by rw [length_append,length_singleton]; omega)
  have full (x y : UInt8) : ¬ (farText dictSize ++ [x] ++ [y]).length < (farHeader dictSize).dstSize := by
    simp only [length_append,length_singleton,farHeader]
    omega
  constructor
  · obtain ⟨first,second⟩ := far_history large small
    exact exec_last_match _ _ previousByte 1 1 1 1 length (room dictSize (by omega))
      decodes (by omega) small first (history_put 97 shorter) (history_room (short 97)) second
      (history_put 0 (short 97)) (full 97 0)
  · intro d reflects
    obtain ⟨middle,putX,reflectsX⟩ := reflects.put proper 0 shorter
    obtain ⟨last,putY,reflectsY⟩ := reflectsX.put proper 0 (short 0)
    have first := far_circular large small d _ reflects (prefix_refl _) (.inl length)
    have second := far_circular large small middle _ reflectsX (prefix_append _ _)
      (.inr (by rw [length_append,length,length_singleton]))
    refine ⟨last,?_,reflectsY⟩
    exact exec_last_match _ _ previousByte 1 1 1 1
      ((reflects.position proper).trans length) (room dictSize (by omega)) decodes (by omega) small first putX
      (reflectsX.room (short 0)) second putY (by rw [reflectsY.position proper]; exact full 0 0)

theorem far_run (todo out : List UInt8) (whole : out ++ todo = farText dictSize) (range : Nat) (p : Nat → Prob)
    (low : 2 ^ 16 ≤ range) (high : range < 2 ^ 32) (previousByte : UInt8) :
    ∃ code bytes, code < range ∧ ∀ bound,
      exec (step (farHeader dictSize) (history (farHeader dictSize))) (todo.length + 2)
        (⟨code,range,bound,p,bytes⟩,⟨out,previousByte,0,1,1,1,1⟩) = some ⟨none,farText dictSize ++ [97] ++ [0]⟩ ∧
      ∀ d, Reflects (farHeader dictSize) d out → ∃ last,
        exec (step (farHeader dictSize) (circular (farHeader dictSize))) (todo.length + 2)
          (⟨code,range,bound,p,bytes⟩,⟨d,previousByte,0,1,1,1,1⟩) = some ⟨none,last⟩ ∧
        Reflects (farHeader dictSize) last (farText dictSize ++ [0] ++ [0]) := by
  induction todo generalizing out range p previousByte with
  | nil =>
    rw [append_nil] at whole
    subst whole
    exact far_match large small range p low high previousByte
  | cons byte todo ih =>
    have proper := farHeader_proper large small
    have room : out.length < (farHeader dictSize).dstSize := by
      have length := congrArg List.length whole
      rw [length_append,length_cons,farText_length large] at length
      show out.length < dictSize + 2
      omega
    obtain ⟨rangeAfter,pAfter,lowAfter,highAfter,leads⟩ :=
      leads_literalCode (farHeader dictSize) out.length previousByte byte range p low high
    obtain ⟨codeAfter,rest,insideAfter,runs⟩ := ih (out ++ [byte]) (by rw [append_assoc]; exact whole)
      rangeAfter pAfter lowAfter highAfter byte
    obtain ⟨code,bytes,inside,decodes⟩ := leads codeAfter rest insideAfter
    refine ⟨code,bytes ++ rest,inside,fun bound => ?_⟩
    obtain ⟨boundAfter,decodes⟩ := decodes bound
    obtain ⟨histories,circulars⟩ := runs boundAfter
    constructor
    · exact (exec_literal _ _ out _ previousByte byte 1 1 1 1 (todo.length + 2) out.length _ _ rfl room decodes
        (history_put byte room)).trans histories
    intro d reflects
    obtain ⟨next,puts,reflectsNext⟩ := reflects.put proper byte room
    obtain ⟨last,ends,reflectsLast⟩ := circulars next reflectsNext
    exact ⟨last,(exec_literal _ _ d _ previousByte byte 1 1 1 1 (todo.length + 2) out.length _ _
      (reflects.position proper) room decodes puts).trans ends,reflectsLast⟩

end

/-! The bytes of the stream. -/

def littleBytes : (width value : Nat) → List UInt8
  | 0,_ => []
  | width + 1,value => UInt8.ofNat (value % 256) :: littleBytes width (value / 256)

theorem littleBytes_length (width value : Nat) : (littleBytes width value).length = width := by
  induction width generalizing value with
  | zero => rfl
  | succ width ih => rw [littleBytes,length_cons,ih]

theorem littleEndian_littleBytes (width value : Nat) (small : value < 256 ^ width) :
    littleEndian (littleBytes width value) = value := by
  induction width generalizing value with
  | zero =>
    show 0 = value
    omega
  | succ width ih =>
    have rest := ih (value / 256) (by omega)
    have byte : (UInt8.ofNat (value % 256)).toNat = value % 256 := by
      rw [UInt8.toNat_ofNat']
      omega
    show (UInt8.ofNat (value % 256)).toNat + 256 * littleEndian (littleBytes width (value / 256)) = value
    omega

def headerBytes (dictSize dstSize : Nat) : List UInt8 := 0 :: (littleBytes 4 dictSize ++ littleBytes 8 dstSize)

theorem readHeader_headerBytes (dictSize dstSize : Nat) (rest : List UInt8) (positive : 0 < dictSize)
    (dict : dictSize < 2 ^ 32) (dst : dstSize < 2 ^ 64) :
    readHeader (headerBytes dictSize dstSize ++ rest) = .ok (⟨0,0,0,dictSize,dstSize⟩,rest) := by
  have four := littleBytes_length 4 dictSize
  have eight := littleBytes_length 8 dstSize
  have bytes : (littleBytes 4 dictSize ++ littleBytes 8 dstSize ++ rest).take 4 = littleBytes 4 dictSize := by
    rw [append_assoc,take_left' four]
  have next : ((littleBytes 4 dictSize ++ littleBytes 8 dstSize ++ rest).drop 4).take 8 = littleBytes 8 dstSize := by
    rw [append_assoc,drop_left' four,take_left' eight]
  have last : (littleBytes 4 dictSize ++ littleBytes 8 dstSize ++ rest).drop 12 = rest :=
    drop_left' (by rw [length_append,four,eight])
  have long : ¬ (littleBytes 4 dictSize ++ littleBytes 8 dstSize ++ rest).length < 12 := by
    simp only [length_append]
    omega
  rw [headerBytes,cons_append,readHeader,if_neg long,if_neg (by decide),bytes,next,last,
    littleEndian_littleBytes 4 _ dict,
    littleEndian_littleBytes 8 _ dst]
  simp only [if_neg (ne_of_gt positive)]
  rfl

def codeBytes (code : Nat) : List UInt8 := 0 :: (littleBytes 4 code).reverse

theorem rcInit_codeBytes (p : Nat → Prob) (rest : List UInt8) (small : code < 2 ^ 32) :
    rcInit 5 ⟨0,0xFFFFFFFF,0,p,codeBytes code ++ rest⟩ = .ok ⟨code,0xFFFFFFFF,0,p,rest⟩ := by
  have byte (n : Nat) : (UInt8.ofNat (n % 256)).toNat = n % 256 := by
    rw [UInt8.toNat_ofNat']
    omega
  have shape : codeBytes code ++ rest = 0 :: UInt8.ofNat (code / 256 / 256 / 256 % 256) ::
      UInt8.ofNat (code / 256 / 256 % 256) :: UInt8.ofNat (code / 256 % 256) :: UInt8.ofNat (code % 256) :: rest := rfl
  rw [shape]
  simp only [rcInit,byte]
  have zero : (0 <<< 8 % 2 ^ 32) ||| (0 : UInt8).toNat = 0 := by decide
  simp (disch := omega) only [zero,shift_in]
  congr 2
  omega

theorem start_codeBytes {σ : Type} (window : σ) (code : Nat) (rest : List UInt8) (small : code < 2 ^ 32) :
    start window (codeBytes code ++ rest) =
      .ok (⟨code,0xFFFFFFFF,0,fun _ => .initial,rest⟩,⟨window,0,0,1,1,1,1⟩) := by
  rw [start_eq,rcInit_codeBytes _ rest small]
  rfl

/-- For every dictionary of more than two gigabytes there is a proper stream that `unlzma`
gets wrong. -/
theorem far_stream (dictSize : Nat) (large : 2 ^ 31 < dictSize) (small : dictSize < 2 ^ 32) :
    ∃ rest, let input := headerBytes dictSize (dictSize + 2) ++ rest
      unlzmaHistory (dictSize + 2) input = some ⟨none,farText dictSize ++ [97] ++ [0]⟩ ∧
      ∀ heap, unlzma heap (dictSize + 2) input = some ⟨none,farText dictSize ++ [0] ++ [0]⟩ := by
  have proper := farHeader_proper large small
  obtain ⟨code,bytes,inside,runs⟩ := far_run large small (farText dictSize) [] rfl 0xFFFFFFFF (fun _ => .initial)
    (by decide) (by decide) 0
  obtain ⟨histories,circulars⟩ := runs 0
  rw [farText_length large] at histories circulars
  have header := readHeader_headerBytes dictSize (dictSize + 2) (codeBytes code ++ bytes) (by omega) small (by omega)
  have below : code < 2 ^ 32 := by omega
  refine ⟨codeBytes code ++ bytes,?_,fun heap => ?_⟩
  · simp only [unlzmaHistory,header,start_codeBytes _ code bytes below]
    show Option.map _ (exec (step (farHeader dictSize) (history (farHeader dictSize))) (dictSize + 2) _) = _
    rw [histories]
    rfl
  · obtain ⟨last,ends,reflects⟩ := circulars ⟨heap,0,0,[]⟩ (reflects_start _ heap)
    simp only [unlzma,header,start_codeBytes _ code bytes below]
    show Option.map _ (exec (step (farHeader dictSize) (circular (farHeader dictSize))) (dictSize + 2) _) = _
    rw [ends,Option.map_some,reflects.finish proper]

/-- Every proper stream with a dictionary of this size is written as the same decoder with
an unbounded history puts it out. -/
def Faithful (dictSize : Nat) : Prop :=
  ∀ heap input h rest, readHeader input = .ok (h,rest) → h.dictSize = dictSize →
    ∀ fuel out, unlzmaHistory fuel input = some ⟨none,out⟩ → unlzma heap fuel input = some ⟨none,out⟩

/-- The circular buffer stands for the unbounded history in dictionaries of at most two
gigabytes, and only there. -/
theorem dictionary_refined (dictSize : Nat) (positive : 0 < dictSize) (small : dictSize < 2 ^ 32) :
    Faithful dictSize ↔ dictSize ≤ 2 ^ 31 := by
  constructor
  · intro faithful
    by_contra larger
    obtain ⟨rest,right,wrong⟩ := far_stream dictSize (Nat.lt_of_not_le larger) small
    have header := readHeader_headerBytes dictSize (dictSize + 2) rest positive small (by omega)
    have same := faithful (fun _ => 0) _ _ _ header rfl _ _ right
    rw [wrong (fun _ => 0),Option.some.injEq,Result.mk.injEq] at same
    have texts := same.2
    rw [append_assoc,append_assoc,append_cancel_left_eq] at texts
    exact absurd texts (by decide)
  · intro half heap input h rest header size fuel out done
    rcases unlzma_history heap header (by omega) done with improper | ⟨q,runs,failure,written⟩
    · cases improper
    rw [if_pos rfl] at written
    obtain ⟨_,_⟩ := q
    cases failure
    cases written
    exact runs

/-- A dictionary of five bytes, in which the matches cross the end of the buffer. -/
theorem dictionary_refined_sample :
    unlzma (fun _ => 0) 10 [0,5,0,0,0,12,0,0,0,0,0,0,0,0,48,153,171,218,37,222,146,2,3,255,255,153,30,0,0] =
      some ⟨none,[97,98,99,97,98,99,97,98,99,97,98,100]⟩ := by
  have header : ∃ h rest, readHeader [0,5,0,0,0,12,0,0,0,0,0,0,0,0,48,153,171,218,37,222,146,2,3,255,255,153,30,0,0] =
      .ok (h,rest) ∧ h.dictSize = 5 := ⟨_,_,rfl,rfl⟩
  obtain ⟨h,rest,header,size⟩ := header
  refine (dictionary_refined 5 (by decide) (by decide)).mpr (by decide) _ _ h rest header size _ _ ?_
  decide +kernel

/-- With three gigabytes of dictionary a match at the full distance reads another byte. -/
theorem far_match_misread :
    ∃ input out wrong, unlzmaHistory (3 * 2 ^ 30 + 2) input = some ⟨none,out⟩ ∧
      (∀ heap, unlzma heap (3 * 2 ^ 30 + 2) input = some ⟨none,wrong⟩) ∧ out ≠ wrong := by
  obtain ⟨rest,right,wrong⟩ := far_stream (3 * 2 ^ 30) (by decide) (by decide)
  refine ⟨_,_,_,right,wrong,fun same => ?_⟩
  rw [append_assoc,append_assoc,append_cancel_left_eq] at same
  exact absurd same (by decide)

end Stablebox.Unlzma
