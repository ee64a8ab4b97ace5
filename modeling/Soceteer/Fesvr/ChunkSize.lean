import Soceteer.Fesvr.Memif
import Soceteer.Lib.Text

/-!
# Soceteer.Fesvr.ChunkSize — the size of the chunks is the user's

`chunk_max_size` (`fesvr/dtm.cpp`) is the number that the command line gives with `--chunk-size`, whatever it is.
`read` and `write` move on by it, while a chunk is transferred in whole words.

* `optionOf`, `getValue`, `stoul`, `chunkMaxSize`: from the command line to the size.
* `writePieces`: `write` with no more than its piece for each chunk.
* `Works`: everything is transferred as it is with the default size.
* `ensures_readMiddle_skips`, `ensures_readMiddle_zero`: what a size that does not fit does to a read.
* `works_iff`: the sizes that work.
-/

namespace Soceteer.Fesvr

open Soceteer.Lib

/-! ## The source -/

/-- `--key=value`; the key ends at the first equals sign. -/
def optionOf (arg : List Char) : Option (List Char × List Char) :=
  if ['-', '-'].isPrefixOf arg ∧ 2 < arg.length ∧ '=' ∈ arg then
    some ((arg.takeWhile (· ≠ '=')).drop 2, (arg.dropWhile (· ≠ '=')).drop 1)
  else none

/-- `m_options["chunk-size"]` after one more argument. -/
def parseArg (value : Option (List Char)) (arg : List Char) : Option (List Char) :=
  match optionOf arg with
  | none => value
  | some (key, val) => if key = "chunk-size".toList then some val else value

/-- `get_value("chunk-size")`; the option is registered with a default. -/
def getValue (argv : List (List Char)) : List Char := ((argv.drop 1).foldl parseArg none).getD "4096".toList

/-- The number that a sequence of decimal digits stands for. -/
def decimal (digits : List Char) : ℕ := digits.foldl (fun n c => n * 10 + (c.toNat - '0'.toNat)) 0

/-- A sign in front is skipped. -/
def skipSign (s : List Char) : List Char := if s.head? = some '-' ∨ s.head? = some '+' then s.tail else s

/-- `std::stoul`, or nothing where it throws: blanks, a sign and digits, and anything after them; a minus sign
negates in the arithmetic of `unsigned long`. -/
def stoul (s : List Char) : Option ℕ :=
  let rest := s.dropWhile Jvm.isSpace
  let digits := (skipSign rest).takeWhile Char.isDigit
  if digits = [] then none
  else if 2 ^ 64 ≤ decimal digits then none
  else some (if rest.head? = some '-' then (2 ^ 64 - decimal digits) % 2 ^ 64 else decimal digits)

/-- `chunk_max_size()` -/
def chunkMaxSize (argv : List (List Char)) : Option ℕ := stoul (getValue argv)

theorem stoul_lt {s : List Char} {c : ℕ} (h : stoul s = some c) : c < 2 ^ 64 := by
  unfold stoul at h
  dsimp only at h
  split_ifs at h with hnone hbig hneg
  · cases h
    exact Nat.mod_lt _ (by decide)
  · cases h
    exact Nat.lt_of_not_le hbig

/-- Any text can be given for the size. -/
theorem chunkMaxSize_given (prog : List Char) (args : List (List Char)) (value : List Char) :
    chunkMaxSize (prog :: args ++ ["--chunk-size=".toList ++ value]) = stoul value := by
  have hoption : optionOf ("--chunk-size=".toList ++ value) = some ("chunk-size".toList, value) := by
    simp [optionOf]
  rw [chunkMaxSize, getValue, List.cons_append, List.drop_one, List.tail_cons, List.foldl_append, List.foldl_cons,
    List.foldl_nil, parseArg, hoption]
  rfl

section Pieces

variable {T : Target}

/-- `writeMiddle`, where a chunk that reads past its piece faults. -/
def writeMiddlePieces (hart chunkMaxSize : ℕ) (r : Rest) (bytes : List UInt8) : Prog (Dm T) Unit :=
  Prog.loop (fun (pos : ℕ) =>
    if pos < r.len then do
      writeChunk hart (r.addr + BitVec.ofNat 64 pos) (min chunkMaxSize (r.len - pos))
        ((bytes.drop (r.off + pos)).take (min chunkMaxSize (r.len - pos)))
      pure (.inl ((pos + chunkMaxSize) % 2 ^ 64))
    else pure (.inr ())) 0

/-- `write`, where a chunk that reads past its piece faults; both ends are in arrays of one word. -/
def writePieces (hart chunkMaxSize : ℕ) (addr : BitVec 64) (len : ℕ) (bytes : List UInt8) : Prog (Dm T) Unit := do
  let r ← writeHead hart addr len bytes
  let r ← writeTail hart r bytes
  if allZero r bytes then clearChunk hart r.addr r.len
  else writeMiddlePieces hart chunkMaxSize r bytes

end Pieces

/-- A write in which no chunk reads past its piece. -/
def PiecesExact (T : Target) (hart chunkMaxSize : ℕ) (addr : BitVec 64) (bytes : List UInt8) : Prop :=
  ∀ d : Dm T, Idle d → Runs (writePieces hart chunkMaxSize addr bytes.length bytes) d fun _ d' =>
    After d (splice d.mem (addr.setWidth T.xlen.bits) bytes) d'

/-- On every target that the default size serves, transfers with this size are exact, and no chunk of a write reads
past its piece. -/
def Works (X : Xlen) (c : ℕ) (addr : BitVec 64) (len : ℕ) : Prop :=
  ∀ (T : Target) (hart : ℕ) (bytes : List UInt8), T.xlen = X → bytes.length = len →
    ReadExact T hart 4096 addr bytes.length → WriteExact T hart 4096 addr bytes →
      ReadExact T hart c addr bytes.length ∧ WriteExact T hart c addr bytes ∧ PiecesExact T hart c addr bytes

/-! ## Sizes that do not fit -/

section Short

variable {T : Target} {hart c len : ℕ}

theorem length_of_mapM {α β : Type} {f : α → Option β} : ∀ {xs : List α} {ys : List β}, xs.mapM f = some ys →
    ys.length = xs.length
  | [], ys, h => by
    cases h
    rfl
  | x :: xs, ys, h => by
    rw [List.mapM_cons] at h
    obtain ⟨y, -, h⟩ := Option.bind_eq_some_iff.mp h
    obtain ⟨ys', hys', h⟩ := Option.bind_eq_some_iff.mp h
    cases h
    rw [List.length_cons, List.length_cons, length_of_mapM hys']

theorem CArray.length_bytes {a : CArray} {n : ℕ} {bs : List UInt8} (h : a.bytes n = some bs) :
    bs.length = 4 * n := by
  obtain ⟨ws, hws, rfl⟩ := Option.map_eq_some_iff.mp h
  have hlen : ws.length = n := by
    rw [length_of_mapM hws, List.length_range]
  rw [List.length_flatMap]
  simp [hlen, Nat.mul_comm]

/-- Whatever happens on the way, `read_chunk` copies the whole words of its length. -/
theorem ensures_readChunk (hart : ℕ) (taddr : BitVec 64) (len : ℕ) :
    Ensures (readChunk hart taddr len : Prog (Dm T) (List UInt8)) fun out =>
      out.length = chunkWords T.xlen len * T.xlen.bytes := by
  unfold readChunk
  refine ensures_bind fun _ => ensures_bind fun s0 => ensures_bind fun s1 => ensures_bind fun prog =>
    ensures_bind fun data =>
    ensures_bind fun res => ?_
  dsimp only
  have hloop := fun body hbody => @Ensures.forFrom (Dm T) (CArray × List UInt8) body
    (fun i st => st.2.length = i * T.xlen.bytes) 0 (chunkWords T.xlen len) (res.2, []) hbody (Nat.zero_mul _).symm
  refine (hloop _ fun i st hst => ?_).bind fun st hst => ?_
  · refine ensures_bind fun res => ?_
    refine (ensures_lift fun word hword => CArray.length_bytes hword).bind fun word hword => ensures_pure ?_
    have hbytes : T.xlen.bytes = 4 * (T.xlen.bits / 32) := T.xlen.bytes_eq
    rw [List.length_append, hst, hword, ← hbytes, Nat.succ_mul]
  · rw [Nat.zero_add] at hst
    exact ensures_bind fun _ => ensures_bind fun _ => ensures_bind fun _ => ensures_pure hst

theorem chunkWords_mul_le (X : Xlen) (n : ℕ) : chunkWords X n * X.bytes ≤ n / X.bytes * X.bytes := by
  refine Nat.mul_le_mul_right _ ?_
  rw [chunkWords, X.bits_eq]
  calc n * 8 % 2 ^ 64 / (8 * X.bytes) ≤ n * 8 / (8 * X.bytes) := Nat.div_le_div_right (Nat.mod_le _ _)
    _ = n / X.bytes := by rw [Nat.mul_comm 8, Nat.mul_div_mul_right _ _ (by decide)]

variable {r : Rest} {out : List UInt8}

/-- A size that is not one of whole words, with more than one chunk: the byte after the whole words of the first
chunk is not copied. -/
theorem ensures_readMiddle_skips {q : ℕ} (hc : ¬ T.xlen.bytes ∣ c) (hlt : c < r.len) (hlen : r.len < 2 ^ 63)
    (hq : q = r.off + c / T.xlen.bytes * T.xlen.bytes) :
    Ensures (readMiddle hart c r out : Prog (Dm T) (List UInt8)) fun out' => out'[q]? = out[q]? := by
  have hrest : c / T.xlen.bytes * T.xlen.bytes < c := by
    have hmod : 0 < c % T.xlen.bytes := Nat.pos_of_ne_zero fun h => hc (Nat.dvd_of_mod_eq_zero h)
    have hdiv := Nat.div_add_mod' c T.xlen.bytes
    omega
  refine Ensures.loop (fun st => (st.1 = 0 ∨ c ≤ st.1) ∧ st.2[q]? = out[q]?) ?_ ⟨Or.inl rfl, rfl⟩
  rintro ⟨pos, out₁⟩ ⟨hpos, hget⟩
  dsimp only at hpos hget ⊢
  split_ifs with hmore
  · refine (ensures_readChunk hart _ _).bind fun chunk hchunk => ?_
    refine (ensures_lift (P := fun out₂ => out₂[q]? = out[q]?) fun out₂ hcopy => ?_).bind fun out₂ hout₂ =>
      ensures_pure ?_
    · -- the copy ends before the byte, or begins after it
      have hshort := chunkWords_mul_le T.xlen (min c (r.len - pos))
      rw [← hchunk] at hshort
      have hoff : ¬ (r.off + pos ≤ q ∧ q < r.off + pos + chunk.length) := by
        rcases hpos with rfl | hpos
        · rw [Nat.sub_zero, min_eq_left hlt.le] at hshort
          omega
        · omega
      rw [(getElem?_memcpy hcopy).2 q, if_neg hoff]
      exact hget
    · have hwrap : (pos + c) % 2 ^ 64 = pos + c := Nat.mod_eq_of_lt (by omega)
      exact ⟨Or.inr (by dsimp only; omega), hout₂⟩
  · exact ensures_pure hget

/-- With the size zero a read never ends. -/
theorem ensures_readMiddle_zero (hlen : 0 < r.len) :
    Ensures (readMiddle hart 0 r out : Prog (Dm T) (List UInt8)) fun _ => False := by
  refine Ensures.loop (fun st => st.1 = 0) ?_ rfl
  rintro ⟨pos, out₁⟩ rfl
  dsimp only
  rw [if_pos hlen]
  refine ensures_bind fun chunk => ensures_bind fun out₂ => ensures_pure ?_
  rfl

end Short

/-! ## Pieces -/

section Take

variable {T : Target} {hart c n : ℕ} {src bytes : List UInt8} {r : Rest}

theorem CArray.fill_take {a : CArray} {off k : ℕ} (hn : off + 4 * k ≤ n) (hsrc : n ≤ src.length) :
    a.fill (src.take n) off k = a.fill src off k := by
  have hwords : (List.range k).map (fun i => BitVec.ofNat 32 (leNat (((src.take n).drop (off + 4 * i)).take 4))) =
      (List.range k).map fun i => BitVec.ofNat 32 (leNat ((src.drop (off + 4 * i)).take 4)) := by
    refine List.map_congr_left fun i hi => ?_
    have hi := List.mem_range.mp hi
    rw [List.drop_take, List.take_take, min_eq_left (by omega)]
  rw [CArray.fill, CArray.fill, if_pos (by rw [List.length_take]; omega), if_pos (by omega), hwords]

/-- A chunk of whole words reads no more than it stores. -/
theorem writeChunk_take {taddr : BitVec 64} (hwords : chunkWords T.xlen n * T.xlen.bytes = n) (hpos : 0 < n)
    (hsrc : n ≤ src.length) :
    (writeChunk hart taddr n (src.take n) : Prog (Dm T) Unit) = writeChunk hart taddr n src := by
  have hbytes : T.xlen.bytes = 4 * (T.xlen.bits / 32) := T.xlen.bytes_eq
  have hfill : ∀ (data : CArray) (i : ℕ), i < chunkWords T.xlen n →
      data.fill (src.take n) (i * T.xlen.bytes) (T.xlen.bits / 32) =
        data.fill src (i * T.xlen.bytes) (T.xlen.bits / 32) := by
    intro data i hi
    have hle : (i + 1) * T.xlen.bytes ≤ chunkWords T.xlen n * T.xlen.bytes := Nat.mul_le_mul_right _ hi
    rw [hwords, Nat.succ_mul, hbytes] at hle
    exact CArray.fill_take (by rw [hbytes]; exact hle) hsrc
  have hfirst :
      ∀ data : CArray, data.fill (src.take n) 0 (T.xlen.bits / 32) = data.fill src 0 (T.xlen.bits / 32) := by
    intro data
    have hone : 0 < chunkWords T.xlen n := by
      rcases Nat.eq_zero_or_pos (chunkWords T.xlen n) with h0 | h0
      · rw [h0, Nat.zero_mul] at hwords
        omega
      · exact h0
    have h0 := hfill data 0 hone
    rwa [Nat.zero_mul] at h0
  have hloop : ∀ data : CArray, (Prog.forFrom (writeChunkWord (src.take n)) 1 (chunkWords T.xlen n - 1) data :
      Prog (Dm T) CArray) = Prog.forFrom (writeChunkWord src) 1 (chunkWords T.xlen n - 1) data := by
    intro data
    refine Prog.forFrom_congr fun i hlo hi data => ?_
    have hword : ∀ data : CArray, data.fill (src.take n) (i * (T.xlen.bits / 8)) (T.xlen.bits / 32) =
        data.fill src (i * (T.xlen.bits / 8)) (T.xlen.bits / 32) := fun data => hfill data i (by omega)
    simp only [writeChunkWord, hword]
  simp only [writeChunk, hfirst, hloop]

/-- Where the pieces are whole words, no chunk reads past its own. -/
theorem writeMiddlePieces_eq (hfit : r.off + r.len ≤ bytes.length) (hlen : T.xlen.bytes ∣ r.len)
    (hwhole : Whole T.xlen c r.len) (hsize : c < 2 ^ 64) (hbytes : r.len < 2 ^ 63)
    (hbits : min c r.len * 8 < 2 ^ 64) :
    (writeMiddlePieces hart c r bytes : Prog (Dm T) Unit) = writeMiddle hart c r bytes := by
  refine Prog.loop_congr (fun pos => (T.xlen.bytes ∣ pos ∨ r.len ≤ pos) ∧ (pos = 0 ∨ c ≤ pos)) ?_ ?_
    ⟨Or.inl (dvd_zero _), Or.inl rfl⟩
  · rintro pos ⟨hdvd, hzero⟩
    split_ifs with hlt
    · obtain ⟨-, hndvd, hn0, -, -⟩ := hwhole.piece hlen hdvd hzero hlt hsize hbytes
      rw [writeChunk_take (chunkWords_mul (by omega) hndvd) hn0 (by rw [List.length_drop]; omega)]
    · rfl
  · rintro pos ⟨hdvd, hzero⟩
    split_ifs with hlt
    · obtain ⟨-, -, -, hnext, hwrap⟩ := hwhole.piece hlen hdvd hzero hlt hsize hbytes
      refine ensures_bind fun _ => ensures_pure ?_
      rw [Nat.mod_eq_of_lt hwrap]
      exact ⟨hnext, Or.inr (Nat.le_add_left c pos)⟩
    · exact ensures_pure trivial

/-- A write is the same with no more than its piece for each chunk. -/
theorem runs_writePieces {addr : BitVec 64} {d : Dm T} {Q : Unit → Dm T → Prop}
    (hprog : 3 ≤ T.progbufsize) (hdata : T.xlen.words ≤ T.datacount) (h : Idle d)
    (hwhole : Whole T.xlen c (middleLen T.xlen addr bytes.length)) (hsize : c < 2 ^ 64)
    (hbytes : bytes.length < 2 ^ 63)
    (hbits : min c (middleLen T.xlen addr bytes.length) * 8 < 2 ^ 64)
    (hrun : Runs (write hart c addr bytes.length bytes) d Q) :
      Runs (writePieces hart c addr bytes.length bytes) d Q := by
  have hle := @headLen_le T.xlen addr bytes.length
  have hmid := @middleLen_add T.xlen addr bytes.length
  unfold write at hrun
  unfold writePieces
  rw [← Prog.bind_assoc] at hrun ⊢
  refine hrun.bind_congr (runs_writeEnds hprog hdata h) ?_
  rintro r d₁ ⟨rfl, h₁⟩ hrest
  have hsame : (writeMiddlePieces hart c (middle T.xlen addr bytes.length) bytes : Prog (Dm T) Unit) =
      writeMiddle hart c (middle T.xlen addr bytes.length) bytes :=
    writeMiddlePieces_eq (by dsimp only [middle]; omega) dvd_middleLen hwhole hsize
      (by dsimp only [middle]; omega) hbits
  rw [hsame]
  exact hrest

theorem runs_writePieces_nil {addr : BitVec 64} {d : Dm T} (h : Idle d) :
    Runs (writePieces hart c addr 0 []) d fun _ d' => After d d.mem d' := by
  unfold writePieces writeHead writeTail writeMiddlePieces
  rw [if_neg (fun hc => hc.1 rfl)]
  refine runs_pure_bind ?_
  dsimp only
  rw [if_neg (not_not.mpr (Nat.zero_and _))]
  refine runs_pure_bind ?_
  rw [if_neg (by simp [allZero])]
  refine Runs.loop (fun _ d' => After d d.mem d') (fun _ _ => 0) ?_ ⟨h, rfl, rfl⟩
  rintro pos d' hd'
  rw [if_neg (Nat.not_lt_zero _)]
  exact runs_pure hd'

end Take

/-! ## The sizes that work -/

section Sizes

variable {X : Xlen} {c len : ℕ} {addr : BitVec 64}

/-- Pieces of whole words whose bits can be counted are transferred as with the default size. -/
theorem works_of_whole (hwhole : Whole X c (middleLen X addr len))
    (hbits : min c (middleLen X addr len) * 8 < 2 ^ 64)
    (hsize : c < 2 ^ 64) (hlen : len < 2 ^ 63) (hspace : len ≤ 2 ^ X.bits) : Works X c addr len := by
  rintro T hart bytes rfl rfl hread hwrite
  by_cases hne : bytes = []
  · subst hne
    refine ⟨fun d buf h hbuf => ?_, fun d h => runs_write_nil h, fun d h => runs_writePieces_nil h⟩
    obtain rfl := List.length_eq_zero_iff.mp hbuf
    exact runs_read_nil h
  obtain ⟨hprog, hdata⟩ := hread.word hne
  have hzero : ZeroMiddle T.xlen addr bytes → 4 ≤ T.progbufsize ∧ 2 ≤ T.datacount := by
    intro hz
    by_contra hshort
    exact (hwrite (atRest T) (idle_atRest T)).not_stuck (stuck_write hprog hdata (idle_atRest T) hz hshort)
  refine ⟨fun d buf h hbuf => ?_, fun d h => runs_write hprog hdata h hspace hwhole hsize hlen hbits hzero,
    fun d h => ?_⟩
  · rw [← hbuf] at hwhole hbits hlen ⊢
    exact runs_read hprog hdata h hwhole hsize hlen hbits
  · exact runs_writePieces hprog hdata h hwhole hsize hlen hbits
      (runs_write hprog hdata h hspace hwhole hsize hlen hbits hzero)

/-- A target with room for every transfer. -/
def roomyTarget (X : Xlen) : Target := ⟨X, 8, 2, fun _ => 0, Nat.le_of_ble_eq_true rfl, Nat.le_of_ble_eq_true rfl⟩

theorem roomyTarget_default (hart : ℕ) (addr : BitVec 64) {bytes : List UInt8} (hlen : bytes.length < 2 ^ 63)
    (hspace : bytes.length ≤ 2 ^ X.bits) :
    ReadExact (roomyTarget X) hart 4096 addr bytes.length ∧ WriteExact (roomyTarget X) hart 4096 addr bytes := by
  have hprog : 4 ≤ (roomyTarget X).progbufsize ∧ 2 ≤ (roomyTarget X).datacount :=
    ⟨Nat.le_of_ble_eq_true rfl, Nat.le_refl 2⟩
  have hdata : (roomyTarget X).xlen.words ≤ (roomyTarget X).datacount := by cases X <;> decide
  have hwhole : ∀ n, Whole (roomyTarget X).xlen 4096 n := fun n => Or.inr ⟨by decide, by cases X <;> decide⟩
  refine ⟨fun d buf h hbuf => ?_, fun d h => ?_⟩
  · rw [← hbuf] at hlen ⊢
    exact runs_read (by omega) hdata h (hwhole _) (by decide) hlen (by omega)
  · exact runs_write (by omega) hdata h hspace (hwhole _) (by decide) hlen (by omega) fun _ => hprog

/-- A read with other sizes never ends, or leaves a byte of the buffer as it was. -/
theorem ReadExact.whole {T : Target} {hart : ℕ} (h : ReadExact T hart c addr len) (hprog : 3 ≤ T.progbufsize)
    (hdata : T.xlen.words ≤ T.datacount) (hlen : len < 2 ^ 63) : Whole T.xlen c (middleLen T.xlen addr len) := by
  obtain ⟨buf, rfl, hones⟩ : ∃ buf : List UInt8, buf.length = len ∧ ∀ j < buf.length, buf[j]? = some 1 :=
    ⟨List.replicate len 1, by simp, fun j hj => by simp_all⟩
  have hle := @headLen_le T.xlen addr buf.length
  have hmid := @middleLen_add T.xlen addr buf.length
  -- both ends of the read are as they always are
  have hrun := h (atRest T) buf (idle_atRest T) rfl
  unfold read at hrun
  obtain ⟨⟨out, r⟩, d₁, -, ⟨hr, h₁⟩, hrun⟩ := hrun.bind_inv (runs_readHead hprog hdata (idle_atRest T))
  dsimp only at hr h₁ hrun
  subst hr
  obtain ⟨⟨out', r⟩, d₂, -, ⟨hr, h₂⟩, hrun⟩ :=
    hrun.bind_inv (runs_readTail hprog hdata h₁ (setWidth_offset addr _) rest_aligned
    (by dsimp only; omega))
  dsimp only at hr h₂ hrun
  subst hr
  have hrest :
    buf.length - headLen T.xlen addr buf.length - (buf.length - headLen T.xlen addr buf.length) % T.xlen.bytes =
      middleLen T.xlen addr buf.length := by omega
  rw [hrest] at h₂ hrun
  by_contra hnot
  rw [Whole, not_or, not_and_or, Nat.not_lt, Nat.le_zero, Nat.not_le] at hnot
  obtain ⟨hlt, rfl | hc⟩ := hnot
  · obtain ⟨-, -, -, hfalse⟩ := (hrun.ensures (ensures_readMiddle_zero hlt)).exists
    exact hfalse
  · obtain ⟨out'', d₃, ⟨rfl, -⟩, hskip⟩ :=
      (hrun.ensures (ensures_readMiddle_skips hc hlt (by dsimp only; omega) rfl)).exists
    have hdiv := Nat.div_mul_le_self c T.xlen.bytes
    dsimp only at hskip
    rw [getElem?_bytesAt (by omega), h₂.others _ (by omega), hones _ (by omega)] at hskip
    exact absurd (Option.some.inj hskip) (by simp [atRest])

/-- What works is at least exact on that target. -/
theorem Works.read (h : Works X c addr len) (hlen : len < 2 ^ 63) (hspace : len ≤ 2 ^ X.bits) :
    ReadExact (roomyTarget X) 0 c addr len ∧ Whole X c (middleLen X addr len) := by
  obtain ⟨bytes, rfl⟩ : ∃ bytes : List UInt8, bytes.length = len := ⟨List.replicate len 0, by simp⟩
  obtain ⟨hread, hwrite⟩ := roomyTarget_default 0 addr hlen hspace
  obtain ⟨hexact, -⟩ := h (roomyTarget X) 0 bytes rfl rfl hread hwrite
  exact ⟨hexact, hexact.whole (Nat.le_of_ble_eq_true rfl) (by cases X <;> decide) hlen⟩

/-- **The size of the chunks.**  A transfer works with a size from the command line exactly when it takes a single
chunk or the size is a positive number of whole words, and the bits of its largest chunk can be counted. -/
theorem works_iff {argv : List (List Char)} (hargv : chunkMaxSize argv = some c) (hlen : len < 2 ^ 63)
    (hspace : len ≤ 2 ^ X.bits) :
    Works X c addr len ↔ Whole X c (middleLen X addr len) ∧ min c (middleLen X addr len) * 8 < 2 ^ 64 := by
  have hsize : c < 2 ^ 64 := stoul_lt hargv
  constructor
  · intro hworks
    obtain ⟨bytes, rfl⟩ : ∃ bytes : List UInt8, bytes.length = len := ⟨List.replicate len 0, by simp⟩
    obtain ⟨hexact, hwhole⟩ := hworks.read hlen hspace
    exact ⟨hwhole, hexact.bits hwhole hsize hlen⟩
  · rintro ⟨hwhole, hbits⟩
    exact works_of_whole hwhole hbits hsize hlen hspace

end Sizes

/-- Eight words at a time. -/
theorem works_sixty_four : chunkMaxSize ["soct".toList, "--chunk-size=64".toList] = some 64 ∧
    Works .rv64 64 0x80000003 200 := by
  have hargv : chunkMaxSize ["soct".toList, "--chunk-size=64".toList] = some 64 := by decide
  exact ⟨hargv, (works_iff hargv (by decide) (by decide)).mpr ⟨by decide, by decide⟩⟩

/-- A hundred bytes are twelve and a half words: four bytes out of a hundred are not transferred. -/
theorem works_hundred : chunkMaxSize ["soct".toList, "--chunk-size=100".toList] = some 100 ∧
    ¬ Works .rv64 100 0x80000000 200 := by
  refine ⟨by decide, fun hworks => ?_⟩
  exact absurd (hworks.read (by decide) (by decide)).2 (by decide)

/-- Blanks, a sign, and what follows the number. -/
example : stoul " +12kB".toList = some 12 ∧ stoul "-1".toList = some (2 ^ 64 - 1) ∧ stoul "0x40".toList = some 0 ∧
    stoul "".toList = none := by decide

end Soceteer.Fesvr
