import Soceteer.Fesvr.Chunk

/-!
# Soceteer.Fesvr.Memif — byte-exact memory access

`read` and `write` split a transfer into a partly covered first word, a partly covered last word and the whole
words between them, which go a chunk at a time.

* `headLen`, `middleLen`: the split.
* `ReadExact`, `WriteExact`: what the two promise, for every target memory and register state.
* `Sized`: the driver's arrays hold what it puts into them, and no chunk overflows the count of its bits.
* `exact_iff`: the promise is kept exactly in that case.
-/

namespace Soceteer.Fesvr

open Soceteer.Lib Filter

variable {T : Target} {d : Dm T}

/-! ## The split -/

/-- The length of the partly covered first word. -/
def headLen (X : Xlen) (addr : BitVec 64) (len : ℕ) : ℕ := min len ((X.bytes - addr.toNat % X.bytes) % X.bytes)

/-- The length of the whole words. -/
def middleLen (X : Xlen) (addr : BitVec 64) (len : ℕ) : ℕ := (len - headLen X addr len) / X.bytes * X.bytes

section Split

variable {X : Xlen} {addr : BitVec 64} {len : ℕ}

theorem and_bytes (n : ℕ) : n &&& (X.bits / 8 - 1) = n % X.bytes := by
  cases X with
  | rv32 => exact Nat.and_two_pow_sub_one_eq_mod n 2
  | rv64 => exact Nat.and_two_pow_sub_one_eq_mod n 3

theorem toNat_and_mask (addr : BitVec 64) : (addr &&& alignMask X).toNat = addr.toNat % X.bytes := by
  have hlt : X.bits / 8 - 1 < 2 ^ 64 := by cases X <;> decide
  rw [alignMask, BitVec.toNat_and, BitVec.toNat_ofNat, Nat.mod_eq_of_lt hlt, and_bytes]

/-- The word an address lies in, and its offset there. -/
theorem base_add_offset (addr : BitVec 64) :
    (addr &&& ~~~alignMask X) + BitVec.ofNat 64 (addr.toNat % X.bytes) = addr := by
  have hoff : BitVec.ofNat 64 (addr.toNat % X.bytes) = addr &&& alignMask X := by
    rw [← toNat_and_mask, BitVec.ofNat_toNat, BitVec.setWidth_eq]
  rw [hoff, BitVec.add_eq_or_of_and_eq_zero]
  · ext i hi
    simp only [BitVec.getElem_or, BitVec.getElem_and, BitVec.getElem_not]
    cases addr[i] <;> cases (alignMask X)[i] <;> rfl
  · ext i hi
    simp only [BitVec.getElem_and, BitVec.getElem_not, BitVec.getElem_zero]
    cases addr[i] <;> cases (alignMask X)[i] <;> rfl

theorem base_aligned (addr : BitVec 64) : (addr &&& ~~~alignMask X).toNat % X.bytes = 0 := by
  have h := congrArg BitVec.toNat (@base_add_offset X addr)
  have hlt := (addr &&& ~~~alignMask X).isLt
  rw [BitVec.toNat_add, BitVec.toNat_ofNat] at h
  rcases X.bytes_cases with hb | hb <;> rw [hb] at h ⊢ <;> omega

/-- The length `read` computes for the first word. -/
theorem sub_and_mask (addr : BitVec 64) :
    ((BitVec.ofNat 64 (X.bits / 8) - addr) &&& alignMask X).toNat =
      (X.bytes - addr.toNat % X.bytes) % X.bytes := by
  have hlt := addr.isLt
  rw [toNat_and_mask, BitVec.toNat_sub, BitVec.toNat_ofNat]
  change (2 ^ 64 - addr.toNat + X.bytes % 2 ^ 64) % 2 ^ 64 % X.bytes = _
  rcases X.bytes_cases with hb | hb <;> rw [hb] <;> omega

theorem headLen_le : headLen X addr len ≤ len := Nat.min_le_left ..

theorem headLen_eq_zero (h : ¬ (len ≠ 0 ∧ addr &&& alignMask X ≠ 0)) : headLen X addr len = 0 := by
  by_cases hlen : len = 0
  · rw [headLen, hlen, Nat.zero_min]
  have hoff : addr.toNat % X.bytes = 0 := by
    have hand := not_not.mp fun hc => h ⟨hlen, hc⟩
    rw [← toNat_and_mask, hand]
    rfl
  rw [headLen, hoff, Nat.sub_zero, Nat.mod_self, Nat.min_zero]

/-- A first word that is partly covered starts past its beginning. -/
theorem headLen_eq (h : len ≠ 0 ∧ addr &&& alignMask X ≠ 0) :
    headLen X addr len = min len (X.bytes - addr.toNat % X.bytes) ∧ 0 < addr.toNat % X.bytes ∧
      addr.toNat % X.bytes < X.bytes ∧ 0 < headLen X addr len := by
  have hlt := Nat.mod_lt addr.toNat X.bytes_pos
  have hne : addr.toNat % X.bytes ≠ 0 := by
    intro hc
    rw [← toNat_and_mask] at hc
    exact h.2 (BitVec.eq_of_toNat_eq hc)
  have hmod : (X.bytes - addr.toNat % X.bytes) % X.bytes = X.bytes - addr.toNat % X.bytes :=
    Nat.mod_eq_of_lt (by omega)
  rw [headLen, hmod]
  omega

/-- After the first word the address is aligned, unless nothing is left. -/
theorem rest_aligned (h : len - headLen X addr len ≠ 0) :
    (addr + BitVec.ofNat 64 (headLen X addr len)).toNat % X.bytes = 0 := by
  have hlt := addr.isLt
  have hhead : headLen X addr len = (X.bytes - addr.toNat % X.bytes) % X.bytes := by
    unfold headLen at h ⊢
    omega
  rw [hhead, BitVec.toNat_add, BitVec.toNat_ofNat]
  rcases X.bytes_cases with hb | hb <;> rw [hb] <;> omega

theorem aligned_setWidth {taddr : BitVec 64} (h : taddr.toNat % X.bytes = 0) :
    (taddr.setWidth X.bits).toNat % X.bytes = 0 := by
  rw [BitVec.toNat_setWidth, Nat.mod_mod_of_dvd _ X.bytes_dvd, h]

theorem aligned_add_mul {taddr : BitVec 64} (h : taddr.toNat % X.bytes = 0) {k : ℕ} (hk : X.bytes ∣ k) :
    (taddr + BitVec.ofNat 64 k).toNat % X.bytes = 0 := by
  obtain ⟨j, rfl⟩ := hk
  rw [BitVec.toNat_add, BitVec.toNat_ofNat]
  rcases X.bytes_cases with hb | hb <;> rw [hb] at h ⊢ <;> omega

theorem setWidth_offset (taddr : BitVec 64) (k : ℕ) :
    (taddr + BitVec.ofNat 64 k).setWidth X.bits = taddr.setWidth X.bits + BitVec.ofNat X.bits k := by
  rw [BitVec.setWidth_add _ _ X.bits_le, BitVec.setWidth_ofNat_of_le X.bits_le]

theorem chunkWords_word : chunkWords X (X.bits / 8) = 1 := by cases X <;> rfl

/-- A chunk of whole words whose bits can be counted. -/
theorem chunkWords_mul {n : ℕ} (h : n * 8 < 2 ^ 64) (hn : X.bytes ∣ n) : chunkWords X n * X.bytes = n := by
  obtain ⟨k, rfl⟩ := hn
  rw [chunkWords, Nat.mod_eq_of_lt h, X.bits_eq, show X.bytes * k * 8 = 8 * X.bytes * k by ring,
    Nat.mul_div_cancel_left _ (by have := X.bytes_pos; omega), mul_comm]

theorem dvd_middleLen : X.bytes ∣ middleLen X addr len := Dvd.intro_left _ rfl

/-- The pieces of a transfer in chunks of this size are whole words: there is only one, or the size is one of whole
words. -/
def Whole (X : Xlen) (chunkMaxSize len : ℕ) : Prop :=
  len ≤ chunkMaxSize ∨ (0 < chunkMaxSize ∧ X.bytes ∣ chunkMaxSize)

instance (X : Xlen) (chunkMaxSize len : ℕ) : Decidable (Whole X chunkMaxSize len) :=
  inferInstanceAs (Decidable (_ ∨ _))

/-- The position of a piece, its length, and the next position. -/
theorem Whole.piece {chunkMaxSize pos : ℕ} (h : Whole X chunkMaxSize len) (hlen : X.bytes ∣ len)
    (hdvd : X.bytes ∣ pos ∨ len ≤ pos) (hzero : pos = 0 ∨ chunkMaxSize ≤ pos) (hlt : pos < len)
    (hsize : chunkMaxSize < 2 ^ 64)
    (hbytes : len < 2 ^ 63) :
    X.bytes ∣ pos ∧ X.bytes ∣ min chunkMaxSize (len - pos) ∧ 0 < min chunkMaxSize (len - pos) ∧
      (X.bytes ∣ pos + chunkMaxSize ∨ len ≤ pos + chunkMaxSize) ∧ pos + chunkMaxSize < 2 ^ 64 := by
  have hpos : X.bytes ∣ pos := hdvd.resolve_right (by omega)
  rcases h with hone | ⟨hchunk, hc⟩
  · obtain rfl : pos = 0 := hzero.resolve_right (by omega)
    rw [Nat.sub_zero, min_eq_right hone]
    exact ⟨hpos, hlen, by omega, Or.inr (by omega), by omega⟩
  · refine ⟨hpos, ?_, by omega, Or.inl (Dvd.dvd.add hpos hc), by omega⟩
    rcases min_choice chunkMaxSize (len - pos) with hm | hm <;> rw [hm]
    · exact hc
    · exact Nat.dvd_sub hlen hpos

/-- The last word takes what is left. -/
theorem middleLen_add : len - headLen X addr len =
    middleLen X addr len + (len - headLen X addr len) % X.bytes := by
  have := Nat.div_add_mod (len - headLen X addr len) X.bytes
  rw [middleLen, mul_comm]
  exact this.symm

end Split

/-! ## `memcpy` -/

theorem getElem?_memcpy {dst src out : List UInt8} {dstOff srcOff n : ℕ}
    (h : memcpy dst dstOff src srcOff n = some out) :
    out.length = dst.length ∧
      ∀ j, out[j]? = if dstOff ≤ j ∧ j < dstOff + n then src[srcOff + (j - dstOff)]? else dst[j]? := by
  unfold memcpy at h
  split_ifs at h with hb
  cases h
  have h1 : (dst.take dstOff).length = dstOff := by simp; omega
  have h2 : ((src.drop srcOff).take n).length = n := by simp; omega
  refine ⟨by simp; omega, fun j => ?_⟩
  rcases Nat.lt_or_ge j dstOff with hj | hj
  · rw [List.append_assoc, List.getElem?_append_left (by omega), List.getElem?_take_of_lt hj, if_neg (by omega)]
  rw [List.append_assoc, List.getElem?_append_right (by omega), h1]
  rcases Nat.lt_or_ge j (dstOff + n) with hj' | hj'
  · rw [List.getElem?_append_left (by omega), List.getElem?_take_of_lt (by omega), List.getElem?_drop,
      if_pos ⟨hj, hj'⟩]
  · rw [List.getElem?_append_right (by omega), h2, List.getElem?_drop, if_neg (by omega)]
    congr 1
    omega

theorem memcpy_isSome {dst src : List UInt8} {dstOff srcOff n : ℕ} (h1 : dstOff + n ≤ dst.length)
    (h2 : srcOff + n ≤ src.length) : ∃ out, memcpy dst dstOff src srcOff n = some out := ⟨_, if_pos ⟨h1, h2⟩⟩

/-- Bytes copied over a part of what has been read. -/
theorem memcpy_window {w : ℕ} {m : Mem w} {a : BitVec w} {src : List UInt8} {n j so k : ℕ} (hn : j + k ≤ n)
    (hsrc : so + k ≤ src.length) :
      memcpy (bytesAt m a n) j src so k = some (bytesAt m a j ++ (src.drop so).take k ++
      bytesAt m (a + BitVec.ofNat w (j + ((src.drop so).take k).length)) (n - (j + k))) := by
  have hlen : ((src.drop so).take k).length = k := by simp; omega
  have hsplit : bytesAt m a n = bytesAt m a j ++ (bytesAt m (a + BitVec.ofNat w j) k ++
      bytesAt m (a + BitVec.ofNat w (j + k)) (n - (j + k))) := by
    rw [← List.append_assoc, ← bytesAt_add, ← bytesAt_add, Nat.add_sub_cancel' hn]
  rw [memcpy, if_pos ⟨by simpa using hn, hsrc⟩, hlen, hsplit, List.take_left' (length_bytesAt ..),
    ← List.append_assoc,
    List.drop_left' (by simp)]

/-! ## `read` -/

theorem After.trans {m m' : Mem T.xlen.bits} {d₁ d₂ : Dm T} (h : After d m d₁)
    (h' : After d₁ m' d₂) : After d m' d₂ :=
  ⟨h'.idle, h'.mem, h'.gprs.trans h.gprs⟩

/-- The buffer in the course of a read: the bytes in `p` are those of the target, the others are as they were. -/
structure Reading (d : Dm T) (A : BitVec T.xlen.bits) (buf : List UInt8) (p : ℕ → Prop)
    (out : List UInt8) (d' : Dm T) :
    Prop where
  length : out.length = buf.length
  bytes : ∀ j, p j → j < buf.length → out[j]? = some (d.mem (A + BitVec.ofNat T.xlen.bits j))
  others : ∀ j, ¬ p j → out[j]? = buf[j]?
  after : After d d.mem d'

section Read

variable {hart chunkMaxSize : ℕ} {addr : BitVec 64} {buf : List UInt8} {A : BitVec T.xlen.bits} {p : ℕ → Prop}

/-- A piece of the target's memory copied to its place in the buffer. -/
theorem Reading.copy {out out' : List UInt8} {d₁ d₂ : Dm T} {B : BitVec T.xlen.bits} {k off so n : ℕ}
    (h : Reading d A buf p out d₁) (hafter : After d₁ d₁.mem d₂) (hk : so + n ≤ k)
    (hB : B + BitVec.ofNat T.xlen.bits so = A + BitVec.ofNat T.xlen.bits off)
    (hcopy : memcpy out off (bytesAt d₁.mem B k) so n = some out') :
    Reading d A buf (fun j => p j ∨ (off ≤ j ∧ j < off + n)) out' d₂ := by
  obtain ⟨hlen, hget⟩ := getElem?_memcpy hcopy
  refine ⟨hlen.trans h.length, fun j hj hlt => ?_, fun j hj => ?_, ?_⟩
  · rw [hget]
    split_ifs with hin
    · rw [getElem?_bytesAt (by omega), h.after.mem, BitVec.ofNat_add, ← BitVec.add_assoc, hB, BitVec.add_assoc,
        ← BitVec.ofNat_add, show off + (j - off) = j by omega]
    · exact h.bytes j (hj.resolve_right hin) hlt
  · rw [hget, if_neg (fun hin => hj (Or.inr hin))]
    exact h.others j (fun hp => hj (Or.inl hp))
  · have := h.after.trans hafter
    rwa [h.after.mem] at this

theorem Reading.congr {q : ℕ → Prop} {out : List UInt8} {d₁ : Dm T} (h : Reading d A buf p out d₁)
    (hpq : ∀ j, p j ↔ q j) : Reading d A buf q out d₁ := by
  obtain rfl : p = q := funext fun j => propext (hpq j)
  exact h

/-- The whole buffer has been read. -/
theorem Reading.all {out : List UInt8} {d₁ : Dm T} (h : Reading d A buf p out d₁) (hp : ∀ j < buf.length, p j) :
    out = bytesAt d.mem A buf.length := by
  apply List.ext_getElem?
  intro j
  rcases Nat.lt_or_ge j buf.length with hj | hj
  · rw [h.bytes j (hp j hj) hj, getElem?_bytesAt hj]
  · rw [List.getElem?_eq_none (by rw [h.length]; exact hj), List.getElem?_eq_none (by simpa using hj)]

variable (hprog : 3 ≤ T.progbufsize) (hdata : T.xlen.words ≤ T.datacount)
include hprog hdata

theorem runs_readHead (h : Idle d) :
    Runs (readHead hart addr buf.length buf) d fun st d' =>
      st.2 = ⟨headLen T.xlen addr buf.length, addr + BitVec.ofNat 64 (headLen T.xlen addr buf.length),
        buf.length - headLen T.xlen addr buf.length⟩ ∧
      Reading d (addr.setWidth T.xlen.bits) buf (· < headLen T.xlen addr buf.length) st.1 d' := by
  have hstart : Reading d (addr.setWidth T.xlen.bits) buf (fun _ => False) buf d :=
    ⟨rfl, fun _ hc => hc.elim, fun _ _ => rfl, ⟨h, rfl, rfl⟩⟩
  unfold readHead
  dsimp only
  split_ifs with hc
  · obtain ⟨hhead, -, hlt, -⟩ := headLen_eq hc
    have hle := @headLen_le T.xlen addr buf.length
    have hbase : (addr &&& ~~~alignMask T.xlen).setWidth T.xlen.bits +
        BitVec.ofNat T.xlen.bits (addr.toNat % T.xlen.bytes) = addr.setWidth T.xlen.bits + BitVec.ofNat
          T.xlen.bits 0 := by
      rw [← setWidth_offset, base_add_offset]
      simp
    rw [sub_and_mask, toNat_and_mask]
    change Runs (do
      let chunk ← readChunk hart (addr &&& ~~~alignMask T.xlen) (T.xlen.bits / 8)
      let bytes ← Prog.lift (memcpy buf 0 chunk (addr.toNat % T.xlen.bytes) (headLen T.xlen addr buf.length))
      pure (bytes, (⟨headLen T.xlen addr buf.length, addr + BitVec.ofNat 64 (headLen T.xlen addr buf.length),
        buf.length - headLen T.xlen addr buf.length⟩ : Rest))) d _
    refine (runs_readChunk hprog hdata h (aligned_setWidth (base_aligned addr))).bind ?_
    rintro chunk d₁ ⟨hchunk, hafter⟩
    rw [chunkWords_word, Nat.one_mul] at hchunk
    subst hchunk
    obtain ⟨out, hout⟩ :=
      @memcpy_isSome buf (bytesAt d.mem ((addr &&& ~~~alignMask T.xlen).setWidth T.xlen.bits) T.xlen.bytes)
      0 (addr.toNat % T.xlen.bytes) (headLen T.xlen addr buf.length) (by omega) (by simp; omega)
    refine runs_lift_bind hout (runs_pure ⟨rfl, ?_⟩)
    exact (hstart.copy hafter (by omega) hbase hout).congr fun j => by simp
  · refine runs_pure ⟨?_, ?_⟩
    · simp [headLen_eq_zero hc]
    · exact hstart.congr fun j => by simp [headLen_eq_zero hc]

theorem runs_readTail {r : Rest} {out : List UInt8} {d₁ : Dm T} (h : Reading d A buf p out d₁)
    (haddr : r.addr.setWidth T.xlen.bits = A + BitVec.ofNat T.xlen.bits r.off)
    (haligned : r.len ≠ 0 → r.addr.toNat % T.xlen.bytes = 0) (hfit : r.off + r.len ≤ buf.length) :
    Runs (readTail hart r out) d₁ fun st d' => st.2 = { r with len := r.len - r.len % T.xlen.bytes } ∧
      Reading d A buf (fun j => p j ∨ (r.off + (r.len - r.len % T.xlen.bytes) ≤ j ∧ j < r.off + r.len))
        st.1 d' := by
  have hmod := Nat.mod_le r.len T.xlen.bytes
  have hlt := Nat.mod_lt r.len T.xlen.bytes_pos
  unfold readTail
  dsimp only
  rw [and_bytes]
  generalize ht : r.len % T.xlen.bytes = t at hmod hlt
  split_ifs with hc
  · have haligned' : (r.addr + BitVec.ofNat 64 (r.len - t)).toNat % T.xlen.bytes = 0 :=
      aligned_add_mul (haligned (by omega)) (ht ▸ Nat.dvd_sub_mod r.len)
    have hbase : (r.addr + BitVec.ofNat 64 (r.len - t)).setWidth T.xlen.bits + BitVec.ofNat T.xlen.bits 0 =
        A + BitVec.ofNat T.xlen.bits (r.off + (r.len - t)) := by
      rw [setWidth_offset, haddr, BitVec.ofNat_add, ← BitVec.add_assoc]
      simp
    refine (runs_readChunk hprog hdata h.after.idle (aligned_setWidth haligned')).bind ?_
    rintro chunk d₂ ⟨hchunk, hafter⟩
    rw [chunkWords_word, Nat.one_mul] at hchunk
    subst hchunk
    obtain ⟨out', hout⟩ := @memcpy_isSome out
      (bytesAt d₁.mem ((r.addr + BitVec.ofNat 64 (r.len - t)).setWidth T.xlen.bits) T.xlen.bytes)
      (r.off + (r.len - t)) 0 t (by rw [h.length]; omega) (by simp; omega)
    refine runs_lift_bind hout (runs_pure ⟨rfl, ?_⟩)
    exact (h.copy hafter (by omega) hbase hout).congr fun j => by
      rw [show r.off + (r.len - t) + t = r.off + r.len by omega]
  · obtain rfl : t = 0 := not_not.mp hc
    exact runs_pure ⟨rfl, h.congr fun j => ⟨Or.inl, fun hj => hj.resolve_right (by omega)⟩⟩

/-- A chunk at a time, with as many words in each as its length says. -/
theorem runs_readMiddle {r : Rest} {out : List UInt8} {d₁ : Dm T} (h : Reading d A buf p out d₁)
    (haddr : r.addr.setWidth T.xlen.bits = A + BitVec.ofNat T.xlen.bits r.off)
    (haligned : r.len ≠ 0 → r.addr.toNat % T.xlen.bytes = 0) (hfit : r.off + r.len ≤ buf.length)
    (hlen : T.xlen.bytes ∣ r.len) (hwhole : Whole T.xlen chunkMaxSize r.len)
    (hsize : chunkMaxSize < 2 ^ 64) (hbuf : buf.length < 2 ^ 63) (hbits : min chunkMaxSize r.len * 8 < 2 ^ 64) :
    Runs (readMiddle hart chunkMaxSize r out) d₁ fun out' d' =>
      Reading d A buf (fun j => p j ∨ (r.off ≤ j ∧ j < r.off + r.len)) out' d' := by
  -- a wrap of the position would take a buffer of half the address space
  refine Runs.loop (fun st d' => (T.xlen.bytes ∣ st.1 ∨ r.len ≤ st.1) ∧ (st.1 = 0 ∨ chunkMaxSize ≤ st.1) ∧
    Reading d A buf (fun j => p j ∨ (r.off ≤ j ∧ j < r.off + min st.1 r.len)) st.2 d')
      (fun st _ => r.len - st.1) ?_
    ⟨Or.inl (dvd_zero _), Or.inl rfl, h.congr fun j => by simp⟩
  rintro ⟨pos, out₁⟩ d₂ ⟨hdvd, hzero, h₂⟩
  dsimp only at hdvd hzero h₂ ⊢
  split_ifs with hlt
  · obtain ⟨hdvd, hndvd, hn0, hnext, hwrap⟩ := hwhole.piece hlen hdvd hzero hlt hsize (by omega)
    generalize hn : min chunkMaxSize (r.len - pos) = n at hndvd hn0
    have haligned' := aligned_add_mul (haligned (by omega)) hdvd
    have hbase : (r.addr + BitVec.ofNat 64 pos).setWidth T.xlen.bits + BitVec.ofNat T.xlen.bits 0 =
        A + BitVec.ofNat T.xlen.bits (r.off + pos) := by
      rw [setWidth_offset, haddr, BitVec.ofNat_add, ← BitVec.add_assoc]
      simp
    refine (runs_readChunk hprog hdata h₂.after.idle (aligned_setWidth haligned')).bind ?_
    rintro chunk d₃ ⟨hchunk, hafter⟩
    rw [chunkWords_mul (by omega) hndvd] at hchunk
    subst hchunk
    rw [length_bytesAt]
    obtain ⟨out', hout⟩ :=
      @memcpy_isSome out₁ (bytesAt d₂.mem ((r.addr + BitVec.ofNat 64 pos).setWidth T.xlen.bits) n)
      (r.off + pos) 0 n (by rw [h₂.length]; omega) (by simp)
    refine runs_lift_bind hout (runs_pure ?_)
    rw [Nat.mod_eq_of_lt hwrap]
    refine ⟨⟨hnext, Or.inr (by omega), ?_⟩, by omega⟩
    exact (h₂.copy hafter (by omega) hbase hout).congr fun j => by
      rw [or_assoc]
      exact or_congr Iff.rfl (by omega)
  · exact runs_pure (h₂.congr fun j => by rw [min_eq_right (by omega)])

/-- What `read` does before the whole words. -/
theorem runs_readEnds (h : Idle d) {Q : List UInt8 → Dm T → Prop}
    (hk : ∀ out d', Reading d (addr.setWidth T.xlen.bits) buf (fun j => j < headLen T.xlen addr buf.length ∨
        (headLen T.xlen addr buf.length + middleLen T.xlen addr buf.length ≤ j ∧ j < buf.length)) out d' →
      Runs (readMiddle hart chunkMaxSize ⟨headLen T.xlen addr buf.length,
        addr + BitVec.ofNat 64 (headLen T.xlen addr buf.length), middleLen T.xlen addr buf.length⟩ out) d' Q) :
    Runs (read hart chunkMaxSize addr buf.length buf) d Q := by
  have hle := @headLen_le T.xlen addr buf.length
  have hmid := @middleLen_add T.xlen addr buf.length
  unfold read
  refine (runs_readHead hprog hdata h).bind ?_
  rintro ⟨out, r⟩ d₁ ⟨hr, h₁⟩
  dsimp only at hr h₁ ⊢
  subst hr
  refine (runs_readTail hprog hdata h₁ (setWidth_offset addr _) rest_aligned (by dsimp only; omega)).bind ?_
  rintro ⟨out', r⟩ d₂ ⟨hr, h₂⟩
  dsimp only at hr h₂ ⊢
  rw [show buf.length - headLen T.xlen addr buf.length -
      (buf.length - headLen T.xlen addr buf.length) % T.xlen.bytes =
    middleLen T.xlen addr buf.length by omega] at hr h₂
  subst hr
  refine hk out' d₂ (h₂.congr fun j => ?_)
  rw [Nat.add_sub_cancel' hle]

/-- **`read`** returns the bytes of the range and changes nothing. -/
theorem runs_read (h : Idle d) (hwhole : Whole T.xlen chunkMaxSize (middleLen T.xlen addr buf.length))
    (hsize : chunkMaxSize < 2 ^ 64) (hbuf : buf.length < 2 ^ 63)
    (hbits : min chunkMaxSize (middleLen T.xlen addr buf.length) * 8 < 2 ^ 64) :
    Runs (read hart chunkMaxSize addr buf.length buf) d fun out d' =>
      out = bytesAt d.mem (addr.setWidth T.xlen.bits) buf.length ∧ After d d.mem d' := by
  have hle := @headLen_le T.xlen addr buf.length
  have hmid := @middleLen_add T.xlen addr buf.length
  have haligned : middleLen T.xlen addr buf.length ≠ 0 →
      (addr + BitVec.ofNat 64 (headLen T.xlen addr buf.length)).toNat % T.xlen.bytes = 0 :=
    fun hne => rest_aligned (by omega)
  refine runs_readEnds hprog hdata h fun out d₁ h₁ => ?_
  refine (runs_readMiddle (r := ⟨headLen T.xlen addr buf.length, _, middleLen T.xlen addr buf.length⟩)
    hprog hdata h₁
    (setWidth_offset addr _) haligned (by dsimp only; omega) dvd_middleLen hwhole hsize hbuf hbits).mono
    fun out' d₂ h₂ => ⟨h₂.all fun j hj => ?_, h₂.after⟩
  dsimp only
  omega

/-- A chunk whose bits cannot be counted is cut short: its last byte stays as it was. -/
theorem runs_read_overflow (h : Idle d) (hwhole : Whole T.xlen chunkMaxSize (middleLen T.xlen addr buf.length))
    (hsize : chunkMaxSize < 2 ^ 64) (hbuf : buf.length < 2 ^ 63)
    (hbits : 2 ^ 64 ≤ min chunkMaxSize (middleLen T.xlen addr buf.length) * 8) {q : ℕ}
    (hq : q + 1 = headLen T.xlen addr buf.length + min chunkMaxSize (middleLen T.xlen addr buf.length)) :
    Runs (read hart chunkMaxSize addr buf.length buf) d fun out _ => out[q]? = buf[q]? := by
  have hle := @headLen_le T.xlen addr buf.length
  have hmid := @middleLen_add T.xlen addr buf.length
  have hdvdMid := @dvd_middleLen T.xlen addr buf.length
  have haligned : (addr + BitVec.ofNat 64 (headLen T.xlen addr buf.length)).toNat % T.xlen.bytes = 0 :=
    rest_aligned (by omega)
  refine runs_readEnds hprog hdata h fun out d₁ h₁ => ?_
  generalize headLen T.xlen addr buf.length = head at *
  generalize middleLen T.xlen addr buf.length = mid at *
  refine Runs.loop (fun st d' => (T.xlen.bytes ∣ st.1 ∨ mid ≤ st.1) ∧ (st.1 = 0 ∨ chunkMaxSize ≤ st.1) ∧ Idle d' ∧
    st.2.length = buf.length ∧ st.2[q]? = buf[q]?) (fun st _ => mid - st.1) ?_
    ⟨Or.inl (dvd_zero _), Or.inl rfl, h₁.after.idle, h₁.length, h₁.others q (by omega)⟩
  rintro ⟨pos, out₁⟩ d₂ ⟨hdvd, hzero, hidle, hlen, hget⟩
  dsimp only at hdvd hzero hlen hget ⊢
  split_ifs with hlt
  · obtain ⟨hdvd, -, hn0, hnext, hwrap⟩ := hwhole.piece hdvdMid hdvd hzero hlt hsize (by omega)
    refine (runs_readChunk hprog hdata hidle (aligned_setWidth (aligned_add_mul haligned hdvd))).bind ?_
    rintro chunk d₃ ⟨hchunk, hafter⟩
    generalize hn : min chunkMaxSize (mid - pos) = n at hchunk hn0
    have hshort : chunk.length * 8 ≤ n * 8 % 2 ^ 64 := by
      rw [hchunk, length_bytesAt, chunkWords, T.xlen.bits_eq, mul_assoc, mul_comm T.xlen.bytes]
      exact Nat.div_mul_le_self _ _
    obtain ⟨out', hout⟩ := @memcpy_isSome out₁ chunk (head + pos) 0 chunk.length (by omega) (by omega)
    obtain ⟨hlen', hget'⟩ := getElem?_memcpy hout
    refine runs_lift_bind hout (runs_pure ?_)
    rw [Nat.mod_eq_of_lt hwrap]
    refine ⟨⟨hnext, Or.inr (by omega), hafter.idle, hlen'.trans hlen, ?_⟩, by omega⟩
    rw [hget', if_neg (by omega), hget]
  · exact runs_pure hget

omit hprog hdata in
theorem stuck_read (h : Idle d) (hne : buf.length ≠ 0)
    (hshort : ¬ (3 ≤ T.progbufsize ∧ T.xlen.words ≤ T.datacount)) :
    Stuck (read hart chunkMaxSize addr buf.length buf) d := by
  unfold read readHead
  dsimp only
  split_ifs with hhead
  · exact Stuck.bind (Stuck.bind (stuck_readChunk h hshort))
  refine stuck_pure_bind ?_
  dsimp only
  unfold readTail
  dsimp only
  split_ifs with htail
  · exact Stuck.bind (Stuck.bind (stuck_readChunk h hshort))
  refine stuck_pure_bind (Stuck.loop ?_)
  rw [if_pos (Nat.pos_of_ne_zero hne)]
  exact Stuck.bind (stuck_readChunk h hshort)

end Read

/-! ## `write` -/

section Write

variable {hart chunkMaxSize : ℕ} {addr : BitVec 64} {bytes : List UInt8} (hprog : 3 ≤ T.progbufsize)
  (hdata : T.xlen.words ≤ T.datacount)
include hprog hdata

/-- A word with some of its bytes replaced, written back. -/
theorem runs_writeWord {taddr : BitVec 64} {j k : ℕ} {bs : List UInt8} (h : Idle d)
    (haligned : taddr.toNat % T.xlen.bytes = 0) (hlen : j + bs.length + k = T.xlen.bytes) :
    Runs (writeChunk hart taddr (T.xlen.bits / 8) (bytesAt d.mem (taddr.setWidth T.xlen.bits) j ++ bs ++
      bytesAt d.mem (taddr.setWidth T.xlen.bits + BitVec.ofNat T.xlen.bits (j + bs.length)) k)) d fun _ d' =>
        After d (splice d.mem (taddr.setWidth T.xlen.bits + BitVec.ofNat T.xlen.bits j) bs) d' := by
  have hpow : T.xlen.bytes ≤ 2 ^ T.xlen.bits := Nat.le_of_dvd (Nat.two_pow_pos _) T.xlen.bytes_dvd
  have hword :=
    @runs_writeChunk T d hart (T.xlen.bits / 8) taddr (bytesAt d.mem (taddr.setWidth T.xlen.bits) j ++ bs ++
    bytesAt d.mem (taddr.setWidth T.xlen.bits + BitVec.ofNat T.xlen.bits (j + bs.length)) k) hprog hdata h
    (aligned_setWidth haligned) (by rw [chunkWords_word]) (by rw [chunkWords_word]; simp; omega)
    (by rw [chunkWords_word]; omega)
  rwa [chunkWords_word, Nat.one_mul, List.take_of_length_le (by simp; omega), splice_window (by omega)] at hword

theorem runs_writeHead (h : Idle d) :
    Runs (writeHead hart addr bytes.length bytes) d fun r d' =>
      r = ⟨headLen T.xlen addr bytes.length, addr + BitVec.ofNat 64 (headLen T.xlen addr bytes.length),
        bytes.length - headLen T.xlen addr bytes.length⟩ ∧
      After d (splice d.mem (addr.setWidth T.xlen.bits) (bytes.take (headLen T.xlen addr bytes.length))) d' := by
  unfold writeHead
  dsimp only
  split_ifs with hc
  · obtain ⟨hhead, -, hlt, -⟩ := headLen_eq hc
    have hle := @headLen_le T.xlen addr bytes.length
    rw [toNat_and_mask, show T.xlen.bits / 8 - addr.toNat % T.xlen.bytes =
      T.xlen.bytes - addr.toNat % T.xlen.bytes from rfl,
      ← hhead]
    have hbase : (addr &&& ~~~alignMask T.xlen).setWidth T.xlen.bits +
        BitVec.ofNat T.xlen.bits (addr.toNat % T.xlen.bytes) = addr.setWidth T.xlen.bits := by
      rw [← setWidth_offset, base_add_offset]
    refine (runs_readChunk hprog hdata h (aligned_setWidth (base_aligned addr))).bind ?_
    rintro chunk d₁ ⟨hchunk, hafter⟩
    rw [chunkWords_word, Nat.one_mul] at hchunk
    subst hchunk
    refine runs_lift_bind (memcpy_window (by omega) (by omega)) ?_
    rw [← hafter.mem]
    refine (runs_writeWord hprog hdata hafter.idle (base_aligned addr) (by simp; omega)).bind ?_
    rintro - d₂ hafter₂
    rw [hbase] at hafter₂
    exact runs_pure ⟨rfl, hafter.trans hafter₂⟩
  · rw [headLen_eq_zero hc]
    exact runs_pure ⟨by simp, h, by simp, rfl⟩

theorem runs_writeTail {r : Rest} (h : Idle d) (haligned : r.len ≠ 0 → r.addr.toNat % T.xlen.bytes = 0)
    (hfit : r.off + r.len ≤ bytes.length) :
    Runs (writeTail hart r bytes) d fun r' d' => r' = { r with len := r.len - r.len % T.xlen.bytes } ∧
      After d (splice d.mem (r.addr.setWidth T.xlen.bits + BitVec.ofNat T.xlen.bits (r.len - r.len % T.xlen.bytes))
        ((bytes.drop (r.off + (r.len - r.len % T.xlen.bytes))).take (r.len % T.xlen.bytes))) d' := by
  have hmod := Nat.mod_le r.len T.xlen.bytes
  have hlt := Nat.mod_lt r.len T.xlen.bytes_pos
  unfold writeTail
  dsimp only
  rw [and_bytes]
  generalize ht : r.len % T.xlen.bytes = t at hmod hlt
  split_ifs with hc
  · have haligned' : (r.addr + BitVec.ofNat 64 (r.len - t)).toNat % T.xlen.bytes = 0 :=
      aligned_add_mul (haligned (by omega)) (ht ▸ Nat.dvd_sub_mod r.len)
    refine (runs_readChunk hprog hdata h (aligned_setWidth haligned')).bind ?_
    rintro chunk d₁ ⟨hchunk, hafter⟩
    rw [chunkWords_word, Nat.one_mul] at hchunk
    subst hchunk
    refine runs_lift_bind (memcpy_window (by omega) (by omega)) ?_
    rw [← hafter.mem]
    refine (runs_writeWord hprog hdata hafter.idle haligned' (by simp; omega)).bind ?_
    rintro - d₂ hafter₂
    rw [setWidth_offset] at hafter₂
    simp only [BitVec.add_zero] at hafter₂
    exact runs_pure ⟨rfl, hafter.trans hafter₂⟩
  · obtain rfl : t = 0 := not_not.mp hc
    exact runs_pure ⟨rfl, h, by simp, rfl⟩

/-- The whole words, a chunk at a time. -/
theorem runs_writeMiddle {r : Rest} (h : Idle d) (haligned : r.len ≠ 0 → r.addr.toNat % T.xlen.bytes = 0)
    (hfit : r.off + r.len ≤ bytes.length) (hlen : T.xlen.bytes ∣ r.len) (hspace : r.len ≤ 2 ^ T.xlen.bits)
    (hwhole : Whole T.xlen chunkMaxSize r.len) (hsize : chunkMaxSize < 2 ^ 64)
    (hbytes : bytes.length < 2 ^ 63) (hbits : min chunkMaxSize r.len * 8 < 2 ^ 64) :
    Runs (writeMiddle hart chunkMaxSize r bytes) d fun _ d' =>
      After d (splice d.mem (r.addr.setWidth T.xlen.bits) ((bytes.drop r.off).take r.len)) d' := by
  refine Runs.loop (fun pos d' => (T.xlen.bytes ∣ pos ∨ r.len ≤ pos) ∧ (pos = 0 ∨ chunkMaxSize ≤ pos) ∧
    After d (splice d.mem (r.addr.setWidth T.xlen.bits) ((bytes.drop r.off).take (min pos r.len))) d')
    (fun pos _ => r.len - pos) ?_ ⟨Or.inl (dvd_zero _), Or.inl rfl, h, by simp, rfl⟩
  rintro pos d₁ ⟨hdvd, hzero, h₁⟩
  split_ifs with hlt
  · obtain ⟨hdvd, hndvd, hn0, hstep, hwrap⟩ := hwhole.piece hlen hdvd hzero hlt hsize (by omega)
    generalize hn : min chunkMaxSize (r.len - pos) = n at hndvd hn0
    have hwords := chunkWords_mul (X := T.xlen) (n := n) (by omega) hndvd
    have hone : 1 ≤ chunkWords T.xlen n := by
      rcases Nat.eq_zero_or_pos (chunkWords T.xlen n) with h0 | h0
      · rw [h0, Nat.zero_mul] at hwords
        omega
      · exact h0
    have haligned' := aligned_add_mul (haligned (by omega)) hdvd
    refine (runs_writeChunk hprog hdata h₁.idle (aligned_setWidth haligned') hone (by rw [hwords]; simp; omega)
      (by rw [hwords]; omega)).bind ?_
    rintro - d₂ h₂
    refine runs_pure ?_
    rw [Nat.mod_eq_of_lt hwrap]
    refine ⟨⟨hstep, Or.inr (by omega), ?_⟩, by omega⟩
    have hprev : ((bytes.drop r.off).take (min pos r.len)).length = pos := by simp; omega
    have hnext : (bytes.drop r.off).take (min (pos + chunkMaxSize) r.len) =
        (bytes.drop r.off).take (min pos r.len) ++ (bytes.drop (r.off + pos)).take n := by
      rw [show min (pos + chunkMaxSize) r.len = min pos r.len + n by omega, List.take_add, List.drop_drop,
        min_eq_left (by omega)]
    rw [hwords, h₁.mem, setWidth_offset] at h₂
    rw [hnext, ← splice_append (by rw [hprev]; simp; omega), hprev]
    exact h₁.trans h₂
  · refine runs_pure ?_
    rwa [min_eq_right (by omega)] at h₁

/-- What is left for the whole words of a write. -/
def middle (X : Xlen) (addr : BitVec 64) (len : ℕ) : Rest :=
  ⟨headLen X addr len, addr + BitVec.ofNat 64 (headLen X addr len), middleLen X addr len⟩

/-- Both ends of a write. -/
theorem runs_writeEnds (h : Idle d) :
    Runs (do
      let r ← writeHead hart addr bytes.length bytes
      writeTail hart r bytes) d fun r d' => r = middle T.xlen addr bytes.length ∧
        After d (splice (splice d.mem (addr.setWidth T.xlen.bits) (bytes.take (headLen T.xlen addr bytes.length)))
          (addr.setWidth T.xlen.bits + BitVec.ofNat T.xlen.bits (headLen T.xlen addr bytes.length) +
            BitVec.ofNat T.xlen.bits (middleLen T.xlen addr bytes.length))
          (bytes.drop (headLen T.xlen addr bytes.length + middleLen T.xlen addr bytes.length))) d' := by
  have hle := @headLen_le T.xlen addr bytes.length
  have hmid := @middleLen_add T.xlen addr bytes.length
  refine (runs_writeHead hprog hdata h).bind ?_
  rintro r d₁ ⟨rfl, h₁⟩
  refine (runs_writeTail hprog hdata h₁.idle rest_aligned (by dsimp only; omega)).mono ?_
  rintro r d₂ ⟨rfl, h₂⟩
  dsimp only at h₂ ⊢
  generalize ht : (bytes.length - headLen T.xlen addr bytes.length) % T.xlen.bytes = t at hmid h₂ ⊢
  rw [show bytes.length - headLen T.xlen addr bytes.length - t =
    middleLen T.xlen addr bytes.length by omega] at h₂ ⊢
  have hrest : (bytes.drop (headLen T.xlen addr bytes.length + middleLen T.xlen addr bytes.length)).take t =
      bytes.drop (headLen T.xlen addr bytes.length + middleLen T.xlen addr bytes.length) :=
    List.take_of_length_le (by simp; omega)
  rw [setWidth_offset, h₁.mem, hrest] at h₂
  exact ⟨rfl, h₁.trans h₂⟩

omit hprog hdata in
/-- The three parts of a write make up the whole. -/
theorem splice_parts {m : Mem T.xlen.bits} (hspace : bytes.length ≤ 2 ^ T.xlen.bits) :
    splice (splice (splice m (addr.setWidth T.xlen.bits) (bytes.take (headLen T.xlen addr bytes.length)))
      (addr.setWidth T.xlen.bits + BitVec.ofNat T.xlen.bits (headLen T.xlen addr bytes.length) +
        BitVec.ofNat T.xlen.bits (middleLen T.xlen addr bytes.length))
      (bytes.drop (headLen T.xlen addr bytes.length + middleLen T.xlen addr bytes.length)))
      (addr.setWidth T.xlen.bits + BitVec.ofNat T.xlen.bits (headLen T.xlen addr bytes.length))
      ((bytes.drop (headLen T.xlen addr bytes.length)).take (middleLen T.xlen addr bytes.length)) =
    splice m (addr.setWidth T.xlen.bits) bytes := by
  have hle := @headLen_le T.xlen addr bytes.length
  have hmid := @middleLen_add T.xlen addr bytes.length
  generalize headLen T.xlen addr bytes.length = head at *
  generalize middleLen T.xlen addr bytes.length = mid at *
  have hlen : ((bytes.drop head).take mid).length = mid := by simp; omega
  have hlen' : (bytes.take head).length = head := by simp; omega
  have hrest : (bytes.drop head).take mid ++ bytes.drop (head + mid) = bytes.drop head := by
    rw [← List.drop_drop, List.take_append_drop]
  have hinner := @splice_append' _ (splice m (addr.setWidth T.xlen.bits) (bytes.take head))
    (addr.setWidth T.xlen.bits + BitVec.ofNat T.xlen.bits head) ((bytes.drop head).take mid)
      (bytes.drop (head + mid))
    (by rw [hlen]; simp; omega)
  rw [hlen] at hinner
  have houter := @splice_append _ m (addr.setWidth T.xlen.bits) (bytes.take head) (bytes.drop head)
    (by rw [hlen']; simp; omega)
  rw [hlen', List.take_append_drop] at houter
  rw [hinner, hrest, houter]

/-- An all-zero middle part, and not an empty one. -/
def ZeroMiddle (X : Xlen) (addr : BitVec 64) (bytes : List UInt8) : Prop :=
  allZero (middle X addr bytes.length) bytes = true

instance (X : Xlen) (addr : BitVec 64) (bytes : List UInt8) : Decidable (ZeroMiddle X addr bytes) :=
  inferInstanceAs (Decidable (_ = true))

omit hprog hdata in
theorem middle_of_zero {X : Xlen} (hz : ZeroMiddle X addr bytes) : middleLen X addr bytes.length ≠ 0 ∧
    (bytes.drop (headLen X addr bytes.length)).take (middleLen X addr bytes.length) =
      List.replicate (middleLen X addr bytes.length) 0 := by
  have hle := @headLen_le X addr bytes.length
  have hmid := @middleLen_add X addr bytes.length
  simp only [ZeroMiddle, allZero, middle, Bool.and_eq_true, List.all_eq_true, beq_iff_eq] at hz
  refine ⟨of_decide_eq_true hz.1, List.eq_replicate_iff.mpr ⟨by simp; omega, hz.2⟩⟩

/-- **`write`** changes the bytes of the range and no others. -/
theorem runs_write (h : Idle d) (hspace : bytes.length ≤ 2 ^ T.xlen.bits)
    (hwhole : Whole T.xlen chunkMaxSize (middleLen T.xlen addr bytes.length)) (hsize : chunkMaxSize < 2 ^ 64)
    (hbytes : bytes.length < 2 ^ 63)
    (hbits : min chunkMaxSize (middleLen T.xlen addr bytes.length) * 8 < 2 ^ 64)
    (hzero : ZeroMiddle T.xlen addr bytes → 4 ≤ T.progbufsize ∧ 2 ≤ T.datacount) :
    Runs (write hart chunkMaxSize addr bytes.length bytes) d fun _ d' =>
      After d (splice d.mem (addr.setWidth T.xlen.bits) bytes) d' := by
  have hle := @headLen_le T.xlen addr bytes.length
  have hmid := @middleLen_add T.xlen addr bytes.length
  have haligned : middleLen T.xlen addr bytes.length ≠ 0 →
      (addr + BitVec.ofNat 64 (headLen T.xlen addr bytes.length)).toNat % T.xlen.bytes = 0 :=
    fun hne => rest_aligned (by omega)
  unfold write
  rw [← Prog.bind_assoc]
  refine (runs_writeEnds hprog hdata h).bind ?_
  rintro r d₁ ⟨rfl, h₁⟩
  rw [← splice_parts hspace, ← h₁.mem, ← setWidth_offset]
  by_cases hz : ZeroMiddle T.xlen addr bytes
  · obtain ⟨hne, hrep⟩ := middle_of_zero hz
    obtain ⟨k, hk⟩ := @dvd_middleLen T.xlen addr bytes.length
    have hk0 : k ≠ 0 := by
      rintro rfl
      exact hne hk
    obtain ⟨k, rfl⟩ := Nat.exists_eq_succ_of_ne_zero hk0
    rw [if_pos (show allZero (middle T.xlen addr bytes.length) bytes = true from hz), hrep]
    refine (runs_clearChunk hdata h₁.idle (hzero hz).1 (hzero hz).2 (aligned_setWidth (haligned hne))
      (by rw [mul_comm]; exact hk) (by dsimp only [middle]; omega)).mono ?_
    exact fun _ d₂ h₂ => h₁.trans h₂
  · rw [if_neg (show ¬ allZero (middle T.xlen addr bytes.length) bytes = true from hz)]
    refine (runs_writeMiddle (r := middle T.xlen addr bytes.length) hprog hdata h₁.idle haligned
      (by dsimp only [middle]; omega) dvd_middleLen (by dsimp only [middle]; omega) hwhole hsize
        hbytes hbits).mono ?_
    exact fun _ d₂ h₂ => h₁.trans h₂

/-- The zero loop does not fit. -/
theorem stuck_write (h : Idle d) (hz : ZeroMiddle T.xlen addr bytes)
    (hshort : ¬ (4 ≤ T.progbufsize ∧ 2 ≤ T.datacount)) :
    Stuck (write hart chunkMaxSize addr bytes.length bytes) d := by
  unfold write
  rw [← Prog.bind_assoc]
  refine (runs_writeEnds hprog hdata h).stuck_bind ?_
  rintro r d₁ ⟨rfl, h₁⟩
  rw [if_pos (show allZero (middle T.xlen addr bytes.length) bytes = true from hz)]
  exact stuck_clearChunk hdata h₁.idle hshort

end Write

/-! ## Exact transfers -/

/-- `read` fills a buffer with the bytes of the range.  Memory and every register of every hart are as before. -/
def ReadExact (T : Target) (hart chunkMaxSize : ℕ) (addr : BitVec 64) (len : ℕ) : Prop :=
  ∀ (d : Dm T) (buf : List UInt8), Idle d → buf.length = len →
    Runs (read hart chunkMaxSize addr len buf) d fun out d' =>
      out = bytesAt d.mem (addr.setWidth T.xlen.bits) len ∧ After d d.mem d'

/-- `write` replaces the bytes of the range.  The rest of memory and every register of every hart are as before. -/
def WriteExact (T : Target) (hart chunkMaxSize : ℕ) (addr : BitVec 64) (bytes : List UInt8) : Prop :=
  ∀ d : Dm T, Idle d → Runs (write hart chunkMaxSize addr bytes.length bytes) d fun _ d' =>
    After d (splice d.mem (addr.setWidth T.xlen.bits) bytes) d'

/-- The arrays of the driver, which are as long as the target's buffers, hold what a transfer puts into them, and
the bits of a chunk can be counted. -/
structure Sized (T : Target) (chunkMaxSize : ℕ) (addr : BitVec 64) (bytes : List UInt8) : Prop where
  word : bytes ≠ [] → 3 ≤ T.progbufsize ∧ T.xlen.words ≤ T.datacount
  zero : ZeroMiddle T.xlen addr bytes → 4 ≤ T.progbufsize ∧ 2 ≤ T.datacount
  bits : min chunkMaxSize (middleLen T.xlen addr bytes.length) * 8 < 2 ^ 64

/-- A target at rest, with nothing in its memory. -/
def atRest (T : Target) : Dm T where
  mem := fun _ => 0
  gprs := fun _ _ => 0
  data := fun _ => 0
  progbuf := fun _ => 0
  command := 0
  cmderr := 0
  autoexecdata := 0
  autoexecprogbuf := 0
  hartsel := 0
  run := fun _ => .running
  resumeack := fun _ => false
  busy := 0
  clock := 0

theorem idle_atRest (T : Target) : Idle (atRest T) := ⟨⟨rfl, rfl, rfl, rfl, rfl⟩, Or.inl rfl⟩

section Exact

variable {hart chunkMaxSize : ℕ} {addr : BitVec 64} {bytes : List UInt8}

theorem runs_read_nil (h : Idle d) : Runs (read hart chunkMaxSize addr 0 []) d fun out d' =>
    out = [] ∧ After d d.mem d' := by
  unfold read readHead readTail readMiddle
  rw [if_neg (fun hc => hc.1 rfl)]
  refine runs_pure_bind ?_
  dsimp only
  rw [if_neg (not_not.mpr (Nat.zero_and _))]
  refine runs_pure_bind (Runs.loop (fun st d' => st.2 = [] ∧ After d d.mem d') (fun _ _ => 0) ?_
    ⟨rfl, h, rfl, rfl⟩)
  rintro st d' hst
  rw [if_neg (Nat.not_lt_zero _)]
  exact runs_pure hst

theorem runs_write_nil (h : Idle d) : Runs (write hart chunkMaxSize addr 0 []) d fun _ d' => After d d.mem d' := by
  unfold write writeHead writeTail writeMiddle
  rw [if_neg (fun hc => hc.1 rfl)]
  refine runs_pure_bind ?_
  dsimp only
  rw [if_neg (not_not.mpr (Nat.zero_and _))]
  refine runs_pure_bind ?_
  rw [if_neg (by simp [allZero])]
  refine Runs.loop (fun _ d' => After d d.mem d') (fun _ _ => 0) ?_ ⟨h, rfl, rfl⟩
  rintro pos d' hd'
  rw [if_neg (Nat.not_lt_zero _)]
  exact runs_pure hd'

/-- A transfer that reads needs the load program and a register's worth of data words. -/
theorem ReadExact.word (h : ReadExact T hart chunkMaxSize addr bytes.length) (hne : bytes ≠ []) :
    3 ≤ T.progbufsize ∧ T.xlen.words ≤ T.datacount := by
  by_contra hshort
  exact (h (atRest T) bytes (idle_atRest T) rfl).not_stuck
    (stuck_read (idle_atRest T) (fun hc => hne (List.length_eq_zero_iff.mp hc)) hshort)

/-- A chunk whose bits overflow their count leaves a byte of the buffer as it was. -/
theorem ReadExact.bits (h : ReadExact T hart chunkMaxSize addr bytes.length)
    (hwhole : Whole T.xlen chunkMaxSize (middleLen T.xlen addr bytes.length)) (hsize : chunkMaxSize < 2 ^ 64)
    (hbytes : bytes.length < 2 ^ 63) :
    min chunkMaxSize (middleLen T.xlen addr bytes.length) * 8 < 2 ^ 64 := by
  by_contra hbits
  have hle := @headLen_le T.xlen addr bytes.length
  have hmid := @middleLen_add T.xlen addr bytes.length
  have hne : bytes ≠ [] := by
    rintro rfl
    rw [List.length_nil] at hle hmid hbits
    omega
  obtain ⟨hprog, hdata⟩ := h.word hne
  obtain ⟨q, hq⟩ : ∃ q, q + 1 = headLen T.xlen addr bytes.length +
      min chunkMaxSize (middleLen T.xlen addr bytes.length) := ⟨_, Nat.sub_add_cancel (by omega)⟩
  obtain ⟨buf, hbuf, hones⟩ : ∃ buf : List UInt8, buf.length = bytes.length ∧ ∀ j < buf.length, buf[j]? = some 1 :=
    ⟨List.replicate bytes.length 1, by simp, fun j hj => by simp_all⟩
  rw [← hbuf] at h hwhole hbits hq hbytes hle hmid
  have hcut : Runs (read hart chunkMaxSize addr buf.length buf) (atRest T) fun out _ => out[q]? = buf[q]? :=
    runs_read_overflow hprog hdata (idle_atRest T) hwhole hsize hbytes (not_lt.mp hbits) hq
  obtain ⟨out, d', ⟨rfl, -⟩, hold⟩ := ((h (atRest T) buf (idle_atRest T) rfl).and hcut).exists
  rw [getElem?_bytesAt (by omega), hones q (by omega)] at hold
  exact absurd (Option.some.inj hold) (by simp [atRest])

/-- **Byte-exact transfers.**  Both directions are exact, from every state of the target, when the driver's arrays
are large enough, and only then. -/
theorem exact_iff (hc : T.xlen.bytes ∣ chunkMaxSize) (hpos : 0 < chunkMaxSize) (hsize : chunkMaxSize < 2 ^ 64)
    (hbytes : bytes.length < 2 ^ 63) (hspace : bytes.length ≤ 2 ^ T.xlen.bits) :
    ReadExact T hart chunkMaxSize addr bytes.length ∧ WriteExact T hart chunkMaxSize addr bytes ↔
      Sized T chunkMaxSize addr bytes := by
  constructor
  · rintro ⟨hread, hwrite⟩
    refine ⟨hread.word, fun hz => ?_, hread.bits (Or.inr ⟨hpos, hc⟩) hsize hbytes⟩
    have hne : bytes ≠ [] := by
      rintro rfl
      exact (middle_of_zero hz).1 (by simp [middleLen])
    obtain ⟨hprog, hdata⟩ := hread.word hne
    by_contra hshort
    exact (hwrite (atRest T) (idle_atRest T)).not_stuck (stuck_write hprog hdata (idle_atRest T) hz hshort)
  · intro hsized
    by_cases hne : bytes = []
    · subst hne
      refine ⟨fun d buf h hbuf => ?_, fun d h => ?_⟩
      · obtain rfl := List.length_eq_zero_iff.mp hbuf
        exact runs_read_nil h
      · exact runs_write_nil h
    obtain ⟨hprog, hdata⟩ := hsized.word hne
    refine ⟨fun d buf h hbuf => ?_, fun d h => ?_⟩
    · have hbits := hsized.bits
      rw [← hbuf] at hbits hbytes ⊢
      exact runs_read hprog hdata h (Or.inr ⟨hpos, hc⟩) hsize hbytes hbits
    · exact runs_write hprog hdata h hspace (Or.inr ⟨hpos, hc⟩) hsize hbytes hsized.bits hsized.zero

end Exact

/-- A 64-bit target with two data registers, and a 32-bit one with a single data register. -/
def wideTarget : Target := ⟨.rv64, 16, 2, fun _ => 3, by decide, by decide⟩

def narrowTarget : Target := ⟨.rv32, 16, 1, fun _ => 3, by decide, by decide⟩

/-- Thirteen bytes from an odd address, in chunks of the default size. -/
theorem wideTarget_exact : ReadExact wideTarget 0 4096 0x80000003 13 ∧
    WriteExact wideTarget 0 4096 0x80000003 (List.replicate 13 0) :=
  (@exact_iff wideTarget 0 4096 0x80000003 (List.replicate 13 0) (by decide) (by decide) (by decide)
    (by decide) (by decide)).mpr
    ⟨fun _ => by decide, fun _ => by decide, by decide⟩

/-- The zero loop's second address half has no place in an array of one word. -/
theorem narrowTarget_zero : ¬ WriteExact narrowTarget 0 4096 0x80000000 [0, 0, 0, 0] := by
  intro hwrite
  have hstuck : Stuck (write 0 4096 0x80000000 4 [0, 0, 0, 0]) (atRest narrowTarget) :=
    @stuck_write narrowTarget _ 0 4096 0x80000000 [0, 0, 0, 0] (by decide) (by decide) (idle_atRest _)
      (by decide) (by decide)
  exact (hwrite (atRest narrowTarget) (idle_atRest _)).not_stuck hstuck

end Soceteer.Fesvr
