import Mathlib.Data.Nat.Digits.Lemmas
import Mathlib.Data.BitVec
import Mathlib.Data.List.GetD
import Mathlib.Tactic.Ring

/-!
# Soceteer.Lib.Bytes — little-endian numbers and byte-addressed memories

* `leNat`, `leBytes`: the number a list of bytes spells and the bytes of a number, least significant first;
  `leBytes_leNat`, `leBytes_add` and `leBytes_mod` are the laws between them.
* `Mem w`: a byte for every `w`-bit address.  `bytesAt` reads a range, `splice` overwrites one; ranges wrap
  around the end of the address space.
* `splice_append`, `splice_append'`, `splice_window`: two adjacent writes, in either order, and the write of a
  window whose borders are read back; `bytesAt_splice` reads a part of what was written.
-/

namespace Soceteer.Lib

/-! ## Little-endian numbers -/

/-- The number with the given bytes, least significant first. -/
def leNat (l : List UInt8) : ℕ := Nat.ofDigits 256 (l.map UInt8.toNat)

/-- The `n` low bytes of `v`, least significant first. -/
def leBytes : ℕ → ℕ → List UInt8
  | 0, _ => []
  | n + 1, v => UInt8.ofNat v :: leBytes n (v / 256)

@[simp] theorem length_leBytes : ∀ n v : ℕ, (leBytes n v).length = n
  | 0, _ => rfl
  | n + 1, v => congrArg (· + 1) (length_leBytes n (v / 256))

theorem leNat_lt (l : List UInt8) : leNat l < 256 ^ l.length := by
  have hdigit : ∀ x ∈ l.map UInt8.toNat, x < 256 := by
    intro x hx
    obtain ⟨b, -, rfl⟩ := List.mem_map.mp hx
    exact b.toNat_lt
  have h := Nat.ofDigits_lt_base_pow_length (by omega) hdigit
  rwa [List.length_map] at h

theorem leNat_append (l₁ l₂ : List UInt8) : leNat (l₁ ++ l₂) = leNat l₁ + 256 ^ l₁.length * leNat l₂ := by
  rw [leNat, List.map_append, Nat.ofDigits_append, List.length_map]
  rfl

/-- The low bytes of a number. -/
theorem leNat_take {l : List UInt8} {n : ℕ} (h : n ≤ l.length) : leNat (l.take n) = leNat l % 256 ^ n := by
  have hlen : (l.take n).length = n := by simpa using h
  have hlt := leNat_lt (l.take n)
  have happ := leNat_append (l.take n) (l.drop n)
  rw [List.take_append_drop, hlen] at happ
  rw [hlen] at hlt
  rw [happ, Nat.add_mul_mod_self_left, Nat.mod_eq_of_lt hlt]

/-- The high bytes of a number. -/
theorem leNat_drop {l : List UInt8} {n : ℕ} (h : n ≤ l.length) : leNat (l.drop n) = leNat l / 256 ^ n := by
  have hlen : (l.take n).length = n := by simpa using h
  have hlt := leNat_lt (l.take n)
  have happ := leNat_append (l.take n) (l.drop n)
  rw [List.take_append_drop, hlen] at happ
  rw [hlen] at hlt
  rw [happ, Nat.add_mul_div_left _ _ (Nat.pow_pos (by omega)), Nat.div_eq_of_lt hlt, Nat.zero_add]

theorem leBytes_leNat : ∀ l : List UInt8, leBytes l.length (leNat l) = l
  | [] => rfl
  | b :: l => by
    have hb : b.toNat < 256 := b.toNat_lt
    have hcons : leNat (b :: l) = b.toNat + 256 * leNat l := by
      simp [leNat, Nat.ofDigits_cons]
    have hdiv : leNat (b :: l) / 256 = leNat l := by omega
    have hlow : UInt8.ofNat (leNat (b :: l)) = b := by
      apply UInt8.toNat_inj.mp
      rw [UInt8.toNat_ofNat', hcons]
      omega
    rw [List.length_cons, leBytes, hlow, hdiv, leBytes_leNat l]

theorem leNat_leBytes : ∀ n v : ℕ, leNat (leBytes n v) = v % 256 ^ n
  | 0, v => by simp [leBytes, leNat, Nat.mod_one]
  | n + 1, v => by
    have hcons : leNat (leBytes (n + 1) v) = (UInt8.ofNat v).toNat + 256 * leNat (leBytes n (v / 256)) := by
      simp [leBytes, leNat, Nat.ofDigits_cons]
    rw [hcons, leNat_leBytes n, UInt8.toNat_ofNat', show 256 ^ (n + 1) = 256 * 256 ^ n by ring, Nat.mod_mul]

theorem leBytes_add : ∀ m n v : ℕ, leBytes (m + n) v = leBytes m v ++ leBytes n (v / 256 ^ m)
  | 0, n, v => by simp [leBytes]
  | m + 1, n, v => by
    have hdiv : v / 256 / 256 ^ m = v / 256 ^ (m + 1) := by rw [Nat.div_div_eq_div_mul, pow_succ, mul_comm]
    rw [show m + 1 + n = m + n + 1 by omega, leBytes, leBytes, leBytes_add m n, hdiv, List.cons_append]

/-- Only the low bytes of the number matter. -/
theorem leBytes_mod : ∀ n v : ℕ, leBytes n (v % 256 ^ n) = leBytes n v
  | 0, _ => rfl
  | n + 1, v => by
    have hlow : UInt8.ofNat (v % 256 ^ (n + 1)) = UInt8.ofNat v := by
      apply UInt8.toNat_inj.mp
      rw [UInt8.toNat_ofNat', UInt8.toNat_ofNat']
      exact Nat.mod_mod_of_dvd v ⟨256 ^ n, by rw [pow_succ, mul_comm]⟩
    have hdiv : v % 256 ^ (n + 1) / 256 = v / 256 % 256 ^ n := by
      rw [pow_succ, mul_comm, Nat.mod_mul_right_div_self]
    rw [leBytes, leBytes, hlow, hdiv, leBytes_mod n]

/-- The zero bytes. -/
theorem leBytes_zero : ∀ n : ℕ, leBytes n 0 = List.replicate n 0
  | 0 => rfl
  | n + 1 => by
    rw [leBytes, Nat.zero_div, leBytes_zero n]
    rfl

/-! ## Memories -/

/-- A memory of bytes with `w`-bit addresses. -/
abbrev Mem (w : ℕ) := BitVec w → UInt8

variable {w : ℕ}

/-- The `n` bytes from address `a` on. -/
def bytesAt (m : Mem w) (a : BitVec w) (n : ℕ) : List UInt8 := (List.range n).map fun i => m (a + BitVec.ofNat w i)

/-- The memory with the bytes from address `a` on replaced by `bs`. -/
def splice (m : Mem w) (a : BitVec w) (bs : List UInt8) : Mem w := fun x => bs.getD (x - a).toNat (m x)

variable {m : Mem w} {a : BitVec w}

@[simp] theorem length_bytesAt (m : Mem w) (a : BitVec w) (n : ℕ) : (bytesAt m a n).length = n := by
  simp [bytesAt]

theorem bytesAt_add (m : Mem w) (a : BitVec w) (j k : ℕ) :
    bytesAt m a (j + k) = bytesAt m a j ++ bytesAt m (a + BitVec.ofNat w j) k := by
  unfold bytesAt
  rw [List.range_add, List.map_append, List.map_map]
  refine congrArg _ (List.map_congr_left fun i _ => ?_)
  rw [Function.comp_apply, BitVec.ofNat_add, BitVec.add_assoc]

theorem getElem?_bytesAt {n i : ℕ} (h : i < n) : (bytesAt m a n)[i]? = some (m (a + BitVec.ofNat w i)) := by
  simp [bytesAt, h]

@[simp] theorem splice_nil (m : Mem w) (a : BitVec w) : splice m a [] = m := rfl

/-- A write at an offset from `a`, seen from `a`. -/
theorem splice_offset {bs : List UInt8} {k : ℕ} (h : k + bs.length ≤ 2 ^ w) (x : BitVec w) :
    splice m (a + BitVec.ofNat w k) bs x =
      if k ≤ (x - a).toNat then bs.getD ((x - a).toNat - k) (m x) else m x := by
  have hx := (x - a).isLt
  have hoff : x - (a + BitVec.ofNat w k) = (x - a) - BitVec.ofNat w k := by
    ring
  unfold splice
  rw [hoff]
  generalize x - a = y at hx
  rcases List.eq_nil_or_concat bs with rfl | ⟨bs', b, rfl⟩
  · simp
  have hk : k < 2 ^ w := by
    rw [List.length_concat] at h
    omega
  have hy : (y - BitVec.ofNat w k).toNat = if k ≤ y.toNat then y.toNat - k else 2 ^ w - k + y.toNat := by
    rw [BitVec.toNat_sub, BitVec.toNat_ofNat, Nat.mod_eq_of_lt hk]
    split_ifs with hle
    · rw [show 2 ^ w - k + y.toNat = y.toNat - k + 2 ^ w by omega, Nat.add_mod_right, Nat.mod_eq_of_lt (by omega)]
    · exact Nat.mod_eq_of_lt (by omega)
  rw [hy]
  split_ifs with hle
  · rfl
  · exact List.getD_eq_default _ _ (by omega)

theorem splice_apply {bs : List UInt8} (x : BitVec w) : splice m a bs x = bs.getD (x - a).toNat (m x) := rfl

theorem splice_append {bs cs : List UInt8} (h : bs.length + cs.length ≤ 2 ^ w) :
    splice (splice m a bs) (a + BitVec.ofNat w bs.length) cs = splice m a (bs ++ cs) := by
  funext x
  rw [splice_offset h, splice_apply, splice_apply]
  generalize (x - a).toNat = i
  split_ifs with hle
  · rw [List.getD_append_right _ _ _ _ hle, List.getD_eq_default bs _ hle]
  · rw [List.getD_append _ _ _ _ (by omega)]

/-- The later range may be written first. -/
theorem splice_append' {bs cs : List UInt8} (h : bs.length + cs.length ≤ 2 ^ w) :
    splice (splice m (a + BitVec.ofNat w bs.length) cs) a bs = splice m a (bs ++ cs) := by
  funext x
  rw [splice_apply, splice_offset h, splice_apply]
  generalize (x - a).toNat = i
  split_ifs with hle
  · rw [List.getD_append_right _ _ _ _ hle, List.getD_eq_default bs _ hle]
  · rw [List.getD_append _ _ _ _ (by omega)]

/-- Reading what was written. -/
theorem bytesAt_splice {bs : List UInt8} {k n : ℕ} (h : k + n ≤ bs.length) (hb : bs.length ≤ 2 ^ w) :
    bytesAt (splice m a bs) (a + BitVec.ofNat w k) n = (bs.drop k).take n := by
  apply List.ext_getElem?
  intro i
  rcases Nat.lt_or_ge i n with hi | hi
  · have hoff : a + BitVec.ofNat w k + BitVec.ofNat w i - a = BitVec.ofNat w (k + i) := by
      rw [BitVec.ofNat_add]
      ring
    rw [getElem?_bytesAt hi, List.getElem?_take_of_lt hi, List.getElem?_drop, splice_apply, hoff,
      BitVec.toNat_ofNat,
      Nat.mod_eq_of_lt (by omega), List.getD_eq_getElem?_getD, List.getElem?_eq_getElem (by omega),
        Option.getD_some]
  · rw [List.getElem?_eq_none (by simpa using hi), List.getElem?_eq_none (by simp; omega)]

/-- Writing a range back changes nothing. -/
theorem splice_bytesAt {n : ℕ} : splice m a (bytesAt m a n) = m := by
  funext x
  rw [splice_apply]
  rcases Nat.lt_or_ge (x - a).toNat n with h | h
  · have hx : a + BitVec.ofNat w (x - a).toNat = x := by
      rw [BitVec.ofNat_toNat, BitVec.setWidth_eq, BitVec.add_comm, BitVec.sub_add_cancel]
    rw [List.getD_eq_getElem?_getD, getElem?_bytesAt h, Option.getD_some, hx]
  · exact List.getD_eq_default _ _ (by simpa using h)

/-- A write with its borders read back is the write of the window alone. -/
theorem splice_window {bs : List UInt8} {j k : ℕ} (h : j + bs.length + k ≤ 2 ^ w) :
    splice m a (bytesAt m a j ++ bs ++ bytesAt m (a + BitVec.ofNat w (j + bs.length)) k) =
      splice m (a + BitVec.ofNat w j) bs := by
  have h1 : (bytesAt m a j ++ bs).length = j + bs.length := by simp
  rw [← splice_append' (by simpa using h), h1, splice_bytesAt, ← splice_append (by simp; omega), splice_bytesAt,
    length_bytesAt]

end Soceteer.Lib
