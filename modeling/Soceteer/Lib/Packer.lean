import Mathlib.Algebra.Group.Nat.Defs
import Mathlib.Data.List.Basic

/-!
# Soceteer.Lib.Packer — a stream of bits cut into words

The bits go into the current word from the top; a full word is given out.

* `setBit`: a word with one of its bits written.
* `Packer`, `Packer.put`: the words so far and the current one, and one more bit.
* `packed_foldl`: where a bit of the stream is found in the words.
-/

namespace Soceteer.Lib

variable {w : ℕ}

/-- A word with one of its bits written. -/
def setBit (v : BitVec w) (i : ℕ) (b : Bool) : BitVec w :=
  if b then v ||| BitVec.twoPow w i else v &&& ~~~BitVec.twoPow w i

theorem getLsbD_setBit (v : BitVec w) (n : ℕ) (b : Bool) {j : ℕ} (hj : j < w) :
    (setBit v n b).getLsbD j = if j = n then b else v.getLsbD j := by
  by_cases h : j = n
  · subst h
    cases b <;> simp [setBit, hj]
  · cases b <;> simp [setBit, hj, h]

theorem getMsbD_setBit (v : BitVec w) (n : ℕ) (b : Bool) {j : ℕ} (hn : n < w) (hj : j < w) :
    (setBit v (w - 1 - n) b).getMsbD j = if j = n then b else v.getMsbD j := by
  have hiff : j = w - (w - 1 - n) - 1 ↔ j = n := by omega
  cases b <;> by_cases h : j = n <;> simp [setBit, BitVec.getMsbD_twoPow, hiff, h, hj, hn] <;> omega

/-- The words given out, the current one, and how many bits have come, those that were skipped at the start
included. -/
structure Packer (w : ℕ) where
  words : List (BitVec w)
  cur : BitVec w
  pos : ℕ

namespace Packer

def put (p : Packer w) (b : Bool) : Packer w :=
  let cur := setBit p.cur (w - 1 - p.pos % w) b
  ⟨if p.pos % w = w - 1 then p.words ++ [cur] else p.words, cur, p.pos + 1⟩

/-- With the current word given out too, unless nothing of it has come. -/
def flush (p : Packer w) : List (BitVec w) := if p.pos % w = 0 then p.words else p.words ++ [p.cur]

@[simp] theorem put_pos (p : Packer w) (b : Bool) : (p.put b).pos = p.pos + 1 := rfl

@[simp] theorem foldl_put_pos (p : Packer w) (bits : List Bool) :
    (bits.foldl put p).pos = p.pos + bits.length := by
  induction bits generalizing p with
  | nil => rfl
  | cons b bits ih =>
    rw [List.foldl_cons, ih, put_pos, List.length_cons]
    omega

/-- The packer has skipped `a` bits and taken `bits`. -/
structure Packed (a : ℕ) (bits : List Bool) (p : Packer w) : Prop where
  pos : p.pos = a + bits.length
  length : p.words.length = p.pos / w
  bit : ∀ j (hj : j < bits.length), ((p.words ++ [p.cur])[(a + j) / w]?.getD 0#w).getMsbD ((a + j) % w) = bits[j]

theorem Packed.put {a : ℕ} {bits : List Bool} {p : Packer w} (hw : 0 < w) (h : Packed a bits p) (b : Bool) :
    Packed a (bits ++ [b]) (p.put b) := by
  obtain ⟨hpos, hlen, hbit⟩ := h
  have hlast : p.pos % w < w := Nat.mod_lt _ hw
  have hdiv : (p.pos + 1) / w = if p.pos % w = w - 1 then p.pos / w + 1 else p.pos / w := by
    have hsplit := Nat.div_add_mod p.pos w
    split_ifs with hfull
    · have hnext : p.pos + 1 = w * (p.pos / w + 1) := by
        rw [Nat.mul_add, Nat.mul_one]
        omega
      rw [hnext, Nat.mul_div_cancel_left _ hw]
    · have hnext : p.pos + 1 = w * (p.pos / w) + (p.pos % w + 1) := by omega
      have hlt : p.pos % w + 1 < w := by omega
      rw [hnext, Nat.mul_add_div hw, Nat.div_eq_of_lt hlt, Nat.add_zero]
  have hget : ∀ k, k ≤ p.words.length → ((p.put b).words ++ [(p.put b).cur])[k]? =
      if k < p.words.length then p.words[k]? else some (p.put b).cur := by
    intro k hk
    rw [Packer.put]
    split_ifs with hfull hlt hlt
    · rw [List.append_assoc, List.getElem?_append_left hlt]
    · obtain rfl : k = p.words.length := by omega
      simp
    · rw [List.getElem?_append_left hlt]
    · obtain rfl : k = p.words.length := by omega
      simp
  refine ⟨?_, ?_, fun j hj => ?_⟩
  · rw [put_pos, hpos, List.length_append, List.length_singleton]
    omega
  · rw [put_pos, hdiv, Packer.put]
    split_ifs <;> simp [hlen]
  · rw [List.length_append, List.length_singleton] at hj
    have hle : a + j ≤ p.pos := by omega
    rw [hget _ (hlen ▸ Nat.div_le_div_right hle)]
    by_cases hjn : j < bits.length
    · rw [List.getElem_append_left hjn, ← hbit j hjn]
      split_ifs with hlt
      · rw [List.getElem?_append_left hlt]
      · -- a bit of the word that the new one goes into
        have hsame : (a + j) / w = p.words.length := by
          have := hlen ▸ Nat.div_le_div_right (c := w) hle
          omega
        have hne : (a + j) % w ≠ p.pos % w := by
          intro heq
          have h1 := Nat.div_add_mod (a + j) w
          have h2 := Nat.div_add_mod p.pos w
          rw [hsame, hlen, heq] at h1
          omega
        rw [hsame, List.getElem?_append_right (Nat.le_refl _), Nat.sub_self]
        simp only [Option.getD_some, List.getElem?_cons_zero, Packer.put]
        rw [getMsbD_setBit _ _ _ hlast (Nat.mod_lt _ hw), if_neg hne]
    · obtain rfl : j = bits.length := by omega
      rw [← hpos, hlen, if_neg (Nat.lt_irrefl _), List.getElem_append_right (Nat.le_refl _)]
      simp only [Option.getD_some, Packer.put]
      rw [getMsbD_setBit _ _ _ hlast hlast, if_pos rfl]
      simp

theorem packed_foldl {a : ℕ} (ha : a < w) (c : BitVec w) (bits : List Bool) :
    Packed a bits (bits.foldl put ⟨[], c, a⟩) := by
  suffices hall : ∀ (bits pre : List Bool) (p : Packer w), Packed a pre p →
    Packed a (pre ++ bits) (bits.foldl put p) from
    hall bits [] _ ⟨rfl, (Nat.div_eq_of_lt ha).symm, fun j hj => absurd hj (Nat.not_lt_zero j)⟩
  intro bits
  induction bits with
  | nil => exact fun pre p h => by simpa using h
  | cons b bits ih => exact fun pre p h => by simpa using ih (pre ++ [b]) (p.put b) (h.put (by omega) b)

/-- What is given out in the end: as many words as the bits reach into, and every bit in its place. -/
theorem flush_foldl {a : ℕ} (ha : a < w) (c : BitVec w) (bits : List Bool) :
    (flush (bits.foldl put ⟨[], c, a⟩)).length = (a + bits.length + (w - 1)) / w ∧
      ∀ j (hj : j < bits.length),
        ((flush (bits.foldl put ⟨[], c, a⟩))[(a + j) / w]?.getD 0#w).getMsbD ((a + j) % w)
        = bits[j] := by
  have hw : 0 < w := by omega
  have h := packed_foldl ha c bits
  set p := bits.foldl put ⟨[], c, a⟩
  have hsplit := Nat.div_add_mod p.pos w
  rw [← h.pos, flush]
  split_ifs with hfull
  · refine ⟨?_, fun j hj => ?_⟩
    · have hceil : p.pos + (w - 1) = w * (p.pos / w) + (w - 1) := by omega
      rw [h.length, hceil, Nat.mul_add_div hw, Nat.div_eq_of_lt (Nat.sub_lt hw Nat.one_pos), Nat.add_zero]
    · have hlt : (a + j) / w < p.words.length := by
        rw [h.length, Nat.div_lt_iff_lt_mul hw, Nat.mul_comm]
        have := h.pos
        omega
      rw [← h.bit j hj, List.getElem?_append_left hlt]
  · refine ⟨?_, h.bit⟩
    have hceil : p.pos + (w - 1) = w * (p.pos / w + 1) + (p.pos % w - 1) := by
      rw [Nat.mul_add, Nat.mul_one]
      omega
    have hlt : p.pos % w - 1 < w := by
      have := Nat.mod_lt p.pos hw
      omega
    rw [List.length_append, h.length, List.length_singleton, hceil, Nat.mul_add_div hw,
      Nat.div_eq_of_lt hlt, Nat.add_zero]

end Packer

end Soceteer.Lib
