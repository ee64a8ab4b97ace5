import Soceteer.Lib.Bytes
import Mathlib.Data.Set.Basic

/-!
# Soceteer.Lib.Redirect — writes that go to another place

A program that means to write to some addresses writes to others, given by a map `ρ`, and moves the bytes later.

* `Redirected ρ m₀ r m K`: after writes to the addresses `K`, `r` is the memory that was meant and `m` the one
  there is.
* `Redirected.splice`: one more write.
* `Redirected.eq_of_agree`: where the addresses with one place agree, their place holds what was meant.
-/

namespace Soceteer.Lib

variable {w : ℕ}

/-- The addresses of `n` bytes from `a` on. -/
def range (a : BitVec w) (n : ℕ) : Set (BitVec w) := {x | (x - a).toNat < n}

theorem mem_range {a x : BitVec w} {n : ℕ} : x ∈ range a n ↔ (x - a).toNat < n := Iff.rfl

theorem splice_of_mem {m : Mem w} {a x : BitVec w} {bs : List UInt8} (h : x ∈ range a bs.length) :
    bs[(x - a).toNat]? = some (splice m a bs x) := by
  rw [mem_range] at h
  rw [splice_apply, List.getElem?_eq_getElem h, List.getD_eq_getElem _ _ h]

theorem splice_of_notMem {m : Mem w} {a x : BitVec w} {bs : List UInt8} (h : x ∉ range a bs.length) :
    splice m a bs x = m x := by
  rw [mem_range, not_lt] at h
  exact List.getD_eq_default _ _ h

/-- A range of addresses that does not wrap. -/
theorem mem_range_ofNat {a n : ℕ} (h : a + n ≤ 2 ^ w) (x : BitVec w) :
    x ∈ range (BitVec.ofNat w a) n ↔ a ≤ x.toNat ∧ x.toNat < a + n := by
  have hx := x.isLt
  rcases Nat.eq_zero_or_pos n with rfl | hn
  · rw [mem_range]
    omega
  have ha : a < 2 ^ w := by omega
  rw [mem_range, BitVec.toNat_sub, BitVec.toNat_ofNat, Nat.mod_eq_of_lt ha]
  by_cases hle : a ≤ x.toNat
  · rw [show 2 ^ w - a + x.toNat = x.toNat - a + 2 ^ w by omega, Nat.add_mod_right, Nat.mod_eq_of_lt (by omega)]
    omega
  · rw [Nat.mod_eq_of_lt (by omega)]
    omega

/-- A write that does not wrap, at a numbered address. -/
theorem splice_ofNat {m : Mem w} {bs : List UInt8} {a : ℕ} (h : a + bs.length ≤ 2 ^ w) (x : BitVec w) :
    splice m (BitVec.ofNat w a) bs x = if a ≤ x.toNat ∧ x.toNat < a + bs.length then bs.getD (x.toNat - a) 0
      else m x := by
  have hx := x.isLt
  split_ifs with hin
  · have hmem := (mem_range_ofNat h x).mpr hin
    have hidx : (x - BitVec.ofNat w a).toNat = x.toNat - a := by
      rw [BitVec.toNat_sub, BitVec.toNat_ofNat, Nat.mod_eq_of_lt (show a < 2 ^ w by omega),
        show 2 ^ w - a + x.toNat = x.toNat - a + 2 ^ w by omega, Nat.add_mod_right, Nat.mod_eq_of_lt (by omega)]
    have hget := splice_of_mem (m := m) hmem
    rw [hidx] at hget
    rw [List.getD_eq_getElem?_getD, hget, Option.getD_some]
  · exact splice_of_notMem fun hmem => hin ((mem_range_ofNat h x).mp hmem)

theorem range_zero (a : BitVec w) : range a 0 = ∅ := by
  ext x
  rw [mem_range]
  simp

/-- Two ranges one after the other. -/
theorem range_append {a m n : ℕ} (h : a + m + n ≤ 2 ^ w) :
    range (BitVec.ofNat w a) m ∪ range (BitVec.ofNat w (a + m)) n = range (BitVec.ofNat w a) (m + n) := by
  ext x
  rw [Set.mem_union, mem_range_ofNat (by omega), mem_range_ofNat (by omega), mem_range_ofNat (by omega)]
  omega

/-- After writes to the addresses `K` that went where `ρ` says. -/
structure Redirected (ρ : BitVec w → BitVec w) (m₀ r m : Mem w) (K : Set (BitVec w)) : Prop where
  meant : ∀ a ∉ K, r a = m₀ a
  place : ∀ x, (∃ a ∈ K, ρ a = x ∧ m x = r a) ∨ (∀ a ∈ K, ρ a ≠ x) ∧ m x = m₀ x

namespace Redirected

variable {ρ : BitVec w → BitVec w} {m₀ r m : Mem w} {K : Set (BitVec w)}

theorem refl (ρ : BitVec w → BitVec w) (m₀ : Mem w) : Redirected ρ m₀ m₀ m₀ ∅ :=
  ⟨fun _ _ => rfl, fun _ => Or.inr ⟨nofun, rfl⟩⟩

/-- One more write: the bytes meant for `a` go to `p`. -/
theorem splice (h : Redirected ρ m₀ r m K) {a p : BitVec w} {bs : List UInt8}
    (hρ : ∀ x ∈ range a bs.length, ρ x - p = x - a) :
    Redirected ρ m₀ (Lib.splice r a bs) (Lib.splice m p bs) (K ∪ range a bs.length) := by
  refine ⟨fun x hx => ?_, fun x => ?_⟩
  · rw [Set.mem_union, not_or] at hx
    rw [splice_of_notMem hx.2]
    exact h.meant x hx.1
  by_cases hx : x ∈ range p bs.length
  · -- the address that was meant is as far from `a` as `x` is from `p`
    have hback : a + (x - p) - a = x - p := by ring
    have hin : a + (x - p) ∈ range a bs.length := by rwa [mem_range, hback]
    refine Or.inl ⟨a + (x - p), Or.inr hin, ?_, ?_⟩
    · have hplace := hρ _ hin
      rw [hback] at hplace
      exact sub_left_injective hplace
    · apply Option.some.inj
      rw [← splice_of_mem hx, ← splice_of_mem hin, hback]
  · have hout : ∀ b, ρ b = x → b ∉ range a bs.length := by
      intro b hb hin
      have hplace := hρ b hin
      rw [hb] at hplace
      exact hx (by rwa [mem_range, hplace])
    rw [splice_of_notMem hx]
    rcases h.place x with ⟨b, hb, hbx, hmx⟩ | ⟨hno, hmx⟩
    · exact Or.inl ⟨b, Or.inl hb, hbx, by rw [splice_of_notMem (hout b hbx), hmx]⟩
    · refine Or.inr ⟨fun b hb hbx => ?_, hmx⟩
      rcases hb with hb | hb
      · exact hno b hb hbx
      · exact hout b hbx hb

/-- The place of an address holds what was meant for it, if that is what was meant for every address with that
place. -/
theorem eq_of_agree (h : Redirected ρ m₀ r m K) {a : BitVec w} (ha : a ∈ K)
    (hagree : ∀ b ∈ K, ρ b = ρ a → r b = r a) :
    m (ρ a) = r a := by
  rcases h.place (ρ a) with ⟨b, hb, hbx, hmx⟩ | ⟨hno, -⟩
  · rw [hmx]
    exact hagree b hb hbx
  · exact absurd rfl (hno a ha)

/-- A place no write goes to. -/
theorem eq_of_forall_ne (h : Redirected ρ m₀ r m K) {x : BitVec w} (hx : ∀ a ∈ K, ρ a ≠ x) : m x = m₀ x := by
  rcases h.place x with ⟨b, hb, hbx, -⟩ | ⟨-, hmx⟩
  · exact absurd hbx (hx b hb)
  · exact hmx

end Redirected

end Soceteer.Lib
