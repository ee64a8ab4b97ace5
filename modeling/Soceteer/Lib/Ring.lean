import Mathlib.Algebra.Group.Nat.Defs
import Mathlib.Data.List.Basic
import Mathlib.Logic.Function.Basic

/-!
# Soceteer.Lib.Ring — a queue in a memory that two counters go round

One place stays free, so that a full ring is not taken for an empty one.

* `Ring`, `Ring.push`, `Ring.pop`: the memory, and the places where the next entry goes and where the first one is.
* `Ring.contents`: the entries, in order; `contents_push`, `contents_pop`.
* `Ring.len`, `Ring.len_free`: how many there are, and how many more fit.
-/

namespace Soceteer.Lib

structure Ring (α : Type) (n : ℕ) where
  mem : BitVec n → α
  inp : BitVec n
  out : BitVec n

namespace Ring

variable {α : Type} {n : ℕ}

def push (r : Ring α n) (a : α) : Ring α n := { r with mem := Function.update r.mem r.inp a, inp := r.inp + 1#n }

def pop (r : Ring α n) : Ring α n := { r with out := r.out + 1#n }

def len (r : Ring α n) : ℕ := (r.inp - r.out).toNat

def contents (r : Ring α n) : List α := (List.range r.len).map fun k => r.mem (r.out + BitVec.ofNat n k)

@[simp] theorem length_contents (r : Ring α n) : r.contents.length = r.len := by simp [contents]

theorem len_lt (r : Ring α n) : r.len < 2 ^ n := (r.inp - r.out).isLt

theorem inp_eq (r : Ring α n) : r.inp = r.out + BitVec.ofNat n r.len := by
  rw [len, BitVec.ofNat_toNat, BitVec.setWidth_eq, BitVec.add_comm, BitVec.sub_add_cancel]

theorem add_ofNat_inj {v : BitVec n} {j k : ℕ} (hj : j < 2 ^ n) (hk : k < 2 ^ n)
    (h : v + BitVec.ofNat n j = v + BitVec.ofNat n k) : j = k := by
  have hval := congrArg BitVec.toNat (BitVec.add_right_inj v |>.1 h)
  rwa [BitVec.toNat_ofNat, BitVec.toNat_ofNat, Nat.mod_eq_of_lt hj, Nat.mod_eq_of_lt hk] at hval

theorem ofNat_full : BitVec.ofNat n (2 ^ n) = 0#n :=
  BitVec.eq_of_toNat_eq (by rw [BitVec.toNat_ofNat, BitVec.toNat_ofNat, Nat.mod_self, Nat.zero_mod])

theorem len_eq_zero {r : Ring α n} : r.len = 0 ↔ r.inp = r.out := by
  constructor
  · intro h
    rw [r.inp_eq, h]
    simp
  · intro h
    simp [len, h]

theorem contents_eq_nil {r : Ring α n} : r.contents = [] ↔ r.inp = r.out := by
  rw [← len_eq_zero, ← length_contents, List.length_eq_zero_iff]

/-- The next place is the first one: the ring is full. -/
theorem len_full {r : Ring α n} : r.len + 1 = 2 ^ n ↔ r.inp + 1#n = r.out := by
  have hnext : r.inp + 1#n = r.out + BitVec.ofNat n (r.len + 1) := by
    rw [BitVec.ofNat_add, ← BitVec.add_assoc, ← r.inp_eq]
  rw [hnext]
  constructor
  · intro h
    rw [h, ofNat_full, BitVec.add_zero]
  · intro h
    have hzero : BitVec.ofNat n (r.len + 1) = 0#n := by
      have := congrArg (· - r.out) h
      simpa [BitVec.add_comm r.out, BitVec.add_sub_cancel] using this
    have hval := congrArg BitVec.toNat hzero
    have hlt := r.len_lt
    rw [BitVec.toNat_ofNat, BitVec.toNat_ofNat, Nat.zero_mod] at hval
    by_contra hne
    rw [Nat.mod_eq_of_lt (by omega)] at hval
    omega

/-- What is left of the ring. -/
theorem len_free (r : Ring α n) : (r.out - (r.inp + 1#n)).toNat = 2 ^ n - 1 - r.len := by
  have hlt := r.len_lt
  have hfree : r.out - (r.inp + 1#n) = BitVec.ofNat n (2 ^ n - 1 - r.len) := by
    rw [BitVec.sub_eq_iff_eq_add, r.inp_eq, BitVec.add_assoc, ← BitVec.ofNat_add, BitVec.add_comm,
      BitVec.add_assoc,
      ← BitVec.ofNat_add, show r.len + 1 + (2 ^ n - 1 - r.len) = 2 ^ n by omega, ofNat_full, BitVec.add_zero]
  rw [hfree, BitVec.toNat_ofNat, Nat.mod_eq_of_lt (by omega)]

theorem len_push {r : Ring α n} (h : r.inp + 1#n ≠ r.out) (a : α) : (r.push a).len = r.len + 1 := by
  have hlt := r.len_lt
  have hne : r.len + 1 ≠ 2 ^ n := fun hfull => h (len_full.1 hfull)
  have hnext : (r.push a).inp - (r.push a).out = BitVec.ofNat n (r.len + 1) := by
    rw [push, BitVec.sub_eq_iff_eq_add, BitVec.ofNat_add, r.inp_eq]
    ac_rfl
  rw [len, hnext, BitVec.toNat_ofNat, Nat.mod_eq_of_lt (by omega)]

theorem contents_push {r : Ring α n} (h : r.inp + 1#n ≠ r.out) (a : α) :
    (r.push a).contents = r.contents ++ [a] := by
  have hlt := r.len_lt
  rw [contents, len_push h, List.range_succ, List.map_append, List.map_singleton]
  congr 1
  · refine List.map_congr_left fun k hk => Function.update_of_ne ?_ _ _
    intro heq
    have hk := List.mem_range.1 hk
    have := add_ofNat_inj (by omega) hlt (heq.trans r.inp_eq)
    omega
  · simp only [push]
    rw [← r.inp_eq, Function.update_self]

theorem contents_pop {r : Ring α n} (h : r.inp ≠ r.out) : r.contents = r.mem r.out :: r.pop.contents := by
  have hpos : 0 < r.len := Nat.pos_of_ne_zero fun hz => h (len_eq_zero.1 hz)
  have hlt := r.len_lt
  have hlen : r.pop.len + 1 = r.len := by
    have hnext : r.pop.inp - r.pop.out = BitVec.ofNat n (r.len - 1) := by
      rw [pop, BitVec.sub_eq_iff_eq_add, BitVec.add_comm r.out, ← BitVec.add_assoc, ← BitVec.ofNat_add,
        Nat.sub_add_cancel hpos,
        BitVec.add_comm]
      exact r.inp_eq.trans (BitVec.add_comm ..)
    rw [len, hnext, BitVec.toNat_ofNat, Nat.mod_eq_of_lt (by omega)]
    omega
  rw [contents, ← hlen, List.range_succ_eq_map, List.map_cons, List.map_map, contents]
  congr 1
  · simp
  · refine List.map_congr_left fun k _ => ?_
    simp only [Function.comp_apply, pop, Nat.succ_eq_add_one]
    rw [BitVec.ofNat_add, BitVec.add_comm (BitVec.ofNat n k), BitVec.add_assoc]

end Ring

end Soceteer.Lib
