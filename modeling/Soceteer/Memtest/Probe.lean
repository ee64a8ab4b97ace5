import Mathlib.Data.Nat.ModEq
import Mathlib.Data.Nat.Find
import Mathlib.Tactic.NormNum
import Soceteer.Memtest.Sweep

/-!
# Soceteer.Memtest.Probe — the capacity check of the memory test

`test_capacity_probe` writes a marker to a reference cell, to power-of-two offsets from it and to the last line,
and then looks which markers survived. On a 64-bit target the offsets are doubled until they wrap to zero in the
worst case.

* `addrTestable`, `probeOffsets`, `firstLost`, `testCapacityProbe`, `Report`: the source.
* `runs_probeOffsets`: the offsets are the powers of two that fit into the window, then zeros.
* `Probed`: the memory after the probes; `small_kept`, `top_kept`, `ref_kept`, `ref_lost`: which markers survive in
  a memory that wraps with a period of `2 ^ j` bytes.
* `runs_testCapacityProbe`: the verdict and the capacity that is printed.
-/

namespace Soceteer.Memtest

open Lib

/-! ## The source -/

def seedProbe : BitVec 64 := seedA ^^^ 0xCAFE#64

def addrTestable (wins : List Window) (a : BitVec 64) : Bool :=
  wins.any fun w => a ≥ w.start ∧ a + wordBytes ≤ w.stop

/-- What is reported: the first offset whose marker was lost, or zero, and whether the reference cell kept its
marker. -/
structure Report where
  wrap : BitVec 64
  refOk : Bool

/-- `f` -/
def Report.failures (r : Report) : ℕ := if r.wrap = 0 ∧ r.refOk = true then 0 else 1

/-- The real capacity, where it is printed. -/
def Report.capacity (r : Report) : Option (BitVec 64) := if r.wrap ≠ 0 then some r.wrap else none

section Source

variable {C : Type} [DecidableEq C] (cell : BitVec 64 → C)

/-- The loop that collects the probe offsets. -/
def probeOffsets (wins : List Window) (ref stop : BitVec 64) : Prog (C → BitVec 64) (List (BitVec 64)) :=
  Prog.loop (fun st : BitVec 64 × List (BitVec 64) =>
    if ref + st.1 + wordBytes ≤ stop ∧ st.2.length < 63 then
      pure (.inl (st.1 <<< 1, if addrTestable wins (ref + st.1) then st.2 ++ [st.1] else st.2))
    else pure (.inr st.2)) (1#64 <<< 20, [])

/-- The loop that looks for the first lost marker. -/
def firstLost (m : C → BitVec 64) (ref : BitVec 64) : List (BitVec 64) → BitVec 64 → BitVec 64
  | [], wrap => wrap
  | o :: os, wrap =>
    if wrap = 0 then firstLost m ref os (if m (cell (ref + o)) ≠ pat (ref + o) seedProbe then o else wrap)
      else wrap

/-- The markers are written to the reference cell and then to the probes, in their order; there is at least one
window. -/
def testCapacityProbe (wins : List Window) : Prog (C → BitVec 64) Report := do
  let ref ← Prog.lift (wins.head?.map Window.start)
  let stop ← Prog.lift (wins.getLast?.map Window.stop)
  let pows ← probeOffsets wins ref stop
  let offs := pows ++ [(stop - lineBytes) - ref]
  Prog.modifyGet fun m => ((), stores cell (pat · seedProbe) m (ref :: offs.map (ref + ·)))
  Prog.modifyGet fun m =>
    (⟨firstLost cell m ref offs 0, decide (m (cell ref) = pat ref seedProbe)⟩, m)

end Source

/-! ## The offsets -/

/-- `2 ^ 20`, `2 ^ 21`, … -/
def powers (k : ℕ) : List (BitVec 64) := (List.range k).map fun i => BitVec.ofNat 64 (2 ^ (20 + i))

@[simp] theorem length_powers (k : ℕ) : (powers k).length = k := by simp [powers]

theorem powers_succ (k : ℕ) : powers (k + 1) = powers k ++ [BitVec.ofNat 64 (2 ^ (20 + k))] := by
  simp [powers, List.range_succ]

theorem toNat_power {i : ℕ} (hi : i < 44) : (BitVec.ofNat 64 (2 ^ (20 + i))).toNat = 2 ^ (20 + i) := by
  rw [BitVec.toNat_ofNat, Nat.mod_eq_of_lt (Nat.pow_lt_pow_right (by omega) (by omega))]

/-- From `2 ^ 64` on the offset is zero. -/
theorem power_eq_zero {i : ℕ} (hi : 44 ≤ i) : BitVec.ofNat 64 (2 ^ (20 + i)) = 0#64 := by
  apply BitVec.eq_of_toNat_eq
  rw [BitVec.toNat_ofNat, show 20 + i = 64 + (i - 44) by omega, Nat.pow_add, Nat.mul_mod_right]
  rfl

theorem power_shift (i : ℕ) : BitVec.ofNat 64 (2 ^ (20 + i)) <<< 1 = BitVec.ofNat 64 (2 ^ (20 + (i + 1))) := by
  apply BitVec.eq_of_toNat_eq
  rw [BitVec.toNat_shiftLeft, BitVec.toNat_ofNat, BitVec.toNat_ofNat, Nat.shiftLeft_eq,
    ← Nat.add_assoc, Nat.pow_succ]
  omega

/-- The turns until an offset is zero. -/
def rounds (p : BitVec 64) : ℕ := if p = 0 then 0 else 65 - p.toNat.log2

theorem rounds_power {i : ℕ} (hi : i < 44) : rounds (BitVec.ofNat 64 (2 ^ (20 + i))) = 45 - i := by
  have hne : BitVec.ofNat 64 (2 ^ (20 + i)) ≠ 0 := by
    intro h0
    have hnat := toNat_power hi
    rw [h0] at hnat
    exact absurd hnat.symm (Nat.two_pow_pos _).ne'
  rw [rounds, if_neg hne, toNat_power hi, Nat.log2_two_pow]
  omega

theorem rounds_shift {i : ℕ} (hi : i < 44) :
    rounds (BitVec.ofNat 64 (2 ^ (20 + i)) <<< 1) + 1 ≤ rounds (BitVec.ofNat 64 (2 ^ (20 + i))) := by
  rw [power_shift, rounds_power hi]
  by_cases hlast : i + 1 < 44
  · rw [rounds_power hlast]
    omega
  · rw [power_eq_zero (by omega)]
    have hzero : rounds 0#64 = 0 := rfl
    omega

/-- A window whose ends are multiples of 1 MiB. -/
structure Aligned (w : Window) : Prop where
  start : 2 ^ 20 ∣ w.start.toNat
  stop : 2 ^ 20 ∣ w.stop.toNat
  le : w.start.toNat ≤ w.stop.toNat

/-- How many of the powers fit. -/
def Fitting (w : Window) (k : ℕ) : Prop := ∀ i, w.start.toNat + 2 ^ (20 + i) + 8 ≤ w.stop.toNat ↔ i < k

theorem exists_fitting (w : Window) : ∃ k ≤ 44, Fitting w k := by
  have hfail : ∃ i, ¬ w.start.toNat + 2 ^ (20 + i) + 8 ≤ w.stop.toNat := ⟨44, by have := w.stop.isLt; omega⟩
  classical
  refine ⟨Nat.find hfail, ?_, fun i => ⟨fun hfit => ?_, fun hlt => not_not.mp (Nat.find_min hfail hlt)⟩⟩
  · refine Nat.find_le ?_
    have := w.stop.isLt
    omega
  · by_contra hge
    have hpow : 2 ^ (20 + Nat.find hfail) ≤ 2 ^ (20 + i) := Nat.pow_le_pow_right (by omega) (by omega)
    exact Nat.find_spec hfail (by omega)

section Offsets

variable {w : Window} (ha : Aligned w) {k : ℕ} (hk : Fitting w k) (hk44 : k ≤ 44)
include ha hk

/-- A nonzero power is taken exactly when it fits; a sum that wraps falls below the window. -/
theorem testable_power {i : ℕ} (hi : i < 44) :
    addrTestable [w] (w.start + BitVec.ofNat 64 (2 ^ (20 + i))) = true ↔ i < k := by
  rw [← hk i]
  have hp := toNat_power hi
  have hdvd : 2 ^ 20 ∣ 2 ^ (20 + i) := Nat.pow_dvd_pow 2 (by omega)
  have hlt : 2 ^ (20 + i) < 2 ^ 64 := Nat.pow_lt_pow_right (by omega) (by omega)
  obtain ⟨c, hc⟩ := hdvd
  obtain ⟨a, ha'⟩ := ha.start
  obtain ⟨b, hb⟩ := ha.stop
  have hstart := w.start.isLt
  have hstop := w.stop.isLt
  have hle := ha.le
  have hword : wordBytes.toNat = 8 := rfl
  simp only [addrTestable, List.any_cons, List.any_nil, Bool.or_false, decide_eq_true_eq, ge_iff_le, BitVec.le_def,
    BitVec.toNat_add, hp, hword]
  have hpos : 0 < 2 ^ (20 + i) := Nat.two_pow_pos _
  omega

include hk44

/-- The offsets are the powers that fit; should the doubling wrap to zero, the reference cell is probed again and
again. -/
theorem runs_probeOffsets {C : Type} (m : C → BitVec 64) :
    Runs (probeOffsets [w] w.start w.stop) m fun offs m' => m' = m ∧ ∃ z,
      offs = powers k ++ List.replicate z 0#64 := by
  refine Runs.loop
    (fun st m' => m' = m ∧ ∃ i z, st.1 = BitVec.ofNat 64 (2 ^ (20 + i)) ∧
      st.2 = powers (min i k) ++ List.replicate z 0#64 ∧ (i ≤ 44 → z = 0))
    (fun st _ => 63 - st.2.length + rounds st.1) ?_
    ⟨rfl, 0, 0, by decide, by simp [powers], fun _ => rfl⟩
  rintro ⟨p, offs⟩ m' ⟨rfl, i, z, hp, hoffs, hz⟩
  dsimp only at hp hoffs
  by_cases hround : w.start + p + wordBytes ≤ w.stop ∧ offs.length < 63
  · rw [if_pos hround]
    refine runs_pure ?_
    by_cases hi : i < 44
    · -- a power, taken or not
      have hnext : p <<< 1 = BitVec.ofNat 64 (2 ^ (20 + (i + 1))) := by rw [hp, power_shift]
      have hz0 : z = 0 := hz hi.le
      subst hz0
      have hmeasure := rounds_shift hi
      rw [← hp] at hmeasure
      have htest := testable_power ha hk hi
      rw [← hp] at htest
      by_cases htaken : addrTestable [w] (w.start + p) = true
      · have hik := htest.mp htaken
        rw [if_pos htaken]
        refine ⟨⟨rfl, i + 1, 0, hnext, ?_, fun _ => rfl⟩, ?_⟩
        · simp only [hoffs, List.replicate_zero, List.append_nil]
          rw [Nat.min_eq_left hik.le, Nat.min_eq_left hik, powers_succ, hp]
        · simp only [List.length_append, List.length_singleton]
          omega
      · have hik : ¬ i < k := fun h => htaken (htest.mpr h)
        rw [if_neg htaken]
        refine ⟨⟨rfl, i + 1, 0, hnext, ?_, fun _ => rfl⟩, ?_⟩
        · rw [hoffs, Nat.min_eq_right (by omega), Nat.min_eq_right (by omega)]
        · dsimp only
          omega
    · -- the offset is zero, and stays so
      have hp0 : p = 0#64 := hp.trans (power_eq_zero (by omega))
      subst hp0
      have htaken : addrTestable [w] (w.start + 0#64) = true := by
        rw [BitVec.add_zero] at hround ⊢
        simp [addrTestable, hround.1]
      rw [if_pos htaken]
      have hzero : 0#64 <<< 1 = 0#64 := by decide
      refine ⟨⟨rfl, i + 1, z + 1, ?_, ?_, fun h => absurd h (by omega)⟩, ?_⟩
      · rw [hzero]
        exact (power_eq_zero (by omega)).symm
      · dsimp only
        rw [hoffs, Nat.min_eq_right (by omega), Nat.min_eq_right (by omega), List.append_assoc,
          List.replicate_succ']
      · dsimp only at hround ⊢
        rw [hzero, List.length_append, List.length_singleton]
        omega
  · rw [if_neg hround]
    refine runs_pure ⟨rfl, z, ?_⟩
    -- as long as the powers fit, the loop goes on
    have hik : k ≤ i := by
      by_contra hlt
      have hfit := (hk i).mpr (Nat.not_le.mp hlt)
      have hp' := toNat_power (i := i) (by omega)
      have hz0 : z = 0 := hz (by omega)
      refine hround ⟨?_, ?_⟩
      · have hword : wordBytes.toNat = 8 := rfl
        have hstop := w.stop.isLt
        rw [BitVec.le_def, BitVec.toNat_add, BitVec.toNat_add, hp, hp', hword]
        omega
      · rw [hoffs, hz0]
        simp only [List.replicate_zero, List.append_nil, length_powers]
        omega
    rw [hoffs, Nat.min_eq_right hik]

end Offsets

/-! ## A memory that wraps -/

/-- The cell of an address in a memory of `W` bytes that repeats itself. -/
def wrapCell (W : ℕ) (a : BitVec 64) : ℕ := a.toNat % W

section Cells

variable {w : Window} (ha : Aligned w) {k : ℕ} (hk : Fitting w k) (hk44 : k ≤ 44) {j : ℕ} (hj : 20 ≤ j)

/-- Probe `i` of the powers. -/
def probe (w : Window) (i : ℕ) : BitVec 64 := w.start + BitVec.ofNat 64 (2 ^ (20 + i))

/-- The probe of the last line. -/
def top (w : Window) : BitVec 64 := w.start + ((w.stop - lineBytes) - w.start)

/-- The part of an address below a divisor of the period is kept. -/
theorem wrapCell_mod {d W : ℕ} (h : d ∣ W) (a : BitVec 64) : wrapCell W a % d = a.toNat % d :=
  Nat.mod_mod_of_dvd _ h

include hk hk44 in
theorem toNat_probe {i : ℕ} (hi : i < k) : (probe w i).toNat = w.start.toNat + 2 ^ (20 + i) := by
  have hfit := (hk i).mpr hi
  have hstop := w.stop.isLt
  rw [probe, BitVec.toNat_add, toNat_power (by omega), Nat.mod_eq_of_lt (by omega)]

theorem top_eq : top w = w.stop - lineBytes := by
  rw [top, BitVec.add_comm, BitVec.sub_add_cancel]

include ha hj in
/-- The last line is in no cell of a multiple of 1 MiB. -/
theorem top_ne {a : BitVec 64} (h : 2 ^ 20 ∣ a.toNat) : wrapCell (2 ^ j) (top w) ≠ wrapCell (2 ^ j) a := by
  intro heq
  have hd : 2 ^ 20 ∣ 2 ^ j := Nat.pow_dvd_pow 2 hj
  have hmod := congrArg (· % 2 ^ 20) heq
  simp only [wrapCell_mod hd, top_eq, BitVec.toNat_sub] at hmod
  have hline : lineBytes.toNat = 64 := rfl
  have hstop := ha.stop
  rw [hline] at hmod
  omega

include ha hk hk44 in
theorem probe_dvd {i : ℕ} (hi : i < k) : 2 ^ 20 ∣ (probe w i).toNat := by
  rw [toNat_probe hk hk44 hi]
  exact (Nat.dvd_add_right ha.start).mpr (Nat.pow_dvd_pow 2 (by omega))

include hk hk44 in
/-- Probes from the period on fall on the reference cell. -/
theorem probe_cell_eq {i : ℕ} (hi : i < k) (hji : j ≤ 20 + i) :
    wrapCell (2 ^ j) (probe w i) = wrapCell (2 ^ j) w.start := by
  obtain ⟨c, hc⟩ : 2 ^ j ∣ 2 ^ (20 + i) := Nat.pow_dvd_pow 2 hji
  rw [wrapCell, wrapCell, toNat_probe hk hk44 hi, hc, Nat.add_mul_mod_self_left]

/-- A power below the period moves an address to another cell than a multiple of twice that power does. -/
theorem cell_ne {s i q : ℕ} (hij : 20 + i < j) (hq : 2 ^ (20 + i + 1) ∣ q) :
    (s + 2 ^ (20 + i)) % 2 ^ j ≠ (s + q) % 2 ^ j := by
  intro heq
  have hd : 2 ^ (20 + i + 1) ∣ 2 ^ j := Nat.pow_dvd_pow 2 hij
  have hmod : s + 2 ^ (20 + i) ≡ s + q [MOD 2 ^ (20 + i + 1)] := Nat.ModEq.of_dvd hd heq
  have hcancel : 2 ^ (20 + i) ≡ q [MOD 2 ^ (20 + i + 1)] := Nat.ModEq.add_left_cancel' s hmod
  have hdvd : 2 ^ (20 + i + 1) ∣ 2 ^ (20 + i) := (hcancel.dvd_iff dvd_rfl).mpr hq
  exact absurd (Nat.le_of_dvd (Nat.two_pow_pos _) hdvd)
    (Nat.not_le.mpr (Nat.pow_lt_pow_right (by omega) (by omega)))

include hk hk44 in
/-- A probe below the period has a cell of its own. -/
theorem probe_ne_ref {i : ℕ} (hi : i < k) (hij : 20 + i < j) :
    wrapCell (2 ^ j) (probe w i) ≠ wrapCell (2 ^ j) w.start := by
  rw [wrapCell, wrapCell, toNat_probe hk hk44 hi]
  exact cell_ne (q := 0) hij (Nat.dvd_zero _)

include hk hk44 in
theorem probe_ne_later {i i' : ℕ} (hi' : i' < k) (hlt : i < i') (hij : 20 + i < j) :
    wrapCell (2 ^ j) (probe w i) ≠ wrapCell (2 ^ j) (probe w i') := by
  rw [wrapCell, wrapCell, toNat_probe hk hk44 (hlt.trans hi'), toNat_probe hk hk44 hi']
  exact cell_ne hij (Nat.pow_dvd_pow 2 (by omega))

end Cells

/-! ## Which markers survive -/

/-- The addresses written, in their order. -/
def addrs (w : Window) (k z : ℕ) : List (BitVec 64) :=
  w.start :: ((List.range k).map (probe w) ++ List.replicate z w.start ++ [top w])

theorem addrs_eq (w : Window) (k z : ℕ) :
    w.start :: (powers k ++ List.replicate z 0#64 ++ [(w.stop - lineBytes) - w.start]).map (w.start + ·) =
      addrs w k z := by
  simp only [addrs, powers, List.map_append, List.map_map, List.map_replicate, BitVec.add_zero, List.map_singleton]
  rfl

/-- The memory after the probes. -/
def probed (w : Window) (k z j : ℕ) (m : ℕ → BitVec 64) : ℕ → BitVec 64 :=
  stores (wrapCell (2 ^ j)) (pat · seedProbe) m (addrs w k z)

/-- The marker of an address is still there. -/
def Kept (m : ℕ → BitVec 64) (j : ℕ) (a : BitVec 64) : Prop := m (wrapCell (2 ^ j) a) = pat a seedProbe

section Kept

variable {w : Window} (ha : Aligned w) {k : ℕ} (hk : Fitting w k) (hk44 : k ≤ 44) {j : ℕ} (hj : 20 ≤ j) (z : ℕ)
  (m : ℕ → BitVec 64)

theorem top_kept : Kept (probed w k z j m) j (top w) := by
  rw [Kept, probed, addrs, ← List.cons_append]
  exact stores_of_last _ List.not_mem_nil

include ha hk hk44 hj

theorem small_kept {i : ℕ} (hi : i < k) (hij : 20 + i < j) : Kept (probed w k z j m) j (probe w i) := by
  obtain ⟨n, rfl⟩ : ∃ n, k = i + (n + 1) := ⟨k - i - 1, by omega⟩
  have hsplit : addrs w (i + (n + 1)) z =
      (w.start :: (List.range i).map (probe w)) ++
        probe w i :: (((List.range n).map fun x => probe w (i + (x + 1))) ++
          List.replicate z w.start ++ [top w]) := by
    simp [addrs, List.range_add, List.range_succ_eq_map, Function.comp_def]
  rw [Kept, probed, hsplit]
  refine stores_of_last _ ?_
  simp only [List.map_append, List.map_map, List.map_replicate, List.map_singleton, List.mem_append, List.mem_map,
    List.mem_singleton, not_or, not_exists, not_and]
  refine ⟨⟨?_, ?_⟩, ?_⟩
  · intro x hx heq
    rw [List.mem_range] at hx
    have hlater : i + (x + 1) < i + (n + 1) := by omega
    exact probe_ne_later hk hk44 hlater (by omega) hij heq.symm
  · intro hmem
    exact probe_ne_ref hk hk44 hi hij (List.eq_of_mem_replicate hmem)
  · exact fun heq => top_ne ha hj (probe_dvd ha hk hk44 hi) heq.symm

omit hk hk44 in
/-- Probing the reference cell again writes its own marker. -/
theorem ref_kept_again : Kept (probed w k (z + 1) j m) j w.start := by
  have hsplit : addrs w k (z + 1) =
      (w.start :: ((List.range k).map (probe w) ++ List.replicate z w.start)) ++ w.start :: [top w] := by
    simp [addrs, List.replicate_succ']
  rw [Kept, probed, hsplit]
  refine stores_of_last _ ?_
  rw [List.map_singleton, List.mem_singleton]
  exact fun heq => top_ne ha hj ha.start heq.symm

/-- When every probe is below the period, nothing falls on the reference cell. -/
theorem ref_kept_small (hsmall : ∀ i < k, 20 + i < j) : Kept (probed w k 0 j m) j w.start := by
  rw [Kept, probed]
  refine stores_of_last [] ?_
  simp only [List.replicate_zero, List.append_nil, List.map_append, List.map_map,
    List.map_singleton, List.mem_append,
    List.mem_map, List.mem_singleton, not_or, not_exists, not_and]
  refine ⟨?_, fun heq => top_ne ha hj ha.start heq.symm⟩
  intro i hi heq
  rw [List.mem_range] at hi
  exact probe_ne_ref hk hk44 hi (hsmall i hi) heq

/-- Otherwise the last power of all stays there. -/
theorem ref_overwritten {k' : ℕ} (hkk : k = k' + 1) (hji : j ≤ 20 + k') :
    probed w k 0 j m (wrapCell (2 ^ j) w.start) = pat (probe w k') seedProbe := by
  have hcell := probe_cell_eq hk hk44 (j := j) (i := k') (by omega) hji
  have hsplit : addrs w k 0 = (w.start :: (List.range k').map (probe w)) ++ probe w k' :: [top w] := by
    simp [addrs, hkk, List.range_succ]
  rw [probed, hsplit, ← hcell]
  refine stores_of_last _ ?_
  rw [List.map_singleton, List.mem_singleton]
  exact fun heq => top_ne ha hj (probe_dvd ha hk hk44 (by omega)) heq.symm

end Kept

/-! ## The verdict -/

section Verdict

variable {C : Type} {cell : BitVec 64 → C} {m : C → BitVec 64} {ref : BitVec 64}

theorem firstLost_of_kept {os : List (BitVec 64)} (h : ∀ o ∈ os, m (cell (ref + o)) = pat (ref + o) seedProbe) :
    firstLost cell m ref os 0 = 0 := by
  induction os with
  | nil => rfl
  | cons o os ih =>
    rw [firstLost, if_pos rfl, if_neg (not_not_intro (h o List.mem_cons_self))]
    exact ih fun o' ho' => h o' (List.mem_cons_of_mem _ ho')

/-- The first lost marker is the one reported. -/
theorem firstLost_eq {ys zs : List (BitVec 64)} {o : BitVec 64} (ho : o ≠ 0)
    (hys : ∀ y ∈ ys, m (cell (ref + y)) = pat (ref + y) seedProbe)
    (hlost : m (cell (ref + o)) ≠ pat (ref + o) seedProbe) :
    firstLost cell m ref (ys ++ o :: zs) 0 = o := by
  induction ys with
  | nil =>
    rw [List.nil_append, firstLost, if_pos rfl, if_pos hlost]
    cases zs with
    | nil => rfl
    | cons z zs => rw [firstLost, if_neg ho]
  | cons y ys ih =>
    rw [List.cons_append, firstLost, if_pos rfl, if_neg (not_not_intro (hys y List.mem_cons_self))]
    exact ih fun y' hy' => hys y' (List.mem_cons_of_mem _ hy')

end Verdict

section Report

variable {w : Window} (ha : Aligned w) {k : ℕ} (hk : Fitting w k) (hk44 : k ≤ 44) {j : ℕ} (hj : 20 ≤ j) (z : ℕ)
  (m : ℕ → BitVec 64)

def offsets (w : Window) (k z : ℕ) : List (BitVec 64) :=
  powers k ++ List.replicate z 0#64 ++ [(w.stop - lineBytes) - w.start]

/-- What is reported when the offsets are those of `k` powers and `z` zeros. -/
def report (w : Window) (k z j : ℕ) (m : ℕ → BitVec 64) : Report :=
  ⟨firstLost (wrapCell (2 ^ j)) (probed w k z j m) w.start (offsets w k z) 0,
    decide (probed w k z j m (wrapCell (2 ^ j) w.start) = pat w.start seedProbe)⟩

/-- Every probe is a power, the reference cell again, or the last line. -/
theorem forall_offsets {P : BitVec 64 → Prop} (hprobe : ∀ i < k, P (probe w i)) (href : z ≠ 0 → P w.start)
    (htop : P (top w)) : ∀ o ∈ offsets w k z, P (w.start + o) := by
  intro o ho
  simp only [offsets, List.mem_append, List.mem_replicate, List.mem_singleton, powers, List.mem_map,
    List.mem_range] at ho
  rcases ho with (⟨i, hi, rfl⟩ | ⟨hz, rfl⟩) | rfl
  · exact hprobe i hi
  · rw [BitVec.add_zero]
    exact href hz
  · exact htop

include ha hk hk44 hj

/-- Nothing is lost in a memory that holds the window. -/
theorem report_of_large (hlarge : k + 20 ≤ j) :
    (report w k z j m).failures = 0 ∧ (report w k z j m).capacity = none := by
  have hsmall : ∀ i < k, 20 + i < j := fun i hi => by omega
  have href : Kept (probed w k z j m) j w.start := by
    cases z with
    | zero => exact ref_kept_small ha hk hk44 hj m hsmall
    | succ z => exact ref_kept_again ha hj z m
  have hwrap : (report w k z j m).wrap = 0 := by
    refine firstLost_of_kept (forall_offsets z (fun i hi => ?_) (fun _ => href) (top_kept z m))
    exact small_kept ha hk hk44 hj z m hi (hsmall i hi)
  refine ⟨?_, by rw [Report.capacity, hwrap, if_neg (not_not_intro rfl)]⟩
  rw [Report.failures, if_pos ⟨hwrap, decide_eq_true href⟩]

/-- The probe at the period is the first one to lose its marker, if it does. -/
theorem wrap_of_lost (hjk : j < 20 + k)
    (hlost : probed w k z j m (wrapCell (2 ^ j) w.start) ≠ pat (probe w (j - 20)) seedProbe) :
    (report w k z j m).wrap = BitVec.ofNat 64 (2 ^ j) := by
  obtain ⟨i, rfl⟩ : ∃ i, j = 20 + i := ⟨j - 20, by omega⟩
  rw [Nat.add_sub_cancel_left] at hlost
  obtain ⟨n, rfl⟩ : ∃ n, k = i + (n + 1) := ⟨k - i - 1, by omega⟩
  have hsplit : offsets w (i + (n + 1)) z = powers i ++ BitVec.ofNat 64 (2 ^ (20 + i)) ::
      (((List.range n).map fun x => BitVec.ofNat 64 (2 ^ (20 + (i + (x + 1))))) ++ List.replicate z 0#64 ++
        [(w.stop - lineBytes) - w.start]) := by
    simp [offsets, powers, List.range_add, List.range_succ_eq_map, Function.comp_def]
  rw [report, hsplit]
  refine firstLost_eq ?_ ?_ ?_
  · intro h0
    have hnat := toNat_power (i := i) (by omega)
    rw [h0] at hnat
    exact absurd hnat.symm (Nat.two_pow_pos _).ne'
  · intro y hy
    obtain ⟨i', hi', rfl⟩ := List.mem_map.mp hy
    rw [List.mem_range] at hi'
    exact small_kept ha hk hk44 hj z m (i := i') (by omega) (by omega)
  · show probed w _ z _ m (wrapCell _ (probe w i)) ≠ pat (probe w i) seedProbe
    rwa [probe_cell_eq hk hk44 (by omega) le_rfl]

omit ha hj in
/-- Markers of different powers differ. -/
theorem pat_probe_ne {i i' : ℕ} (hi : i < k) (hi' : i' < k) (hne : i ≠ i') :
    pat (probe w i) seedProbe ≠ pat (probe w i') seedProbe := by
  intro heq
  have hnat := congrArg BitVec.toNat (pat_injective seedProbe heq)
  rw [toNat_probe hk hk44 hi, toNat_probe hk hk44 hi'] at hnat
  exact hne (Nat.add_left_cancel (Nat.pow_right_injective le_rfl (Nat.add_left_cancel hnat)))

omit ha hj in
theorem pat_probe_ne_ref {i : ℕ} (hi : i < k) : pat (probe w i) seedProbe ≠ pat w.start seedProbe := by
  intro heq
  have hnat := congrArg BitVec.toNat (pat_injective seedProbe heq)
  rw [toNat_probe hk hk44 hi] at hnat
  have := Nat.two_pow_pos (20 + i)
  omega

/-- A memory smaller than the window by at least a word fails, and only its period is ever printed. -/
theorem report_of_small (hsmall : j < 20 + k) :
    (report w k z j m).failures = 1 ∧
      ((report w k z j m).capacity = none ∨ (report w k z j m).capacity = some (BitVec.ofNat 64 (2 ^ j))) := by
  have hpos : BitVec.ofNat 64 (2 ^ j) ≠ 0 := by
    intro h0
    have hnat := toNat_power (i := j - 20) (by omega)
    rw [show 20 + (j - 20) = j by omega, h0] at hnat
    exact absurd hnat.symm (Nat.two_pow_pos _).ne'
  have hfound : (report w k z j m).wrap = BitVec.ofNat 64 (2 ^ j) → (report w k z j m).failures = 1 ∧
      ((report w k z j m).capacity = none ∨ (report w k z j m).capacity = some (BitVec.ofNat 64 (2 ^ j))) := by
    intro hwrap
    refine ⟨?_, .inr ?_⟩
    · rw [Report.failures, hwrap, if_neg fun h => hpos h.1]
    · rw [Report.capacity, hwrap, if_pos hpos]
  cases z with
  | succ z =>
    -- the reference marker was written last
    refine hfound (wrap_of_lost ha hk hk44 hj (z + 1) m hsmall ?_)
    have href : probed w k (z + 1) j m (wrapCell (2 ^ j) w.start) = pat w.start seedProbe :=
      ref_kept_again ha hj z m
    rw [href]
    exact (pat_probe_ne_ref hk hk44 (by omega)).symm
  | zero =>
    obtain ⟨k', hkk⟩ : ∃ k', k = k' + 1 := ⟨k - 1, by omega⟩
    have hlast := ref_overwritten ha hk hk44 hj m hkk (by omega)
    by_cases honly : k' = j - 20
    · -- only the probe at the period fell on the reference cell, and it kept its marker
      have hwrap : (report w k 0 j m).wrap = 0 := by
        refine firstLost_of_kept (forall_offsets 0 (fun i hi => ?_) (fun h => absurd rfl h) (top_kept 0 m))
        by_cases hi' : 20 + i < j
        · exact small_kept ha hk hk44 hj 0 m hi hi'
        · have hik : i = k' := by omega
          subst hik
          rw [Kept, probe_cell_eq hk hk44 hi (by omega)]
          exact hlast
      have href : ¬ probed w k 0 j m (wrapCell (2 ^ j) w.start) = pat w.start seedProbe := by
        rw [hlast]
        exact pat_probe_ne_ref hk hk44 (by omega)
      refine ⟨?_, .inl (by rw [Report.capacity, hwrap, if_neg (not_not_intro rfl)])⟩
      rw [Report.failures, if_neg]
      rintro ⟨-, hok⟩
      exact href (of_decide_eq_true hok)
    · refine hfound (wrap_of_lost ha hk hk44 hj 0 m hsmall ?_)
      rw [hlast]
      exact pat_probe_ne hk hk44 (by omega) (by omega) honly

end Report

/-- **The wrap period is found**: in a memory of `W` bytes that repeats itself, a window that reaches a word beyond
the period fails the check, the capacity printed can only be `W`, and a window that is shorter than `W` passes. -/
theorem capacity_probe_finds_period {w : Window} (ha : Aligned w) {W : ℕ} (hpow : ∃ j, W = 2 ^ j) (hW : 2 ^ 20 ≤ W)
    (m : ℕ → BitVec 64) :
    Runs (testCapacityProbe (wrapCell W) [w]) m fun r _ =>
      (w.start.toNat + W + 8 ≤ w.stop.toNat → r.failures ≠ 0) ∧ (∀ c, r.capacity = some c → c.toNat = W) ∧
        (w.stop.toNat - w.start.toNat < W → r.failures = 0) := by
  obtain ⟨j, rfl⟩ := hpow
  have hj : 20 ≤ j := (Nat.pow_le_pow_iff_right (by omega)).mp hW
  obtain ⟨k, hk44, hk⟩ := exists_fitting w
  refine runs_lift_bind rfl (runs_lift_bind rfl ?_)
  refine (runs_probeOffsets ha hk hk44 m).bind ?_
  rintro _ m ⟨rfl, z, rfl⟩
  refine runs_of_eq (report w k z j m) (probed w k z j m) (fun n => ?_) ?_
  · rw [report, probed, ← addrs_eq]
    rfl
  have hfits : w.start.toNat + 2 ^ j + 8 ≤ w.stop.toNat ↔ j < 20 + k := by
    have := hk (j - 20)
    rw [show 20 + (j - 20) = j by omega] at this
    rw [this]
    omega
  by_cases hsmall : j < 20 + k
  · obtain ⟨hfail, hcap⟩ := report_of_small ha hk hk44 hj z m hsmall
    refine ⟨fun _ => by omega, fun c hc => ?_, fun hlarge => ?_⟩
    · rcases hcap with hcap | hcap
      · exact absurd (hcap.symm.trans hc) (by simp)
      · obtain rfl := Option.some.inj (hcap.symm.trans hc)
        have hnat := toNat_power (i := j - 20) (by omega)
        rwa [show 20 + (j - 20) = j by omega] at hnat
    · have := hfits.mpr hsmall
      omega
  · obtain ⟨hpass, hcap⟩ := report_of_large ha hk hk44 hj z m (by omega)
    refine ⟨fun hfit => absurd (hfits.mp hfit) hsmall, fun c hc => ?_, fun _ => hpass⟩
    exact absurd (hcap.symm.trans hc) (by simp)

/-- A window of 4 MiB over a memory of 1 MiB. -/
theorem capacity_probe_finds_period_one_mib :
    Aligned ⟨0x80000000, 0x80400000⟩ ∧
      Runs (testCapacityProbe (wrapCell (2 ^ 20)) [⟨0x80000000, 0x80400000⟩]) (fun _ => 0) fun r _ =>
        r.failures ≠ 0 := by
  have ha : Aligned ⟨0x80000000, 0x80400000⟩ := ⟨by decide, by decide, by decide⟩
  exact ⟨ha, (capacity_probe_finds_period ha ⟨20, rfl⟩ le_rfl fun _ => 0).mono fun r _ h => h.1 (by decide)⟩

end Soceteer.Memtest
