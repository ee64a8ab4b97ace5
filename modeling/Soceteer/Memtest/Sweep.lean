import Mathlib.Data.BitVec
import Mathlib.Algebra.Group.Nat.Defs
import Mathlib.Data.Set.Card
import Soceteer.Lib.Cells
import Soceteer.Lib.Prog

/-!
# Soceteer.Memtest.Sweep — the full-range passes of the memory test

On a 64-bit target the memory test writes a hash of each address to it and looks later whether it is still there:
once per line (`test_line_edges`), and once per word with the bits inverted on the way (`test_full_sweep`). The
memory is reached through an arbitrary map from addresses to cells.

* `mix64`, `pat`, `linePass`, `testLineEdges`, `sweep`, `testFullSweep`: the source. `cache_scrub` only reads, and
  the progress and the mismatches that are printed are left out.
* `mix64_injective`, `pat_injective`: no two addresses have the same marker.
* `runs_forWindows`: a pass visits the addresses of the windows one after the other; `mem_visits`, `nodup_visits`.
* `runs_testLineEdges`, `runs_testFullSweep`: what the two tests count.
-/

namespace Soceteer.Memtest

open Lib

/-! ## The source -/

def mix64 (x : BitVec 64) : BitVec 64 :=
  let x := x ^^^ (x >>> 33)
  let x := x * 0xff51afd7ed558ccd#64
  let x := x ^^^ (x >>> 33)
  let x := x * 0xc4ceb9fe1a85ec53#64
  x ^^^ (x >>> 33)

def pat (addr seed : BitVec 64) : BitVec 64 := mix64 (addr ^^^ seed)

def seedA : BitVec 64 := 0x9E3779B97F4A7C15#64

def seedLine : BitVec 64 := seedA ^^^ 0xED6E#64

def lineBytes : BitVec 64 := 64

def wordBytes : BitVec 64 := 8

/-- `window_t`; `stop` is exclusive. -/
structure Window where
  start : BitVec 64
  stop : BitVec 64

/-- The cells of the memory and the count of mismatches. -/
structure St (C : Type) where
  mem : C → BitVec 64
  sweepFailures : BitVec 64

section Source

variable {C : Type} [DecidableEq C] (cell : BitVec 64 → C)

/-- `report_bad` -/
def reportBad (s : St C) : St C := { s with sweepFailures := s.sweepFailures + 1 }

/-- `*p = v` -/
def write (v : BitVec 64 → BitVec 64) (a : BitVec 64) (s : St C) : St C :=
  { s with mem := Function.update s.mem (cell a) (v a) }

/-- `got = *p; if (got != e) report_bad(a, got, e);` -/
def verify (e : BitVec 64 → BitVec 64) (a : BitVec 64) (s : St C) : St C :=
  if s.mem (cell a) ≠ e a then reportBad s else s

/-- `for (a = w->start; a < w->end; a += step)` -/
def forWindow (step : BitVec 64) (body : BitVec 64 → St C → St C) (w : Window) : Prog (St C) Unit :=
  Prog.loop (fun a =>
    if a < w.stop then
      Prog.modifyGet (fun s => ((), body a s)) >>= fun _ => pure (.inl (a + step))
    else pure (.inr ())) w.start

/-- `for (i = 0; i < n_wins; i++)` -/
def forWindows (pass : Window → Prog (St C) Unit) : List Window → Prog (St C) Unit
  | [] => pure ()
  | w :: ws => pass w >>= fun _ => forWindows pass ws

def linePass (w : Window) (check : Bool) : Prog (St C) Unit :=
  forWindow lineBytes (fun a s =>
    if check then verify cell (pat · seedLine) a s else write cell (pat · seedLine) a s) w

def testLineEdges (wins : List Window) : Prog (St C) ℕ := do
  Prog.modifyGet fun s => ((), { s with sweepFailures := 0#64 })
  forWindows (linePass cell · false) wins
  forWindows (linePass cell · true) wins
  Prog.modifyGet fun s => (if s.sweepFailures > 0 then 1 else 0, s)

inductive SweepMode
  | write
  | verifyWriteInv
  | verifyInv

def sweepStep (mode : SweepMode) (a : BitVec 64) (s : St C) : St C :=
  match mode with
  | .write => write cell (pat · seedA) a s
  | .verifyWriteInv => write cell (fun a => ~~~ pat a seedA) a (verify cell (pat · seedA) a s)
  | .verifyInv => verify cell (fun a => ~~~ pat a seedA) a s

def sweep (w : Window) (mode : SweepMode) : Prog (St C) Unit := forWindow wordBytes (sweepStep cell mode) w

def testFullSweep (wins : List Window) : Prog (St C) ℕ := do
  Prog.modifyGet fun s => ((), { s with sweepFailures := 0#64 })
  forWindows (sweep cell · .write) wins
  forWindows (sweep cell · .verifyWriteInv) wins
  forWindows (sweep cell · .verifyInv) wins
  Prog.modifyGet fun s => (if s.sweepFailures > 0 then 1 else 0, s)

end Source

/-! ## The markers -/

/-- A shift by at least half the width is undone by doing it again. -/
theorem xorShift_xorShift (x : BitVec 64) : (x ^^^ (x >>> 33)) ^^^ ((x ^^^ (x >>> 33)) >>> 33) = x := by
  have hout : x >>> 33 >>> 33 = 0#64 := by
    ext i hi
    simp only [BitVec.getElem_ushiftRight, BitVec.getLsbD_ushiftRight, BitVec.getElem_zero]
    exact BitVec.getLsbD_of_ge _ _ (by omega)
  rw [BitVec.ushiftRight_xor_distrib, hout, BitVec.xor_zero, BitVec.xor_assoc, BitVec.xor_self, BitVec.xor_zero]

theorem xorShift_injective : Function.Injective fun x : BitVec 64 => x ^^^ (x >>> 33) :=
  Function.LeftInverse.injective (g := fun x : BitVec 64 => x ^^^ (x >>> 33)) xorShift_xorShift

/-- An odd factor has an inverse. -/
theorem mul_injective {c d : BitVec 64} (h : c * d = 1) : Function.Injective fun x : BitVec 64 => x * c := by
  refine Function.LeftInverse.injective (g := fun x : BitVec 64 => x * d) fun x => ?_
  show x * c * d = x
  rw [BitVec.mul_assoc, h]
  exact BitVec.mul_one x

theorem mix64_injective : Function.Injective mix64 := by
  have h1 : Function.Injective fun x : BitVec 64 => x * 0xff51afd7ed558ccd#64 :=
    mul_injective (d := 0x4f74430c22a54005#64) (by decide)
  have h2 : Function.Injective fun x : BitVec 64 => x * 0xc4ceb9fe1a85ec53#64 :=
    mul_injective (d := 0x9cb4b2f8129337db#64) (by decide)
  exact xorShift_injective.comp (h2.comp (xorShift_injective.comp (h1.comp xorShift_injective)))

/-- No two addresses have the same marker. -/
theorem pat_injective (seed : BitVec 64) : Function.Injective (pat · seed) := by
  intro a b h
  have hxor : a ^^^ seed = b ^^^ seed := mix64_injective h
  have hback := congrArg (· ^^^ seed) hxor
  simpa [BitVec.xor_assoc] using hback

/-! ## The addresses of a pass -/

/-- Disjoint windows of whole lines; a multiple of 64 below `2 ^ 64` is at most `2 ^ 64 - 64`. -/
structure Testable (wins : List Window) : Prop where
  start : ∀ w ∈ wins, 64 ∣ w.start.toNat
  stop : ∀ w ∈ wins, 64 ∣ w.stop.toNat
  disjoint : wins.Pairwise fun w w' => ∀ a, ¬ ((w.start ≤ a ∧ a < w.stop) ∧ w'.start ≤ a ∧ a < w'.stop)

/-- The addresses in the windows that are multiples of `step`. -/
def tested (step : ℕ) (wins : List Window) : Set (BitVec 64) :=
  {a | step ∣ a.toNat ∧ ∃ w ∈ wins, w.start ≤ a ∧ a < w.stop}

/-- The addresses that a pass visits in a window, in their order. -/
def visits (step : ℕ) (w : Window) : List (BitVec 64) :=
  (List.range ((w.stop.toNat - w.start.toNat) / step)).map fun i => BitVec.ofNat 64 (w.start.toNat + i * step)

section Visits

variable {w : Window}

/-- A window of whole steps. -/
structure Step (step : BitVec 64) (w : Window) : Prop where
  pos : 0 < step.toNat
  start : step.toNat ∣ w.start.toNat
  stop : step.toNat ∣ w.stop.toNat

variable {step : BitVec 64} (h : Step step w)
include h

theorem toNat_visit {i : ℕ} (hi : i < (w.stop.toNat - w.start.toNat) / step.toNat) :
    (BitVec.ofNat 64 (w.start.toNat + i * step.toNat)).toNat = w.start.toNat + i * step.toNat ∧
      w.start.toNat + (i + 1) * step.toNat ≤ w.stop.toNat := by
  have hle : (i + 1) * step.toNat ≤ w.stop.toNat - w.start.toNat := (Nat.le_div_iff_mul_le h.pos).mp hi
  have hpos := h.pos
  rw [Nat.succ_mul] at hle ⊢
  refine ⟨?_, by omega⟩
  rw [BitVec.toNat_ofNat, Nat.mod_eq_of_lt (by omega)]

/-- The visited addresses of a window are its multiples of the step. -/
theorem mem_visits {a : BitVec 64} :
    a ∈ visits step.toNat w ↔ step.toNat ∣ a.toNat ∧ w.start ≤ a ∧ a < w.stop := by
  rw [visits, List.mem_map]
  constructor
  · rintro ⟨i, hi, rfl⟩
    obtain ⟨htoNat, hle⟩ := toNat_visit h (List.mem_range.mp hi)
    have hpos := h.pos
    rw [Nat.succ_mul] at hle
    rw [BitVec.le_def, BitVec.lt_def, htoNat]
    exact ⟨(Nat.dvd_add_right h.start).mpr (Nat.dvd_mul_left _ _), by omega, by omega⟩
  · rintro ⟨hdvd, hstart, hstop⟩
    rw [BitVec.le_def] at hstart
    rw [BitVec.lt_def] at hstop
    obtain ⟨i, hi⟩ := Nat.dvd_sub hdvd h.start
    obtain ⟨n, hn⟩ := Nat.dvd_sub h.stop h.start
    have hlt : step.toNat * i < step.toNat * n := by omega
    refine ⟨i, ?_, ?_⟩
    · rw [List.mem_range, hn, Nat.mul_div_cancel_left _ h.pos]
      exact Nat.lt_of_mul_lt_mul_left hlt
    · apply BitVec.eq_of_toNat_eq
      rw [BitVec.toNat_ofNat, Nat.mul_comm i, ← hi, Nat.add_sub_cancel' hstart, Nat.mod_eq_of_lt a.isLt]

theorem nodup_visits : (visits step.toNat w).Nodup := by
  refine List.Nodup.map_on ?_ List.nodup_range
  intro i hi j hj heq
  have hnat := congrArg BitVec.toNat heq
  rw [(toNat_visit h (List.mem_range.mp hi)).1, (toNat_visit h (List.mem_range.mp hj)).1] at hnat
  exact Nat.eq_of_mul_eq_mul_right h.pos (Nat.add_left_cancel hnat)

/-- A loop over a window carries its state through the visited addresses. -/
theorem runs_forWindow {C : Type} (body : BitVec 64 → St C → St C) (s : St C) :
    Runs (forWindow step body w) s fun _ s' => s' = (visits step.toNat w).foldl (fun s a => body a s) s := by
  have hpos := h.pos
  -- after `i` rounds, unless the window is empty
  refine Runs.loop
    (fun a s' => ∃ i, a.toNat = w.start.toNat + i * step.toNat ∧ i ≤ (w.stop.toNat - w.start.toNat) / step.toNat ∧
      s' = ((visits step.toNat w).take i).foldl (fun s a => body a s) s)
    (fun a _ => 2 ^ 64 - a.toNat) (fun a s' => ?_) ⟨0, by rw [Nat.zero_mul, Nat.add_zero], Nat.zero_le _, rfl⟩
  rintro ⟨i, ha, hi, rfl⟩
  have hlen : (visits step.toNat w).length = (w.stop.toNat - w.start.toNat) / step.toNat := by simp [visits]
  split
  · next hlt =>
    rw [BitVec.lt_def] at hlt
    have hin : a ∈ visits step.toNat w := by
      refine (mem_visits h).mpr ⟨?_, BitVec.le_def.mpr (by omega), BitVec.lt_def.mpr hlt⟩
      rw [ha]
      exact (Nat.dvd_add_right h.start).mpr (Nat.dvd_mul_left _ _)
    have hmore : i < (w.stop.toNat - w.start.toNat) / step.toNat := by
      refine (Nat.le_div_iff_mul_le h.pos).mpr ?_
      obtain ⟨n, hn⟩ := Nat.dvd_sub h.stop h.start
      have : step.toNat * i < step.toNat * n := by rw [Nat.mul_comm]; omega
      have := Nat.mul_le_mul_left step.toNat (Nat.lt_of_mul_lt_mul_left this)
      rw [hn, Nat.mul_comm]
      exact this
    obtain ⟨htoNat, hle⟩ := toNat_visit h hmore
    have hget : (visits step.toNat w)[i]? = some a := by
      rw [visits, List.getElem?_map, List.getElem?_range hmore]
      refine congrArg some (BitVec.eq_of_toNat_eq ?_)
      rw [htoNat, ha]
    refine runs_of_eq _ _ (fun n => rfl) ?_
    have hnext : (a + step).toNat = w.start.toNat + (i + 1) * step.toNat := by
      rw [BitVec.toNat_add, ha, Nat.succ_mul]
      rw [Nat.succ_mul] at hle
      exact (Nat.mod_eq_of_lt (by omega)).trans (by omega)
    refine ⟨⟨i + 1, hnext, hmore, ?_⟩, by rw [Nat.succ_mul] at hnext; omega⟩
    rw [List.take_add_one, hget, Option.toList_some, List.foldl_append]
    rfl
  · next hge =>
    refine runs_pure ?_
    have hdone : i = (w.stop.toNat - w.start.toNat) / step.toNat := by
      refine le_antisymm hi ?_
      by_contra hlt
      obtain ⟨-, hle⟩ := toNat_visit h (Nat.not_le.mp hlt)
      rw [Nat.succ_mul] at hle
      exact hge (BitVec.lt_def.mpr (by omega))
    rw [hdone, ← hlen, List.take_length]

end Visits

section Windows

variable {step : BitVec 64} {wins : List Window} {C : Type}

theorem runs_forWindows (h : ∀ w ∈ wins, Step step w) (body : BitVec 64 → St C → St C) (s : St C) :
    Runs (forWindows (forWindow step body) wins) s fun _ s' =>
      s' = (wins.flatMap (visits step.toNat)).foldl (fun s a => body a s) s := by
  induction wins generalizing s with
  | nil => exact runs_pure rfl
  | cons w ws ih =>
    refine (runs_forWindow (h w List.mem_cons_self) body s).bind fun _ s' hs' => ?_
    subst hs'
    refine (ih (fun w' hw' => h w' (List.mem_cons_of_mem _ hw')) _).mono fun _ s' hs' => ?_
    rw [hs', List.flatMap_cons, List.foldl_append]

theorem mem_visits_all (h : ∀ w ∈ wins, Step step w) (a : BitVec 64) :
    a ∈ wins.flatMap (visits step.toNat) ↔ a ∈ tested step.toNat wins := by
  rw [List.mem_flatMap]
  constructor
  · rintro ⟨w, hw, ha⟩
    obtain ⟨hdvd, hin⟩ := (mem_visits (h w hw)).mp ha
    exact ⟨hdvd, w, hw, hin⟩
  · rintro ⟨hdvd, w, hw, hin⟩
    exact ⟨w, hw, (mem_visits (h w hw)).mpr ⟨hdvd, hin⟩⟩

theorem nodup_visits_all (h : ∀ w ∈ wins, Step step w)
    (hdisj : wins.Pairwise fun w w' => ∀ a, ¬ ((w.start ≤ a ∧ a < w.stop) ∧ w'.start ≤ a ∧ a < w'.stop)) :
    (wins.flatMap (visits step.toNat)).Nodup := by
  rw [List.nodup_flatMap]
  refine ⟨fun w hw => nodup_visits (h w hw), hdisj.imp_of_mem ?_⟩
  intro w w' hw hw' hne a ha ha'
  exact hne a ⟨((mem_visits (h w hw)).mp ha).2, ((mem_visits (h w' hw')).mp ha').2⟩

variable (ht : Testable wins)
include ht

/-- The steps of both tests divide the windows. -/
theorem Testable.steps (hpos : 0 < step.toNat) (hdvd : step.toNat ∣ 64) : ∀ w ∈ wins, Step step w := fun w hw =>
  ⟨hpos, hdvd.trans (ht.start w hw), hdvd.trans (ht.stop w hw)⟩

omit ht in
/-- Distinct multiples of eight are few enough to be counted in 64 bits. -/
theorem length_le {xs : List (BitVec 64)} (hnd : xs.Nodup) (h8 : ∀ a ∈ xs, 8 ∣ a.toNat) : xs.length ≤ 2 ^ 61 := by
  have hinj : (xs.map fun a => a.toNat / 8).Nodup := by
    refine hnd.map_on fun a ha b hb heq => BitVec.eq_of_toNat_eq ?_
    have := h8 a ha
    have := h8 b hb
    omega
  have hsub : (xs.map fun a => a.toNat / 8) ⊆ List.range (2 ^ 61) := by
    intro i hi
    obtain ⟨a, -, rfl⟩ := List.mem_map.mp hi
    rw [List.mem_range]
    omega
  have hle := (hinj.subperm hsub).length_le
  rwa [List.length_map, List.length_range] at hle

omit ht in
/-- The visited addresses and their cells as sets. -/
theorem ncard_visits [DecidableEq C] (cell : BitVec 64 → C) {xs : List (BitVec 64)}
    {T : Set (BitVec 64)} (hnd : xs.Nodup)
    (hmem : ∀ a, a ∈ xs ↔ a ∈ T) :
      T.Finite ∧ T.ncard = xs.length ∧ (cell '' T).ncard = (xs.map cell).toFinset.card ∧
      ((xs.map cell).Nodup ↔ Set.InjOn cell T) := by
  have hT : T = ↑xs.toFinset := by
    ext a
    rw [List.coe_toFinset]
    exact (hmem a).symm
  refine ⟨hT ▸ xs.toFinset.finite_toSet, ?_, ?_, ?_⟩
  · rw [hT, Set.ncard_coe_finset, List.toFinset_card_of_nodup hnd]
  · rw [← Set.ncard_coe_finset, hT]
    congr 1
    ext c
    simp
  · refine ⟨fun h a ha b hb => List.inj_on_of_nodup_map h ((hmem a).mpr ha) ((hmem b).mpr hb), fun h => ?_⟩
    exact hnd.map_on fun a ha b hb heq => h ((hmem a).mp ha) ((hmem b).mp hb) heq

end Windows

/-! ## The passes -/

section Passes

variable {C : Type} [DecidableEq C] {cell : BitVec 64 → C} {v w : BitVec 64 → BitVec 64} {s : St C}

theorem foldl_write (xs : List (BitVec 64)) :
    xs.foldl (fun s a => write cell v a s) s = { s with mem := stores cell v s.mem xs } := by
  induction xs generalizing s with
  | nil => rfl
  | cons a xs ih =>
    rw [List.foldl_cons, ih]
    rfl

omit [DecidableEq C] in
theorem verify_eq (a : BitVec 64) : verify cell v a s =
    ⟨s.mem, s.sweepFailures + BitVec.ofNat 64 (if s.mem (cell a) = v a then 0 else 1)⟩ := by
  unfold verify
  by_cases h : s.mem (cell a) = v a
  · rw [if_neg (not_not_intro h), if_pos h, BitVec.add_zero]
  · rw [if_pos h, if_neg h]
    rfl

/-- A pass that compares. -/
theorem foldl_verify (xs : List (BitVec 64)) : xs.foldl (fun s a => verify cell v a s) s =
    ⟨s.mem, s.sweepFailures + BitVec.ofNat 64 (mismatches cell v none s.mem xs)⟩ := by
  induction xs generalizing s with
  | nil => simp [mismatches]
  | cons a xs ih =>
    rw [List.foldl_cons, ih, verify_eq, mismatches_cons, BitVec.ofNat_add, ← BitVec.add_assoc]
    rfl

/-- A pass that compares and stores at each address. -/
theorem foldl_verify_write (xs : List (BitVec 64)) :
    xs.foldl (fun s a => write cell w a (verify cell v a s)) s =
      ⟨stores cell w s.mem xs, s.sweepFailures + BitVec.ofNat 64 (mismatches cell v (some w) s.mem xs)⟩ := by
  induction xs generalizing s with
  | nil => simp [mismatches]
  | cons a xs ih =>
    rw [List.foldl_cons, ih, verify_eq, mismatches_cons, BitVec.ofNat_add, ← BitVec.add_assoc]
    rfl

end Passes

/-! ## The two tests -/

section Tests

variable {C : Type} [DecidableEq C] (cell : BitVec 64 → C) {wins : List Window} (ht : Testable wins) (s : St C)

theorem verdict_eq_zero (n : BitVec 64) : (if n > 0 then 1 else 0) = 0 ↔ n.toNat = 0 := by
  split
  · next h =>
    have hpos : 0 < n.toNat := BitVec.lt_def.mp h
    omega
  · next h =>
    have hle : n.toNat ≤ 0 := BitVec.le_def.mp (BitVec.not_lt.mp h)
    omega

include ht

/-- The line test counts the lines that have no cell of their own. -/
theorem runs_testLineEdges : Runs (testLineEdges cell wins) s fun f s' =>
    s'.sweepFailures.toNat = (tested 64 wins).ncard - (cell '' tested 64 wins).ncard ∧
      (f = 0 ↔ Set.InjOn cell (tested 64 wins)) := by
  have hstep : ∀ w ∈ wins, Step lineBytes w := ht.steps (by decide) (by decide)
  set xs := wins.flatMap (visits 64) with hxs
  have hnd : xs.Nodup := nodup_visits_all hstep ht.disjoint
  have hmem : ∀ a, a ∈ xs ↔ a ∈ tested 64 wins := mem_visits_all hstep
  have hlen : xs.length ≤ 2 ^ 61 := length_le hnd fun a ha => Nat.dvd_trans (by decide) ((hmem a).mp ha).1
  obtain ⟨hfin, hcard, himage, -⟩ := ncard_visits cell hnd hmem
  have hcount : mismatches cell (pat · seedLine) none (stores cell (pat · seedLine) s.mem xs) xs +
      (xs.map cell).toFinset.card = xs.length := mismatches_stores (pat_injective seedLine) hnd
  refine (runs_of_eq (Q := fun _ s₀ => s₀ = { s with sweepFailures := 0#64 }) _ _ (fun n => rfl) rfl).bind ?_
  rintro _ _ rfl
  refine (runs_forWindows hstep _ _).bind fun _ s₁ hs₁ => ?_
  refine (runs_forWindows hstep _ s₁).bind fun _ s₂ hs₂ => runs_of_eq _ _ (fun n => rfl) ?_
  have hwritten : s₁ = ⟨stores cell (pat · seedLine) s.mem xs, 0#64⟩ := hs₁.trans (foldl_write xs)
  have hfound : s₂.sweepFailures.toNat = (tested 64 wins).ncard - (cell '' tested 64 wins).ncard := by
    have hchecked : s₂.sweepFailures =
        s₁.sweepFailures + BitVec.ofNat 64 (mismatches cell (pat · seedLine) none s₁.mem xs) := by
      rw [hs₂]
      exact congrArg St.sweepFailures (foldl_verify xs)
    rw [hwritten] at hchecked
    rw [hchecked, BitVec.zero_add, BitVec.toNat_ofNat, hcard, himage]
    dsimp only
    rw [Nat.mod_eq_of_lt (by omega)]
    omega
  refine ⟨hfound, ?_⟩
  rw [verdict_eq_zero, hfound, ← Set.ncard_image_iff hfin, hcard, himage]
  omega

/-- The sweep finds a mismatch exactly when two words share a cell. -/
theorem runs_testFullSweep : Runs (testFullSweep cell wins) s fun f s' =>
    (1 ≤ s'.sweepFailures.toNat ↔ ¬ Set.InjOn cell (tested 8 wins)) ∧
      (f = 0 ↔ Set.InjOn cell (tested 8 wins)) := by
  have hstep : ∀ w ∈ wins, Step wordBytes w := ht.steps (by decide) (by decide)
  set xs := wins.flatMap (visits 8) with hxs
  have hnd : xs.Nodup := nodup_visits_all hstep ht.disjoint
  have hmem : ∀ a, a ∈ xs ↔ a ∈ tested 8 wins := mem_visits_all hstep
  have hlen : xs.length ≤ 2 ^ 61 := length_le hnd fun a ha => ((hmem a).mp ha).1
  obtain ⟨-, -, -, hinj⟩ := ncard_visits cell hnd hmem
  refine (runs_of_eq (Q := fun _ s₀ => s₀ = { s with sweepFailures := 0#64 }) _ _ (fun n => rfl) rfl).bind ?_
  rintro _ _ rfl
  refine (runs_forWindows hstep _ _).bind fun _ s₁ hs₁ => ?_
  refine (runs_forWindows hstep _ s₁).bind fun _ s₂ hs₂ => ?_
  refine (runs_forWindows hstep _ s₂).bind fun _ s₃ hs₃ => runs_of_eq _ _ (fun n => rfl) ?_
  set e : BitVec 64 → BitVec 64 := (pat · seedA)
  set i : BitVec 64 → BitVec 64 := fun a => ~~~ pat a seedA
  have hwritten : s₁ = ⟨stores cell e s.mem xs, 0#64⟩ := hs₁.trans (foldl_write xs)
  have hswapped : s₂ =
      ⟨stores cell i s₁.mem xs, s₁.sweepFailures + BitVec.ofNat 64 (mismatches cell e (some i) s₁.mem xs)⟩ :=
    hs₂.trans (foldl_verify_write xs)
  have hchecked : s₃ = ⟨s₂.mem, s₂.sweepFailures + BitVec.ofNat 64 (mismatches cell i none s₂.mem xs)⟩ :=
    hs₃.trans (foldl_verify xs)
  have hle₂ : mismatches cell e (some i) s₁.mem xs ≤ xs.length := mismatches_le
  have hle₃ : mismatches cell i none s₂.mem xs ≤ xs.length := mismatches_le
  have hfound : s₃.sweepFailures.toNat =
      mismatches cell e (some i) s₁.mem xs + mismatches cell i none s₂.mem xs := by
    have hsum : s₃.sweepFailures = 0#64 + BitVec.ofNat 64 (mismatches cell e (some i) s₁.mem xs) +
        BitVec.ofNat 64 (mismatches cell i none s₂.mem xs) := by
      rw [hchecked, hswapped, hwritten]
    rw [hsum, BitVec.zero_add, ← BitVec.ofNat_add, BitVec.toNat_ofNat, Nat.mod_eq_of_lt (by omega)]
  have hzero : s₃.sweepFailures.toNat = 0 ↔ Set.InjOn cell (tested 8 wins) := by
    have hfirst : mismatches cell e (some i) s₁.mem xs = 0 ↔ (xs.map cell).Nodup := by
      rw [hwritten]
      exact mismatches_swap_eq_zero (pat_injective seedA) hnd
    rw [hfound, ← hinj, ← hfirst]
    refine ⟨fun h => by omega, fun h => ?_⟩
    have hlast : mismatches cell i none s₂.mem xs = 0 := by
      rw [hswapped]
      exact mismatches_of_exact (hfirst.mp h) fun a ha => stores_of_nodup (hfirst.mp h) ha
    omega
  refine ⟨?_, by rw [verdict_eq_zero, hzero]⟩
  rw [← hzero]
  omega

/-- **Aliasing is detected**: whatever cells the addresses of the windows are mapped to, the line test reports as
many mismatches as there are lines too many for their cells, and the sweep reports one unless every word has its
own cell. -/
theorem aliasing_detected :
    (Runs (testLineEdges cell wins) s fun f s' =>
      s'.sweepFailures.toNat = (tested 64 wins).ncard - (cell '' tested 64 wins).ncard ∧
        (f = 0 ↔ Set.InjOn cell (tested 64 wins))) ∧
      Runs (testFullSweep cell wins) s fun f s' =>
        (1 ≤ s'.sweepFailures.toNat ↔ ¬ Set.InjOn cell (tested 8 wins)) ∧
          (f = 0 ↔ Set.InjOn cell (tested 8 wins)) :=
  ⟨runs_testLineEdges cell ht s, runs_testFullSweep cell ht s⟩

end Tests

/-- Two windows that share cells when bit 31 of an address is dropped. -/
theorem aliasing_detected_dropped_bit :
    Testable [⟨0x80000000, 0x80000100⟩, ⟨0x100000000, 0x100000080⟩] ∧
      Runs (testLineEdges (BitVec.setWidth 31) [⟨0x80000000, 0x80000100⟩, ⟨0x100000000, 0x100000080⟩])
        ⟨fun _ => 0, 0⟩ fun f _ => f ≠ 0 := by
  have ht : Testable [⟨0x80000000, 0x80000100⟩, ⟨0x100000000, 0x100000080⟩] := by
    refine ⟨by decide, by decide, ?_⟩
    simp only [List.pairwise_cons, List.mem_singleton, forall_eq, List.not_mem_nil, false_imp_iff, implies_true,
      List.Pairwise.nil, and_true]
    rintro a ⟨⟨-, hlt⟩, hle, -⟩
    rw [BitVec.lt_def] at hlt
    rw [BitVec.le_def] at hle
    exact absurd (hle.trans_lt hlt) (by decide)
  refine ⟨ht, (aliasing_detected (BitVec.setWidth 31) ht ⟨fun _ => 0, 0⟩).1.mono fun f s' h hf => ?_⟩
  have hinj := h.2.mp hf
  have hsame : (0x80000000 : BitVec 64) = 0x100000000 :=
    hinj ⟨by decide, _, List.mem_cons_self, by decide, by decide⟩
      ⟨by decide, _, List.mem_cons_of_mem _ List.mem_cons_self, by decide, by decide⟩ (by decide)
  exact absurd hsame (by decide)

end Soceteer.Memtest
