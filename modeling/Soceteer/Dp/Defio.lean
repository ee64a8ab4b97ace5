import Mathlib.Data.List.Nodup
import Mathlib.Data.Nat.ModEq
import Soceteer.Dp.Fb
import Soceteer.Lib.Prog

/-!
# Soceteer.Dp.Defio — the pages that were written through a mapping

`fb_deferred_io` collects the pages of the framebuffer that user space has written, and `soct_dp_fb_deferred_io`
(`fb.c`) flushes them. Pages that follow each other are flushed as one range.

* `flushRange`, `walk`, `deferredIo`: the source, with the 64-bit addresses of the kernel.
* `runs_flushRange`: the lines of `Fb.flushRange`, as long as the addresses do not wrap.
* `runs_walk`: whatever the runs are, the lines of the pages are flushed in the order of the list.
* `deferredIo_lines`: exactly the lines of the pages; `ne_lastPage`: the pages that can be mapped.
-/

namespace Soceteer.Dp.Defio

open Lib

/-! ## The source -/

/-- `PAGE_SIZE` -/
def pageSize : BitVec 64 := 4096

/-- The carve-out, from a page on. -/
structure Fbs where
  phys : BitVec 64
  aligned : 4096 ∣ phys.toNat

/-- `struct fb_deferred_io_pageref`: a page by its offset in the carve-out. -/
structure Pageref where
  offset : BitVec 64
  aligned : 4096 ∣ offset.toNat

/-- The addresses that have been written to the L2's Flush64 register. -/
abbrev Triggers := List (BitVec 64)

/-- `writeq(a, fbs.l2_ctrl + L2_FLUSH64_OFFSET)` -/
def writeq (a : BitVec 64) : Prog Triggers Unit := Prog.modifyGet fun log => ((), log ++ [a])

def flushRange (start len : BitVec 64) : Prog Triggers Unit :=
  Prog.loop (fun a =>
    if a < start + len then writeq a >>= fun _ => pure (.inl (a + 64))
    else pure (.inr ())) (start &&& ~~~63#64)

/-- `if (len) flush_range(start, len);` -/
def flushPending (start len : BitVec 64) : Prog Triggers Unit := if len ≠ 0 then flushRange start len else pure ()

/-- The loop over the page list, with `start` and `len`, and what comes behind it. -/
def walk (fbs : Fbs) : List Pageref → BitVec 64 → BitVec 64 → Prog Triggers Unit
  | [], start, len => flushPending start len
  | pageref :: pagelist, start, len =>
    let phys := fbs.phys + pageref.offset
    if len ≠ 0 ∧ phys = start + len then walk fbs pagelist start (len + pageSize)
    else flushPending start len >>= fun _ => walk fbs pagelist phys pageSize

/-- `soct_dp_fb_deferred_io` -/
def deferredIo (fbs : Fbs) (pagelist : List Pageref) : Prog Triggers Unit := walk fbs pagelist 0 0

/-! ## Lines -/

/-- `n` lines from `a` on. -/
def linesFrom (a n : ℕ) : List ℕ := (List.range n).map fun i => a + 64 * i

theorem linesFrom_succ (a n : ℕ) : linesFrom a (n + 1) = a :: linesFrom (a + 64) n := by
  rw [linesFrom, List.range_succ_eq_map, List.map_cons, List.map_map, linesFrom]
  congr 1
  refine List.map_congr_left fun i _ => ?_
  show a + 64 * (i + 1) = a + 64 + 64 * i
  omega

theorem linesFrom_add (a m n : ℕ) : linesFrom a (m + n) = linesFrom a m ++ linesFrom (a + 64 * m) n := by
  rw [linesFrom, List.range_add, List.map_append, List.map_map, linesFrom, linesFrom]
  congr 1
  refine List.map_congr_left fun i _ => ?_
  show a + 64 * (m + i) = a + 64 * m + 64 * i
  omega

theorem lineLoop_eq {n fuel : ℕ} (h : n ≤ fuel) (a : ℕ) : Fb.lineLoop fuel a (a + 64 * n) = linesFrom a n := by
  induction n generalizing fuel a with
  | zero =>
    cases fuel with
    | zero => rfl
    | succ fuel => exact if_neg (Nat.lt_irrefl a)
  | succ n ih =>
    obtain ⟨fuel, rfl⟩ : ∃ f, fuel = f + 1 := ⟨fuel - 1, by omega⟩
    have hstop : a + 64 * (n + 1) = a + 64 + 64 * n := by omega
    rw [Fb.lineLoop, if_pos (by omega), hstop, ih (by omega), linesFrom_succ]

/-- A range of whole lines. -/
theorem flushRange_eq {start : ℕ} (hstart : 64 ∣ start) (n : ℕ) :
    Fb.flushRange start (64 * n) = linesFrom start n := by
  have hline : Fb.lineAddr start = start := Nat.div_mul_cancel hstart
  rw [Fb.flushRange, hline]
  exact lineLoop_eq (by omega) start

/-! ## `flush_range` -/

/-- The mask leaves the line of an address. -/
theorem toNat_mask (start : BitVec 64) : (start &&& ~~~63#64).toNat = Fb.lineAddr start.toNat := by
  have hbit : ∀ i, (63#64).getLsbD i = decide (i < 6) := fun i => Nat.testBit_two_pow_sub_one 6 i
  have hshift : start &&& ~~~63#64 = (start >>> 6) <<< 6 := by
    ext i hi
    have h63 : (63#64)[i] = decide (i < 6) := by
      rw [← BitVec.getLsbD_eq_getElem]
      exact hbit i
    rw [BitVec.getElem_and, BitVec.getElem_not, h63, BitVec.getElem_shiftLeft]
    by_cases h : i < 6
    · simp [h]
    · have hi' : 6 + (i - 6) = i := by omega
      simp [h, BitVec.getLsbD_eq_getElem hi, hi']
  rw [hshift, BitVec.toNat_shiftLeft, BitVec.toNat_ushiftRight, Nat.shiftRight_eq_div_pow,
    Nat.shiftLeft_eq, Fb.lineAddr]
  have hlt := start.isLt
  omega

theorem runs_writeq (a : BitVec 64) (log : Triggers) : Runs (writeq a) log fun _ log' => log' = log ++ [a] :=
  runs_of_eq () _ (fun _ => rfl) rfl

/-- The lines of a range that ends a line below the last address. -/
theorem runs_flushRange {start len : BitVec 64} (h : start.toNat + len.toNat + 64 ≤ 2 ^ 64) (log : Triggers) :
    Runs (flushRange start len) log fun _ log' =>
      log' = log ++ (Fb.flushRange start.toNat len.toNat).map (BitVec.ofNat 64) := by
  have hstop : (start + len).toNat = start.toNat + len.toNat := BitVec.toNat_add_of_lt (by omega)
  refine Runs.loop
    (fun a log' => 64 ∣ a.toNat ∧ ∃ fuel, start.toNat + len.toNat ≤ a.toNat + 64 * fuel ∧
      log' ++ (Fb.lineLoop fuel a.toNat (start.toNat + len.toNat)).map (BitVec.ofNat 64) =
        log ++ (Fb.flushRange start.toNat len.toNat).map (BitVec.ofNat 64))
    (fun a _ => start.toNat + len.toNat - a.toNat) ?_ ?_
  · rintro a log' ⟨hline, fuel, hfuel, hlog⟩
    by_cases ha : a < start + len
    · rw [if_pos ha]
      rw [BitVec.lt_def, hstop] at ha
      have hnext : (a + 64).toNat = a.toNat + 64 := by
        have h64 : (64 : BitVec 64).toNat = 64 := rfl
        rw [BitVec.toNat_add_of_lt (by omega), h64]
      obtain ⟨fuel, rfl⟩ : ∃ f, fuel = f + 1 := ⟨fuel - 1, by omega⟩
      rw [Fb.lineLoop, if_pos ha, List.map_cons, BitVec.ofNat_toNat, BitVec.setWidth_eq] at hlog
      refine (runs_writeq a log').bind ?_
      rintro - _ rfl
      refine runs_pure ⟨⟨?_, fuel, ?_, ?_⟩, ?_⟩
      · rw [hnext]
        exact Nat.dvd_add hline (Nat.dvd_refl 64)
      · rw [hnext]
        omega
      · rw [hnext, ← hlog, List.append_assoc]
        rfl
      · rw [hnext]
        omega
    · rw [if_neg ha]
      rw [BitVec.lt_def, hstop] at ha
      have hend : Fb.lineLoop fuel a.toNat (start.toNat + len.toNat) = [] := by
        cases fuel with
        | zero => rfl
        | succ fuel => exact if_neg ha
      rw [hend, List.map_nil, List.append_nil] at hlog
      exact runs_pure hlog
  · refine ⟨?_, len.toNat + 1, ?_, ?_⟩
    · rw [toNat_mask]
      exact Nat.dvd_mul_left 64 _
    · rw [toNat_mask, Fb.lineAddr]
      omega
    · rw [toNat_mask]
      rfl

/-! ## The page list -/

/-- The lines of a page. -/
def pageLines (page : BitVec 64) : List (BitVec 64) := (linesFrom page.toNat 64).map (BitVec.ofNat 64)

/-- The last page of the 64-bit addresses. -/
def lastPage : BitVec 64 := 0xFFFFFFFFFFFFF000

/-- A run of pages that is still to be flushed: it does not reach the last page. -/
structure Pending (start len : BitVec 64) : Prop where
  startAligned : 4096 ∣ start.toNat
  lenAligned : 4096 ∣ len.toNat
  room : start.toNat + len.toNat + 4096 ≤ 2 ^ 64

/-- The lines of a run. -/
def runLines (start len : BitVec 64) : List (BitVec 64) :=
  (linesFrom start.toNat (len.toNat / 64)).map (BitVec.ofNat 64)

theorem runs_flushPending {start len : BitVec 64} (h : Pending start len) (log : Triggers) :
    Runs (flushPending start len) log fun _ log' => log' = log ++ runLines start len := by
  obtain ⟨hstart, hlen, hroom⟩ := h
  rw [flushPending]
  split_ifs with h0
  · refine (runs_flushRange (by omega) log).mono fun _ log' hlog => ?_
    have hwhole : 64 * (len.toNat / 64) = len.toNat := by omega
    have hlines := flushRange_eq (show 64 ∣ start.toNat by omega) (len.toNat / 64)
    rw [hwhole] at hlines
    rw [hlog, hlines]
    rfl
  · rw [not_not] at h0
    subst h0
    exact runs_pure (List.append_nil log).symm

theorem toNat_lt_lastPage {page : BitVec 64} (hpage : 4096 ∣ page.toNat) (hlast : page ≠ lastPage) :
    page.toNat + 8192 ≤ 2 ^ 64 := by
  have hlt := page.isLt
  have hne : page.toNat ≠ 0xFFFFFFFFFFFFF000 := fun h => hlast (BitVec.eq_of_toNat_eq h)
  omega

/-- A page that follows a run makes it longer. -/
theorem Pending.append {start len : BitVec 64} (h : Pending start len) (hnext : start + len ≠ lastPage) :
    Pending start (len + pageSize) ∧
      runLines start (len + pageSize) = runLines start len ++ pageLines (start + len) := by
  obtain ⟨hstart, hlen, hroom⟩ := h
  have hsum : (start + len).toNat = start.toNat + len.toNat := BitVec.toNat_add_of_lt (by omega)
  have hlt : (start + len).toNat + 8192 ≤ 2 ^ 64 := toNat_lt_lastPage (by omega) hnext
  have hsize : pageSize.toNat = 4096 := rfl
  have hlonger : (len + pageSize).toNat = len.toNat + 4096 := by
    rw [BitVec.toNat_add_of_lt (by omega), hsize]
  refine ⟨⟨hstart, by omega, by omega⟩, ?_⟩
  have hcount : (len.toNat + 4096) / 64 = len.toNat / 64 + 64 := by omega
  have hend : start.toNat + 64 * (len.toNat / 64) = (start + len).toNat := by omega
  rw [runLines, hlonger, hcount, linesFrom_add, List.map_append, hend]
  rfl

theorem pending_page {page : BitVec 64} (hpage : 4096 ∣ page.toNat) (hlast : page ≠ lastPage) :
    Pending page pageSize ∧ runLines page pageSize = pageLines page := by
  have hlt := toNat_lt_lastPage hpage hlast
  have hsize : pageSize.toNat = 4096 := rfl
  exact ⟨⟨hpage, by omega, by omega⟩, rfl⟩

/-- An offset names a page. -/
theorem page_aligned (fbs : Fbs) (p : Pageref) : 4096 ∣ (fbs.phys + p.offset).toNat := by
  have hbase := fbs.aligned
  have hoff := p.aligned
  rw [BitVec.toNat_add]
  omega

/-- **The runs.**  The lines of the pending run and those of the pages are flushed, in their order. -/
theorem runs_walk (fbs : Fbs) :
    ∀ (pagelist : List Pageref) {start len : BitVec 64} (log : Triggers), Pending start len →
    (∀ p ∈ pagelist, fbs.phys + p.offset ≠ lastPage) →
      Runs (walk fbs pagelist start len) log fun _ log' =>
        log' = log ++ runLines start len ++ pagelist.flatMap fun p => pageLines (fbs.phys + p.offset)
  | [], start, len, log, h, _ => by
    refine (runs_flushPending h log).mono fun _ log' hlog => ?_
    rw [hlog, List.flatMap_nil, List.append_nil]
  | p :: pagelist, start, len, log, h, hlast => by
    obtain ⟨hp, hlast⟩ := List.forall_mem_cons.mp hlast
    rw [walk]
    split_ifs with hrun
    · -- the page follows the run
      obtain ⟨-, hnext⟩ := hrun
      rw [hnext] at hp
      obtain ⟨h', hlines⟩ := h.append hp
      refine (runs_walk fbs pagelist log h' hlast).mono fun _ log' hlog => ?_
      rw [hlog, hlines, List.flatMap_cons, hnext]
      simp only [List.append_assoc]
    · -- the run is flushed, and the page begins another one
      obtain ⟨h', hlines⟩ := pending_page (page_aligned fbs p) hp
      refine (runs_flushPending h log).bind ?_
      rintro - _ rfl
      refine (runs_walk fbs pagelist _ h' hlast).mono fun _ log' hlog => ?_
      rw [hlog, hlines, List.flatMap_cons, List.append_assoc _ (pageLines _)]

/-! ## Exactly the lines of the pages -/

/-- A line of a page, by its address. -/
def IsLineOf (page line : BitVec 64) : Prop :=
  64 ∣ line.toNat ∧ page.toNat ≤ line.toNat ∧ line.toNat < page.toNat + 4096

section Lines

variable {page page' line : BitVec 64}

theorem mem_pageLines (hpage : 4096 ∣ page.toNat) : line ∈ pageLines page ↔ IsLineOf page line := by
  have hlt := page.isLt
  simp only [pageLines, linesFrom, List.map_map, List.mem_map, List.mem_range, Function.comp_apply]
  constructor
  · rintro ⟨i, hi, rfl⟩
    rw [IsLineOf, BitVec.toNat_ofNat, Nat.mod_eq_of_lt (by omega)]
    omega
  · rintro ⟨hline, hlo, hhi⟩
    refine ⟨(line.toNat - page.toNat) / 64, by omega, BitVec.eq_of_toNat_eq ?_⟩
    rw [BitVec.toNat_ofNat]
    omega

theorem nodup_pageLines (hpage : 4096 ∣ page.toNat) : (pageLines page).Nodup := by
  have hlt := page.isLt
  rw [pageLines, linesFrom, List.map_map]
  refine List.Nodup.map_on (fun i hi j hj heq => ?_) List.nodup_range
  have hi := List.mem_range.mp hi
  have hj := List.mem_range.mp hj
  have hnat := congrArg BitVec.toNat heq
  rw [Function.comp_apply, Function.comp_apply, BitVec.toNat_ofNat, BitVec.toNat_ofNat,
    Nat.mod_eq_of_lt (by omega),
    Nat.mod_eq_of_lt (by omega)] at hnat
  omega

/-- A line is of one page only. -/
theorem IsLineOf.unique (hpage : 4096 ∣ page.toNat) (hpage' : 4096 ∣ page'.toNat) (h : IsLineOf page line)
    (h' : IsLineOf page' line) : page = page' := by
  obtain ⟨-, hlo, hhi⟩ := h
  obtain ⟨-, hlo', hhi'⟩ := h'
  exact BitVec.eq_of_toNat_eq (by omega)

end Lines

theorem nodup_lines (fbs : Fbs) {pagelist : List Pageref} (h : pagelist.Pairwise fun p q => p.offset < q.offset) :
    (pagelist.flatMap fun p => pageLines (fbs.phys + p.offset)).Nodup := by
  refine List.nodup_flatMap.mpr ⟨fun p _ => nodup_pageLines (page_aligned fbs p),
    h.imp fun {p q} hlt line hp hq => ?_⟩
  have hp := (mem_pageLines (page_aligned fbs p)).mp hp
  have hq := (mem_pageLines (page_aligned fbs q)).mp hq
  have hsame := hp.unique (page_aligned fbs p) (page_aligned fbs q) hq
  rw [BitVec.add_right_inj] at hsame
  rw [hsame] at hlt
  exact BitVec.lt_irrefl _ hlt

/-! ## The pages that can be mapped -/

/-- `fbs.mmap_ok`: both ends of the carve-out have a `struct page`. -/
def mmapOk (pfnValid : BitVec 64 → Bool) (fb fbSize : BitVec 64) : Bool :=
  pfnValid (fb >>> 12) && pfnValid ((fb + fbSize - 1) >>> 12)

/-- Without `mmap_ok` there is no deferred I/O.  A physical address has 56 bits, and so a page frame number has
44. -/
theorem ne_lastPage {pfnValid : BitVec 64 → Bool} (hvalid : ∀ n, pfnValid n = true → n.toNat < 2 ^ 44) (fbs : Fbs)
    {fbSize : BitVec 64} (hok : mmapOk pfnValid fbs.phys fbSize = true)
    (hend : fbs.phys.toNat + fbSize.toNat ≤ 2 ^ 64)
    {p : Pageref} (hp : p.offset < fbSize) : fbs.phys + p.offset ≠ lastPage := by
  intro hlast
  rw [BitVec.lt_def] at hp
  have hpage : fbs.phys.toNat + p.offset.toNat = 2 ^ 64 - 4096 := by
    have hnat := congrArg BitVec.toNat hlast
    rw [BitVec.toNat_add_of_lt (by omega)] at hnat
    exact hnat
  have hone : (1 : BitVec 64).toNat = 1 := rfl
  have hback : (fbs.phys + fbSize - 1).toNat = fbs.phys.toNat + fbSize.toNat - 1 := by
    rw [BitVec.toNat_sub, BitVec.toNat_add, hone]
    omega
  have hpfn := hvalid _ (Bool.and_eq_true_iff.mp hok).2
  rw [BitVec.toNat_ushiftRight, hback, Nat.shiftRight_eq_div_pow] at hpfn
  omega

/-- **Deferred I/O** flushes exactly the lines of the pages, and each of them once where the offsets ascend. -/
theorem deferredIo_lines (fbs : Fbs) (pagelist : List Pageref)
    (hlast : ∀ p ∈ pagelist, fbs.phys + p.offset ≠ lastPage)
    (log : Triggers) :
    Runs (deferredIo fbs pagelist) log fun _ log' => ∃ lines, log' = log ++ lines ∧
      (∀ line, line ∈ lines ↔ ∃ p ∈ pagelist, IsLineOf (fbs.phys + p.offset) line) ∧
      (pagelist.Pairwise (fun p q => p.offset < q.offset) → ∀ line ∈ lines, lines.count line = 1) := by
  have hstart : Pending 0 0 := ⟨Nat.dvd_zero _, Nat.dvd_zero _, by decide⟩
  refine (runs_walk fbs pagelist log hstart hlast).mono fun _ log' hlog =>
    ⟨pagelist.flatMap fun p => pageLines (fbs.phys + p.offset), ?_, fun line => ?_, fun hasc line hline => ?_⟩
  · rw [hlog, List.append_assoc]
    rfl
  · rw [List.mem_flatMap]
    exact exists_congr fun p => and_congr_right fun _ => mem_pageLines (page_aligned fbs p)
  · exact List.count_eq_one_of_mem (nodup_lines fbs hasc) hline

/-- Two pages that follow each other, and one behind a gap. -/
def threePages : List Pageref := [⟨0, by decide⟩, ⟨0x1000, by decide⟩, ⟨0x5000, by decide⟩]

theorem threePages_lines :
    Runs (deferredIo ⟨0x80000000, by decide⟩ threePages) [] fun _ log' => ∃ lines, log' = [] ++ lines ∧
    (∀ line, line ∈ lines ↔ ∃ p ∈ threePages, IsLineOf (0x80000000 + p.offset) line) ∧
    (threePages.Pairwise (fun p q => p.offset < q.offset) → ∀ line ∈ lines, lines.count line = 1) :=
  deferredIo_lines ⟨0x80000000, by decide⟩ threePages (by simp [threePages, lastPage]) []

end Soceteer.Dp.Defio
