import Soceteer.Lib.Ring

/-!
# Soceteer.Sdhost.Fifo — the data FIFO

The words of a transfer wait in `fifo_mem` between the SD bus and the AXI master.  `dout` holds the first one, and
a word that comes into an empty FIFO goes to it at once.

* `Fifo`, `Fifo.tick`: the registers and a clock edge.
* `Shows`: the words that wait, and the first of them on `dout`; `Shows.tick`.
* `fifo_keeps_order`: what comes in goes out, once and in order, over any run.
-/

namespace Soceteer.Sdhost

open Lib

variable {n : ℕ}

/-- `fifo_mem`, `fifo_inp_pos` and `fifo_out_pos`, and `fifo_dout`; `n` is `fifo_addr_bits`. -/
structure Fifo (n : ℕ) where
  ring : Ring (BitVec 32) n
  dout : BitVec 32

/-- What a clock edge reads; `clear` is `reset || ctrl_rst || !(en_rx_fifo || en_tx_fifo)`. -/
structure FifoIn where
  clear : Bool
  we : Bool
  re : Bool
  din : BitVec 32

namespace Fifo

/-- `fifo_full` -/
def full (f : Fifo n) : Bool := f.ring.inp + 1#n = f.ring.out

/-- `fifo_empty` -/
def empty (f : Fifo n) : Bool := f.ring.inp = f.ring.out

/-- `fifo_data_len` -/
def dataLen (f : Fifo n) : BitVec n := f.ring.inp - f.ring.out

/-- `fifo_free_len` -/
def freeLen (f : Fifo n) : BitVec n := f.ring.out - (f.ring.inp + 1#n)

/-- `fifo_ready` -/
def ready (f : Fifo n) : Bool := 2 ^ n / 2 ≤ f.dataLen.toNat

/-- The word that the edge takes in. -/
def taken (f : Fifo n) (i : FifoIn) : List (BitVec 32) :=
  if i.clear = false ∧ i.we ∧ f.full = false then [i.din] else []

/-- The word that the edge gives out. -/
def given (f : Fifo n) (i : FifoIn) : List (BitVec 32) :=
  if i.clear = false ∧ i.re ∧ f.empty = false then [f.dout] else []

def tick (f : Fifo n) (i : FifoIn) : Fifo n :=
  if i.clear then { f with ring := { f.ring with inp := 0#n, out := 0#n } }
  else
    let f' :=
      if i.we ∧ f.full = false then
        { f with ring := f.ring.push i.din, dout := if f.empty then i.din else f.dout }
      else f
    if i.re ∧ f.empty = false then
      { f' with
        ring := f'.ring.pop
        dout :=
          if i.we ∧ f.full = false ∧ f.ring.out + 1#n = f.ring.inp then i.din else f.ring.mem (f.ring.out + 1#n) }
    else f'

end Fifo

/-- The words that wait. -/
structure Shows (q : List (BitVec 32)) (f : Fifo n) : Prop where
  contents : f.ring.contents = q
  dout : ∀ w ∈ q.head?, f.dout = w

variable {f : Fifo n} {i : FifoIn} {q : List (BitVec 32)}

theorem Fifo.tick_clear (hi : i.clear = true) : Shows [] (f.tick i) := by
  rw [Fifo.tick, if_pos hi]
  exact ⟨Ring.contents_eq_nil.2 rfl, by simp⟩

namespace Shows

theorem empty (h : Shows q f) : f.empty = true ↔ q = [] := by
  rw [Fifo.empty, decide_eq_true_iff, ← Ring.contents_eq_nil, h.contents]

theorem full (h : Shows q f) : f.full = true ↔ q.length + 1 = 2 ^ n := by
  rw [Fifo.full, decide_eq_true_iff, ← Ring.len_full, ← Ring.length_contents, h.contents]

theorem dataLen (h : Shows q f) : f.dataLen.toNat = q.length := by
  rw [← h.contents, Ring.length_contents]
  rfl

theorem freeLen (h : Shows q f) : f.freeLen.toNat = 2 ^ n - 1 - q.length := by
  rw [← h.contents, Ring.length_contents, ← Ring.len_free]
  rfl

/-- What stays when the first word goes. -/
theorem rest (h : Shows q f) (hne : f.empty = false) : ∃ q', q = f.dout :: q' ∧ f.ring.pop.contents = q' ∧
    (f.ring.out + 1#n = f.ring.inp ↔ q' = []) ∧ ∀ w ∈ q'.head?, f.ring.mem (f.ring.out + 1#n) = w := by
  have hpop := Ring.contents_pop (r := f.ring) (of_decide_eq_false hne)
  rw [h.contents] at hpop
  have hdout := h.dout (f.ring.mem f.ring.out) (by simp [hpop])
  have hone : f.ring.out + 1#n = f.ring.inp ↔ f.ring.pop.contents = [] :=
    eq_comm.trans (Ring.contents_eq_nil (r := f.ring.pop)).symm
  refine ⟨f.ring.pop.contents, by rw [hdout, hpop], rfl, hone, fun w hw => ?_⟩
  by_cases hlast : f.ring.out + 1#n = f.ring.inp
  · simp [hone.1 hlast] at hw
  · rw [Ring.contents_pop fun heq => hlast heq.symm] at hw
    simpa [Ring.pop] using hw

/-- What an edge does to the words that wait. -/
theorem tick (h : Shows q f) (hi : i.clear = false) :
    ∃ q', q ++ f.taken i = f.given i ++ q' ∧ Shows q' (f.tick i) := by
  have hstay : ¬ i.clear = true := by simp [hi]
  by_cases hin : i.we ∧ f.full = false
  · have hpush := Ring.contents_push (r := f.ring) (of_decide_eq_false hin.2) i.din
    rw [h.contents] at hpush
    by_cases hout : i.re ∧ f.empty = false
    · -- one comes in and one goes out
      obtain ⟨q', rfl, -, hone, hhead⟩ := h.rest hout.2
      have hpop := Ring.contents_pop (r := f.ring.push i.din) (of_decide_eq_false hin.2)
      rw [hpush] at hpop
      obtain ⟨-, hpop⟩ := List.cons_eq_cons.1 hpop
      have hdout : ∀ w ∈ (q' ++ [i.din]).head?,
          (if i.we ∧ f.full = false ∧ f.ring.out + 1#n = f.ring.inp then i.din
            else f.ring.mem (f.ring.out + 1#n)) = w := by
        intro w hw
        by_cases hlast : q' = []
        · rw [if_pos ⟨hin.1, hin.2, hone.2 hlast⟩]
          simpa [hlast] using hw
        · rw [if_neg fun hc => hlast (hone.1 hc.2.2)]
          exact hhead w (by rwa [List.head?_append_of_ne_nil _ hlast] at hw)
      refine ⟨q' ++ [i.din], by simp [Fifo.taken, Fifo.given, hi, hin, hout], ?_⟩
      rw [Fifo.tick, if_neg hstay, if_pos hin, if_pos hout]
      exact ⟨hpop.symm, hdout⟩
    · have hdout : ∀ w ∈ (q ++ [i.din]).head?, (if f.empty then i.din else f.dout) = w := by
        intro w hw
        by_cases hnil : q = []
        · rw [if_pos (h.empty.2 hnil)]
          simpa [hnil] using hw
        · rw [if_neg fun he => hnil (h.empty.1 he)]
          exact h.dout w (by rwa [List.head?_append_of_ne_nil _ hnil] at hw)
      refine ⟨q ++ [i.din], by simp [Fifo.taken, Fifo.given, hi, hin, hout], ?_⟩
      rw [Fifo.tick, if_neg hstay, if_pos hin, if_neg hout]
      exact ⟨hpush, hdout⟩
  · by_cases hout : i.re ∧ f.empty = false
    · obtain ⟨q', rfl, hpop, hone, hhead⟩ := h.rest hout.2
      refine ⟨q', by simp [Fifo.taken, Fifo.given, hi, hin, hout], ?_⟩
      rw [Fifo.tick, if_neg hstay, if_neg hin, if_pos hout]
      refine ⟨hpop, fun w hw => ?_⟩
      rw [← hhead w hw]
      exact if_neg fun hc => hin ⟨hc.1, hc.2.1⟩
    · refine ⟨q, by simp [Fifo.taken, Fifo.given, hi, hin, hout], ?_⟩
      rw [Fifo.tick, if_neg hstay, if_neg hin, if_neg hout]
      exact h

end Shows

/-! ## Runs -/

/-- The words that a run takes in, and those that it gives out. -/
def Fifo.passed (f : Fifo n) : List FifoIn → List (BitVec 32) × List (BitVec 32)
  | [] => ([], [])
  | i :: is => (f.taken i ++ ((f.tick i).passed is).1, f.given i ++ ((f.tick i).passed is).2)

/-- As long as nothing clears the FIFO, what it has taken in it gives out, each word once and in order: what waits
at the end is what is left, the first word of it on `dout`, and the lengths and flags go by that. -/
theorem fifo_keeps_order {is : List FifoIn} (h : Shows q f) (hi : ∀ i ∈ is, i.clear = false) :
    ∃ q', q ++ (f.passed is).1 = (f.passed is).2 ++ q' ∧ q'.length < 2 ^ n ∧
      (∀ w ∈ q'.head?, (is.foldl Fifo.tick f).dout = w) ∧ ((is.foldl Fifo.tick f).empty = true ↔ q' = []) ∧
        ((is.foldl Fifo.tick f).full = true ↔ q'.length + 1 = 2 ^ n) ∧
          (is.foldl Fifo.tick f).dataLen.toNat = q'.length ∧
            (is.foldl Fifo.tick f).freeLen.toNat = 2 ^ n - 1 - q'.length := by
  induction is generalizing f q with
  | nil =>
    refine ⟨q, by simp [Fifo.passed], ?_, h.dout, h.empty, h.full, h.dataLen, h.freeLen⟩
    rw [← h.contents, Ring.length_contents]
    exact f.ring.len_lt
  | cons i is ih =>
    obtain ⟨q₁, horder, h₁⟩ := h.tick (hi i List.mem_cons_self)
    obtain ⟨q', horder', hrest⟩ := ih h₁ fun j hj => hi j (List.mem_cons_of_mem i hj)
    refine ⟨q', ?_, hrest⟩
    rw [Fifo.passed, ← List.append_assoc, horder, List.append_assoc, horder', List.append_assoc]

/-- A FIFO of four places that is cleared, and filled and emptied after that. -/
theorem fifo_keeps_order_small :
    let f : Fifo 2 := Fifo.tick ⟨⟨fun _ => 0#32, 3#2, 1#2⟩, 0#32⟩ ⟨true, false, false, 0#32⟩
    let is : List FifoIn := [⟨false, true, false, 7#32⟩, ⟨false, true, true, 8#32⟩, ⟨false, false, true, 9#32⟩]
    ∃ q', [] ++ (f.passed is).1 = (f.passed is).2 ++ q' ∧ q'.length < 2 ^ 2 ∧
      (∀ w ∈ q'.head?, (is.foldl Fifo.tick f).dout = w) ∧ ((is.foldl Fifo.tick f).empty = true ↔ q' = []) ∧
        ((is.foldl Fifo.tick f).full = true ↔ q'.length + 1 = 2 ^ 2) ∧
          (is.foldl Fifo.tick f).dataLen.toNat = q'.length ∧
            (is.foldl Fifo.tick f).freeLen.toNat = 2 ^ 2 - 1 - q'.length :=
  fifo_keeps_order (Fifo.tick_clear rfl) (by decide)

end Soceteer.Sdhost
