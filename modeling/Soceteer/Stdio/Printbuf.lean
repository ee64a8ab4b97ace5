import Soceteer.Glue.Dtb
import Soceteer.Lib.Run
import Mathlib.Algebra.Group.Nat.Defs
import Mathlib.Data.List.Basic
import Mathlib.Logic.Function.Basic
import Mathlib.Tactic.SplitIfs

/-!
# Soceteer.Stdio.Printbuf — the console buffer of `printf` and `puts`

`__printf_char` stores one character at a time into `__printbuf` and flushes it on a newline or when it is full;
`puts` copies its string into the same buffer and, when that fills up, writes the rest of the string past it
(`stdio/printbuf.h`, `stdio/stdio.c`).

* `toStdout`, `printbufFlush`, `printbufPutc`, `printfChar`, `putsLoop`: the functions.
* `State`, `step`: the calls of one hart; every `write` is a step of its own.
* `Exact`: nothing is lost, reordered or duplicated; `Inv` is what every step keeps.
* `console_exact`: when it holds along a run.
-/

namespace Soceteer.Stdio

open Glue

/-! ## The functions -/

/-- A call; of `printf` and `vprintf`, the characters that `__vxprintf` hands to `__printf_char`. -/
inductive Call
  | printf (cs : List UInt8)
  | vprintf (cs : List UInt8)
  | puts (s : CStr)

/-- The characters a call produces. -/
def Call.chars : Call → List UInt8
  | printf cs => cs
  | vprintf cs => cs
  | puts s => s ++ [10]

/-- Where the hart is: between calls, in `__vxprintf` with characters to come, or in `__printbuf_puts` behind its
first or its second `write`. -/
inductive Site
  | ready
  | printing (cs : List UInt8) (len : BitVec 32)
  | rest (s : CStr)
  | newline

/-- What the call has still to produce. -/
def Site.toCome : Site → List UInt8
  | ready => []
  | printing cs _ => cs
  | rest s => s ++ [10]
  | newline => [10]

/-- `__printbuf` with the memory behind it and `__printbuflen`; then what went by: the bytes given to `write`, the
offsets stored to, the calls, the values they returned, and the characters produced. -/
structure State where
  printbuf : ℕ → UInt8
  printbuflen : ℕ
  site : Site
  written : List UInt8
  stores : List ℕ
  calls : List Call
  returned : List (BitVec 32)
  produced : List UInt8

def State.init (printbuf : ℕ → UInt8) : State := ⟨printbuf, 0, .ready, [], [], [], [], []⟩

def State.store (σ : State) (i : ℕ) (c : UInt8) : State :=
  { σ with printbuf := Function.update σ.printbuf i c, stores := i :: σ.stores }

/-- `write` takes all bytes and returns their number, which becomes an `int`. -/
def toStdout (bytes : List UInt8) (σ : State) : BitVec 32 × State :=
  (BitVec.ofNat 32 bytes.length, { σ with written := σ.written ++ bytes })

def printbufFlush (len : ℕ) (σ : State) : BitVec 32 × State :=
  toStdout ((List.range len).map σ.printbuf) { σ with printbuflen := 0 }

def printbufPutc (c : UInt8) (σ : State) : BitVec 32 × State :=
  let σ := { σ.store σ.printbuflen c with printbuflen := σ.printbuflen + 1 }
  if 128 ≤ σ.printbuflen ∨ c = 10 then printbufFlush σ.printbuflen σ else (0, σ)

/-- `__printf_char`, with the count that `arg` points to. -/
def printfChar (c : UInt8) (len : BitVec 32) (σ : State) : BitVec 32 × State :=
  let (n, σ) := printbufPutc c σ
  (if 0 ≤ n.toInt then len + n else len, σ)

/-- The loop of `__printbuf_puts` from `buf` on: the fill of the buffer behind the newline, or what is left of the
string when the buffer is full. -/
def putsLoop : CStr → ℕ → State → (ℕ ⊕ CStr) × State
  | [], buf, σ => if buf < 128 then (.inl (buf + 1), σ.store buf 10) else (.inr [], σ)
  | c :: s, buf, σ => if buf < 128 then putsLoop s (buf + 1) (σ.store buf c) else (.inr (c :: s), σ)

/-! ## Runs -/

/-- The call returns `ret`; with it, `cs` has been produced. -/
def State.finish (σ : State) (ret : BitVec 32) (cs : List UInt8) : State :=
  { σ with site := .ready, returned := σ.returned ++ [ret], produced := σ.produced ++ cs }

/-- `EOF`. -/
def eof : BitVec 32 := -1

/-- `__wrap_puts` up to its first `write`. -/
def putsStart (s : CStr) (σ : State) : State :=
  match putsLoop s σ.printbuflen σ with
  | (.inl len, σ) =>
    let (n, σ) := printbufFlush len σ
    σ.finish (if n.toInt < 0 then eof else 0) (s ++ [10])
  | (.inr rest, σ) =>
    let (n, σ) := printbufFlush 128 σ
    if n.toInt < 0 then σ.finish eof (s ++ [10])
    else { σ with site := .rest rest, produced := σ.produced ++ s.take (s.length - rest.length) }

inductive Event
  | call (c : Call)
  | go

def step (σ : State) (e : Event) : Option State :=
  match σ.site, e with
  | .ready, .call (.printf cs) => some { σ with site := .printing cs 0, calls := σ.calls ++ [.printf cs] }
  | .ready, .call (.vprintf cs) => some { σ with site := .printing cs 0, calls := σ.calls ++ [.vprintf cs] }
  | .ready, .call (.puts s) => some (putsStart s { σ with calls := σ.calls ++ [.puts s] })
  | .printing [] len, .go => some (σ.finish len [])
  | .printing (c :: cs) len, .go =>
    let (len, σ) := printfChar c len σ
    some { σ with site := .printing cs len, produced := σ.produced ++ [c] }
  | .rest s, .go =>
    let (n, σ) := toStdout s σ
    -- a call that returns here has not written its newline
    if n.toInt < 0 then some (σ.finish eof (s ++ [10]))
    else some { σ with site := .newline, produced := σ.produced ++ s }
  | .newline, .go =>
    let (n, σ) := toStdout [10] σ
    some (σ.finish (if n.toInt < 0 then eof else 0) [10])
  | _, _ => none

/-- What waits in the buffer. -/
def State.pending (σ : State) : List UInt8 := (List.range σ.printbuflen).map σ.printbuf

/-- Nothing is lost, reordered or duplicated, and no store is outside the buffer. -/
structure Exact (σ : State) : Prop where
  output : σ.written ++ σ.pending = σ.produced
  produced : σ.produced ++ σ.site.toCome = σ.calls.flatMap Call.chars
  len_lt : σ.site = .ready → σ.printbuflen < 128
  stores : ∀ o ∈ σ.stores, o < 128

/-- The part of the string that `puts` writes past the buffer has a length that is not negative as an `int`. -/
def Fits (σ : State) : Event → Prop
  | .call (.puts s) => (s.length - (128 - σ.printbuflen)) % 2 ^ 32 < 2 ^ 31
  | _ => True

/-! ## The buffer -/

variable {σ σ' : State} {s : CStr} {c : UInt8} {buf : ℕ}

/-- A store behind the first `buf` bytes is one more byte. -/
theorem range_map_store (σ : State) (buf : ℕ) (c : UInt8) :
    (List.range (buf + 1)).map (σ.store buf c).printbuf = (List.range buf).map σ.printbuf ++ [c] := by
  rw [List.range_succ, List.map_append]
  have hlow : (List.range buf).map (σ.store buf c).printbuf = (List.range buf).map σ.printbuf := by
    apply List.map_congr_left
    intro i hi
    have hne : i ≠ buf := Nat.ne_of_lt (List.mem_range.mp hi)
    simp [State.store, hne]
  rw [hlow]
  simp [State.store]

/-- The loop of `puts` changes the buffer only, and stores inside it. -/
theorem putsLoop_frame : ∀ (s : CStr) (buf : ℕ) (σ : State), (∀ o ∈ σ.stores, o < 128) →
    ∃ p st, (putsLoop s buf σ).2 = { σ with printbuf := p, stores := st } ∧ ∀ o ∈ st, o < 128
  | [], buf, σ, hst => by
    rw [putsLoop]
    split_ifs with h
    · exact ⟨_, _, rfl, List.forall_mem_cons.mpr ⟨h, hst⟩⟩
    · exact ⟨_, _, rfl, hst⟩
  | c :: s, buf, σ, hst => by
    rw [putsLoop]
    split_ifs with h
    · obtain ⟨p, st, hσ, hst'⟩ := putsLoop_frame s (buf + 1) (σ.store buf c) (List.forall_mem_cons.mpr ⟨h, hst⟩)
      exact ⟨p, st, hσ, hst'⟩
    · exact ⟨_, _, rfl, hst⟩

/-- A string that fits with its newline. -/
theorem putsLoop_short : ∀ (s : CStr) (buf : ℕ) (σ : State), buf + s.length < 128 →
    (putsLoop s buf σ).1 = .inl (buf + s.length + 1) ∧
      (List.range (buf + s.length + 1)).map (putsLoop s buf σ).2.printbuf =
        (List.range buf).map σ.printbuf ++ s ++ [10]
  | [], buf, σ, h => by
    have hbuf : buf < 128 := h
    rw [putsLoop, if_pos hbuf]
    exact ⟨rfl, by simpa using range_map_store σ buf 10⟩
  | c :: s, buf, σ, h => by
    rw [List.length_cons] at h
    rw [putsLoop, if_pos (by omega)]
    obtain ⟨hfill, hbytes⟩ := putsLoop_short s (buf + 1) (σ.store buf c) (by omega)
    rw [range_map_store] at hbytes
    rw [List.length_cons, show buf + (s.length + 1) + 1 = buf + 1 + s.length + 1 by omega]
    exact ⟨hfill, by rw [hbytes]; simp⟩

/-- A string that fills the buffer. -/
theorem putsLoop_long : ∀ (s : CStr) (buf : ℕ) (σ : State), buf ≤ 128 → 128 ≤ buf + s.length →
    (putsLoop s buf σ).1 = .inr (s.drop (128 - buf)) ∧
      (List.range 128).map (putsLoop s buf σ).2.printbuf = (List.range buf).map σ.printbuf ++ s.take (128 - buf)
  | [], buf, σ, hbuf, h => by
    obtain rfl : buf = 128 := by simp at h; omega
    rw [putsLoop, if_neg (by omega)]
    simp
  | c :: s, buf, σ, hbuf, h => by
    rw [List.length_cons] at h
    rw [putsLoop]
    split_ifs with hlt
    · obtain ⟨hrest, hbytes⟩ := putsLoop_long s (buf + 1) (σ.store buf c) (by omega) (by omega)
      rw [range_map_store] at hbytes
      rw [show 128 - buf = 128 - (buf + 1) + 1 by omega, List.drop_succ_cons, List.take_succ_cons]
      exact ⟨hrest, by rw [hbytes]; simp⟩
    · obtain rfl : buf = 128 := by omega
      simp

theorem int_neg_iff (n : ℕ) : (BitVec.ofNat 32 n).toInt < 0 ↔ 2 ^ 31 ≤ n % 2 ^ 32 := by
  rw [BitVec.toInt_neg_iff, BitVec.toNat_ofNat]
  omega

/-- One character of `printf`. -/
theorem printbufPutc_spec (hlen : σ.printbuflen < 128) (hst : ∀ o ∈ σ.stores, o < 128) :
    ∃ p len w st, (printbufPutc c σ).2 = { σ with printbuf := p, printbuflen := len, written := w, stores := st } ∧
      w ++ (List.range len).map p = σ.written ++ σ.pending ++ [c] ∧ len < 128 ∧ ∀ o ∈ st, o < 128 := by
  have hbytes := range_map_store σ σ.printbuflen c
  have hst' : ∀ o ∈ σ.printbuflen :: σ.stores, o < 128 := List.forall_mem_cons.mpr ⟨hlen, hst⟩
  rw [printbufPutc]
  dsimp only
  split_ifs with h
  · refine ⟨(σ.store σ.printbuflen c).printbuf, 0, _, _, rfl, ?_, by omega, hst'⟩
    simpa [State.pending, State.store] using hbytes
  · refine ⟨_, _, _, _, rfl, ?_, by omega, hst'⟩
    rw [List.append_assoc]
    exact congrArg (σ.written ++ ·) hbytes

/-! ## Steps -/

/-- What every step of a run keeps. -/
structure Inv (σ : State) : Prop extends Exact σ where
  below : σ.printbuflen < 128
  empty : σ.site = .newline → σ.printbuflen = 0
  rest : ∀ s, σ.site = .rest s → σ.printbuflen = 0 ∧ s.length % 2 ^ 32 < 2 ^ 31

theorem inv_init (printbuf : ℕ → UInt8) : Inv (.init printbuf) where
  output := rfl
  produced := rfl
  len_lt := fun _ => by simp [State.init]
  stores := List.forall_mem_nil _
  below := by simp [State.init]
  empty := by simp [State.init]
  rest := by simp [State.init]

/-- A `puts` whose string and newline fit. -/
theorem putsStart_short (hst : ∀ o ∈ σ.stores, o < 128) (h : σ.printbuflen + s.length < 128) :
    ∃ p st, putsStart s σ = { σ with
      printbuf := p, printbuflen := 0, site := .ready, written := σ.written ++ (σ.pending ++ s ++ [10]),
        stores := st,
      returned := σ.returned ++ [0], produced := σ.produced ++ (s ++ [10]) } ∧ ∀ o ∈ st, o < 128 := by
  obtain ⟨p, st, hσ, hst'⟩ := putsLoop_frame s σ.printbuflen σ hst
  obtain ⟨hfill, hbytes⟩ := putsLoop_short s σ.printbuflen σ h
  have hloop : putsLoop s σ.printbuflen σ =
      (.inl (σ.printbuflen + s.length + 1), { σ with printbuf := p, stores := st }) :=
    Prod.ext hfill hσ
  have hpos : ¬ (BitVec.ofNat 32 (σ.printbuflen + s.length + 1)).toInt < 0 := by
    rw [int_neg_iff]
    omega
  rw [hσ] at hbytes
  refine ⟨p, st, ?_, hst'⟩
  rw [putsStart, hloop]
  simp only [printbufFlush, toStdout, State.finish, List.length_map, List.length_range, if_neg hpos]
  rw [hbytes]
  rfl

/-- A `puts` that fills the buffer. -/
theorem putsStart_long (hst : ∀ o ∈ σ.stores, o < 128) (hlen : σ.printbuflen < 128)
    (h : 128 ≤ σ.printbuflen + s.length) :
    ∃ p st, putsStart s σ = { σ with
      printbuf := p, printbuflen := 0, site := .rest (s.drop (128 - σ.printbuflen)),
      written := σ.written ++ (σ.pending ++ s.take (128 - σ.printbuflen)), stores := st,
      produced := σ.produced ++ s.take (128 - σ.printbuflen) } ∧ ∀ o ∈ st, o < 128 := by
  obtain ⟨p, st, hσ, hst'⟩ := putsLoop_frame s σ.printbuflen σ hst
  obtain ⟨hfill, hbytes⟩ := putsLoop_long s σ.printbuflen σ (by omega) h
  have hloop : putsLoop s σ.printbuflen σ =
      (.inr (s.drop (128 - σ.printbuflen)), { σ with printbuf := p, stores := st }) := Prod.ext hfill hσ
  have hpos : ¬ (BitVec.ofNat 32 128).toInt < 0 := by
    rw [int_neg_iff]
    omega
  have htaken : s.length - (s.drop (128 - σ.printbuflen)).length = 128 - σ.printbuflen := by
    rw [List.length_drop]
    omega
  rw [hσ] at hbytes
  refine ⟨p, st, ?_, hst'⟩
  rw [putsStart, hloop]
  simp only [printbufFlush, toStdout, List.length_map, List.length_range, if_neg hpos, htaken]
  rw [hbytes]
  rfl

/-- The step behind the first `write` of `puts`. -/
theorem step_rest (hsite : σ.site = .rest s) :
    step σ .go = some (if 2 ^ 31 ≤ s.length % 2 ^ 32 then
      { σ with
        site := .ready, written := σ.written ++ s, returned := σ.returned ++ [eof],
        produced := σ.produced ++ (s ++ [10]) }
      else { σ with site := .newline, written := σ.written ++ s, produced := σ.produced ++ s }) := by
  simp only [step, hsite, toStdout, State.finish, int_neg_iff]
  split_ifs <;> rfl

theorem step_newline (hsite : σ.site = .newline) : ∃ ret, step σ .go = some { σ with
    site := .ready, written := σ.written ++ [10], returned := σ.returned ++ [ret],
    produced := σ.produced ++ [10] } := by
  simp only [step, hsite, toStdout, State.finish]
  exact ⟨_, rfl⟩

theorem Inv.puts (h : Inv σ) (hsite : σ.site = .ready)
    (hfit : (s.length - (128 - σ.printbuflen)) % 2 ^ 32 < 2 ^ 31) :
    Inv (putsStart s { σ with calls := σ.calls ++ [.puts s] }) := by
  have hcalls : σ.produced ++ (s ++ [10]) = (σ.calls ++ [Call.puts s]).flatMap Call.chars := by
    have hprod := h.produced
    rw [hsite, Site.toCome, List.append_nil] at hprod
    rw [hprod]
    simp [Call.chars]
  rcases Nat.lt_or_ge (σ.printbuflen + s.length) 128 with hs | hs
  · obtain ⟨p, st, hσ, hst⟩ := putsStart_short (σ := { σ with calls := σ.calls ++ [.puts s] }) h.stores hs
    rw [hσ]
    refine ⟨⟨?_, by simpa [Site.toCome] using hcalls, by simp, hst⟩, by simp, by simp, by simp⟩
    rw [← h.output]
    simp [State.pending]
  · obtain ⟨p, st, hσ, hst⟩ := putsStart_long (σ := { σ with calls := σ.calls ++ [.puts s] }) h.stores h.below hs
    rw [hσ]
    refine ⟨⟨?_, ?_, by simp, hst⟩, by simp, by simp, ?_⟩
    · rw [← h.output]
      simp [State.pending]
    · rw [← hcalls, Site.toCome, ← List.append_assoc, List.append_assoc σ.produced, List.take_append_drop,
        List.append_assoc]
    · rintro t ht
      obtain rfl : s.drop (128 - σ.printbuflen) = t := Site.rest.inj ht
      exact ⟨rfl, by rwa [List.length_drop]⟩

theorem Inv.step {e : Event} (h : Inv σ) (hf : Fits σ e) (hs : step σ e = some σ') : Inv σ' := by
  have hprod := h.produced
  cases hsite : σ.site with
  | ready =>
    rw [hsite] at hprod
    cases e with
    | go => simp [Stdio.step, hsite] at hs
    | call c =>
      cases c with
      | printf cs =>
        obtain rfl : _ = σ' := by simpa [Stdio.step, hsite] using hs
        refine ⟨⟨h.output, ?_, by simp, h.stores⟩, h.below, by simp, by simp⟩
        simpa [Site.toCome, Call.chars] using hprod
      | vprintf cs =>
        obtain rfl : _ = σ' := by simpa [Stdio.step, hsite] using hs
        refine ⟨⟨h.output, ?_, by simp, h.stores⟩, h.below, by simp, by simp⟩
        simpa [Site.toCome, Call.chars] using hprod
      | puts s =>
        obtain rfl : _ = σ' := by simpa [Stdio.step, hsite] using hs
        have hputs := h.puts hsite hf
        rwa [hsite] at hputs
  | printing cs len =>
    rw [hsite] at hprod
    cases e with
    | call c => simp [Stdio.step, hsite] at hs
    | go =>
      cases cs with
      | nil =>
        obtain rfl : _ = σ' := by simpa [Stdio.step, hsite] using hs
        refine ⟨⟨?_, by simpa [Site.toCome, State.finish] using hprod, fun _ => h.below, h.stores⟩,
          h.below, by simp [State.finish],
          by simp [State.finish]⟩
        simpa [State.finish, State.pending] using h.output
      | cons c cs =>
        obtain ⟨p, n, w, st, hput, hbytes, hn, hst⟩ := printbufPutc_spec (c := c) h.below h.stores
        obtain rfl : _ = σ' := by simpa [Stdio.step, hsite, printfChar, hput] using hs
        refine ⟨⟨?_, by simpa [Site.toCome] using hprod, by simp, hst⟩, hn, by simp, by simp⟩
        rw [State.pending, hbytes, h.output]
  | rest s =>
    rw [hsite] at hprod
    obtain ⟨hlen, hfit⟩ := h.rest s hsite
    cases e with
    | call c => simp [Stdio.step, hsite] at hs
    | go =>
      rw [step_rest hsite, if_neg (by omega)] at hs
      obtain rfl := Option.some.inj hs
      refine ⟨⟨?_, by simpa [Site.toCome] using hprod, by simp, h.stores⟩, h.below, fun _ => hlen, by simp⟩
      rw [← h.output]
      simp [State.pending, hlen]
  | newline =>
    rw [hsite] at hprod
    have hlen := h.empty hsite
    cases e with
    | call c => simp [Stdio.step, hsite] at hs
    | go =>
      obtain ⟨ret, hgo⟩ := step_newline hsite
      rw [hgo] at hs
      obtain rfl := Option.some.inj hs
      refine ⟨⟨?_, by simpa [Site.toCome] using hprod, fun _ => h.below, h.stores⟩, h.below, by simp, by simp⟩
      rw [← h.output]
      simp [State.pending, hlen]

/-- A `puts` that does not fit returns without its newline. -/
theorem Inv.puts_lost (h : Inv σ) (hsite : σ.site = .ready) (hfit : ¬ Fits σ (.call (.puts s))) :
    ∃ σ₁ σ₂, Stdio.step σ (.call (.puts s)) = some σ₁ ∧ Stdio.step σ₁ .go = some σ₂ ∧
      σ₂.site = .ready ∧ ¬ Exact σ₂ := by
  have hneg : 2 ^ 31 ≤ (s.length - (128 - σ.printbuflen)) % 2 ^ 32 := Nat.le_of_not_lt hfit
  have hlong : 128 ≤ σ.printbuflen + s.length := by omega
  have hfirst : Stdio.step σ (.call (.puts s)) = some (putsStart s { σ with calls := σ.calls ++ [.puts s] }) := by
    simp only [Stdio.step, hsite]
  obtain ⟨p, st, hσ, -⟩ := putsStart_long (σ := { σ with calls := σ.calls ++ [.puts s] }) h.stores h.below hlong
  rw [hσ] at hfirst
  have hsecond := step_rest (σ := putsStart s { σ with calls := σ.calls ++ [.puts s] }) (by rw [hσ])
  rw [hσ, List.length_drop, if_pos hneg] at hsecond
  refine ⟨_, _, hfirst, hsecond, rfl, fun hexact => ?_⟩
  have hout := congrArg List.length hexact.output
  have hold := congrArg List.length h.output
  simp [State.pending] at hout hold
  omega

/-! ## Runs of calls -/

open Lib.Run in
/-- In every run in which `puts` never writes past the buffer as much as is negative as an `int`, nothing is lost;
the first `puts` that does loses its newline. -/
theorem console_exact (printbuf : ℕ → UInt8) :
    (∀ σ, Reach step Fits (.init printbuf) σ → Exact σ) ∧
      ∀ σ s, Reach step Fits (.init printbuf) σ → σ.site = .ready → ¬ Fits σ (.call (.puts s)) →
        ∃ σ₁ σ₂, step σ (.call (.puts s)) = some σ₁ ∧ step σ₁ .go = some σ₂ ∧ σ₂.site = .ready ∧ ¬ Exact σ₂ := by
  have hinv : ∀ σ, Reach step Fits (.init printbuf) σ → Inv σ := by
    intro σ hσ
    exact hσ.invariant (inv_init printbuf) fun _ _ _ h hf hs => h.step hf hs
  refine ⟨fun σ hσ => (hinv σ hσ).toExact, ?_⟩
  intro σ s hσ hsite hfit
  exact (hinv σ hσ).puts_lost hsite hfit

/-- `printf` of 120 characters. -/
def printed : List Event := .call (.printf (List.replicate 120 97)) :: List.replicate 121 .go

/-- `puts` of 20 more. -/
def put : List Event := [.call (.puts (List.replicate 20 98)), .go, .go]

open Lib.Run in
/-- A `printf` and a `puts` that together fill the buffer and go past it, and a newline at the end. -/
theorem console_exact_b : ∃ σ, Reach step Fits (.init fun _ => 0) σ ∧
    σ.written = List.replicate 120 97 ++ List.replicate 20 98 ++ [10] ∧ Exact σ := by
  have hwaits : (printed.foldlM step (.init fun _ => 0)).map (·.printbuflen) = some 120 := by decide +kernel
  have hrun : ((printed ++ put).foldlM step (.init fun _ => 0)).map
      (·.written) = some (List.replicate 120 97 ++ List.replicate 20 98 ++ [10]) := by decide +kernel
  obtain ⟨σ, hs, hwritten⟩ := Option.map_eq_some_iff.mp hrun
  rw [List.foldlM_append, Option.bind_eq_bind, Option.bind_eq_some_iff] at hs
  obtain ⟨σ₁, hprinted, hs⟩ := hs
  rw [put, List.foldlM_cons, Option.bind_eq_bind, Option.bind_eq_some_iff] at hs
  obtain ⟨σ₂, hputs, hs⟩ := hs
  rw [hprinted, Option.map_some, Option.some_inj] at hwaits
  have hfit : Fits σ₁ (.call (.puts (List.replicate 20 98))) := by
    rw [Fits, hwaits]
    decide
  have hfirst : Reach step Fits (.init fun _ => 0) σ₁ :=
    Reach.of_foldlM .start printed (by simp [printed, Fits]) hprinted
  have hreach : Reach step Fits (.init fun _ => 0) σ :=
    Reach.of_foldlM (.next hfirst hfit hputs) [.go, .go] (by simp [Fits]) hs
  exact ⟨σ, hreach, hwritten, (console_exact fun _ => 0).1 σ hreach⟩

open Lib.Run in
/-- A string of `2 ^ 31 + 128` characters on an empty buffer. -/
theorem puts_loses_newline : ¬ ∀ σ, Reach step (fun _ _ => True) (.init fun _ => 0) σ → Exact σ := by
  intro hall
  have hfit : ¬ Fits (.init fun _ => 0) (.call (.puts (List.replicate (2 ^ 31 + 128) 97))) := by
    rw [Fits, List.length_replicate]
    simp [State.init]
  obtain ⟨σ₁, σ₂, h₁, h₂, -, hbad⟩ := (inv_init fun _ => 0).puts_lost rfl hfit
  exact hbad (hall σ₂ (.next (.next .start trivial h₁) trivial h₂))

end Soceteer.Stdio
