import Soceteer.Lib.Cint
import Mathlib.Data.List.Basic
import Mathlib.Data.Nat.Notation
import Mathlib.Logic.Function.Basic
import Mathlib.Tactic.SplitIfs

/-!
# Soceteer.Glue.Uart — `read` and `write` on the UART

`soct_handle_uart` (`syscall-uart.c`) serves the console: a character waits until the transmit FIFO has room, and a
newline is sent as two characters.

* `Bus`: the accesses of a hart, to the buffer of a call and to the registers of the UART.
* `kputc`, `kputs`, `kgetc`, `soctHandleUart`: the functions, with the trace of their accesses.
* `WriteExact`: a sequence of calls of `write` sends the bytes it is given, reads no others, and returns their
  numbers.
* `writeExact_iff`: which sequences do.
-/

namespace Soceteer.Glue

open Lib

/-! ## The functions -/

/-- An access of the hart: the load or the store of a byte, a load of the status register, a store to the transmit
FIFO or a load from the receive FIFO. -/
inductive Bus
  | load (a : ℕ)
  | store (a : ℕ) (c : UInt8)
  | status (busy : Bool)
  | tx (c : UInt8)
  | rx (c : UInt8)

def Bus.sent? : Bus → Option UInt8
  | tx c => some c
  | _ => none

def Bus.loaded? : Bus → Option ℕ
  | load a => some a
  | _ => none

/-- The characters stored to the transmit FIFO. -/
def sent (tr : List Bus) : List UInt8 := tr.filterMap Bus.sent?

/-- The addresses of the bytes read. -/
def loaded (tr : List Bus) : List ℕ := tr.filterMap Bus.loaded?

/-- The other side of the line: how often the FIFO is found full before the next character goes out, how often none
has come in yet, and the characters that come in. -/
structure Line where
  full : ℕ → ℕ
  empty : ℕ → ℕ
  input : ℕ → UInt8

variable (x : Xlen) (L : Line)

/-- The wait for room, then the store. -/
def putTx (ch : UInt8) (tr : List Bus) : List Bus :=
  tr ++ List.replicate (L.full (sent tr).length) (.status true) ++ [.status false, .tx ch]

def kputc (ch : UInt8) (tr : List Bus) : List Bus :=
  if ch = 10 then putTx L ch (putTx L 13 tr) else putTx L ch tr

/-- `while (*s) kputc(*s++)`, with `room` bytes from `s` to the end of the address space. -/
def kputsUntilNul (mem : ℕ → UInt8) : ℕ → ℕ → List Bus → Option (List Bus)
  | 0, _, _ => none
  | room + 1, s, tr =>
    let tr := tr ++ [.load s]
    if mem s = 0 then some tr
    else kputsUntilNul mem room (s + 1) (kputc L (mem s) (tr ++ [.load s]))

/-- `for (size_t i = 0; i < nbyte; i++) kputc(s[i])`, with the rest of the loop. -/
def kputsCount (mem : ℕ → UInt8) : ℕ → ℕ → List Bus → List Bus
  | 0, _, tr => tr
  | n + 1, s, tr => kputsCount mem n (s + 1) (kputc L (mem s) (tr ++ [.load s]))

def kputs (mem : ℕ → UInt8) (s nbyte : ℕ) (tr : List Bus) : Option (List Bus) :=
  if nbyte = 0 then kputsUntilNul L mem (2 ^ x.bits - s) s tr else some (kputsCount L mem nbyte s tr)

def kgetc (tr : List Bus) : UInt8 × List Bus :=
  let k := (tr.filter fun | .rx _ => true | _ => false).length
  (L.input k, tr ++ List.replicate (L.empty k) (.status false) ++ [.status true, .rx (L.input k)])

/-- The loop of `SOCT_READ`, with the rest of it. -/
def kgets : ℕ → ℕ → List Bus → List Bus
  | 0, _, tr => tr
  | n + 1, buf, tr =>
    let (c, tr) := kgetc L tr
    kgets n (buf + 1) (tr ++ [.store buf c])

/-- A handler's answer: `SOCT_HANDLER_PASS`, or `SOCT_HANDLER_HANDLED` with `ret`. -/
inductive Resp
  | pass
  | handled (ret : BitVec 64)
deriving DecidableEq

def efault : BitVec 64 := 14

/-- `soct_handle_uart`; numbers of bytes are `size_t`s and become `long`s. -/
def soctHandleUart (mem : ℕ → UInt8) (syscall : BitVec 32) (a0 a1 a2 : BitVec 64) (tr : List Bus) :
    Option (Resp × List Bus) :=
  let nbyte := a2.setWidth x.bits
  let ptr := (a1.setWidth x.bits).toNat
  if syscall = 0 then
    if a0 = 0 then
      if 0 < nbyte.toNat ∧ a1 = 0 then some (.handled (-efault), tr)
      else some (.handled (nbyte.signExtend 64), kgets L nbyte.toNat ptr tr)
    else some (.pass, tr)
  else if syscall = 1 then
    if a0 = 1 ∨ a0 = 2 then
      if 0 < nbyte.toNat ∧ a1 = 0 then some (.handled (-efault), tr)
      else (kputs x L mem ptr nbyte.toNat tr).map fun tr => (.handled (nbyte.signExtend 64), tr)
    else some (.pass, tr)
  else some (.pass, tr)

/-- A call of `write` on `stdout` or `stderr`, with the memory at the time and a buffer that is not at address
zero. -/
structure WriteCall where
  mem : ℕ → UInt8
  fd : BitVec 64
  buf : BitVec x.bits
  n : BitVec x.bits
  console : fd = 1 ∨ fd = 2
  valid : buf ≠ 0

/-- The bytes of the buffer. -/
def WriteCall.bytes {x : Xlen} (c : WriteCall x) : List UInt8 := (List.range' c.buf.toNat c.n.toNat).map c.mem

def WriteCall.handle {x : Xlen} (c : WriteCall x) (tr : List Bus) : Option (Resp × List Bus) :=
  soctHandleUart x L c.mem 1 c.fd (c.buf.setWidth 64) (c.n.setWidth 64) tr

/-- A character on the line: a newline has a carriage return before it. -/
def onLine (ch : UInt8) : List UInt8 := if ch = 10 then [13, 10] else [ch]

/-- Call after call: the bytes of the buffer and no others are sent and read, and their number is returned. -/
def WriteExact {x : Xlen} : List (WriteCall x) → List Bus → Prop
  | [], _ => True
  | c :: cs, tr => ∃ ret tr', c.handle L tr = some (.handled ret, tr') ∧ ret.toInt = c.n.toNat ∧
      sent tr' = sent tr ++ c.bytes.flatMap onLine ∧ loaded tr' = loaded tr ++ List.range' c.buf.toNat c.n.toNat ∧
      WriteExact cs tr'

/-! ## What is sent and what is read -/

variable {L} {x} {ch : UInt8} {tr tr' : List Bus} {mem : ℕ → UInt8} {s n : ℕ}

@[simp] theorem sent_append (t u : List Bus) : sent (t ++ u) = sent t ++ sent u := List.filterMap_append

theorem sent_putTx : sent (putTx L ch tr) = sent tr ++ [ch] := by
  have hwait : sent (List.replicate (L.full (sent tr).length) (Bus.status true)) = [] := by
    simp [sent, Bus.sent?, List.filterMap_replicate]
  rw [putTx, sent_append, sent_append, hwait, List.append_nil]
  rfl

theorem loaded_putTx : loaded (putTx L ch tr) = loaded tr := by
  simp [putTx, loaded, Bus.loaded?, List.filterMap_replicate]

theorem sent_kputc : sent (kputc L ch tr) = sent tr ++ onLine ch := by
  unfold kputc onLine
  split_ifs with h
  · rw [sent_putTx, sent_putTx, h, List.append_assoc]
    rfl
  · exact sent_putTx

theorem loaded_kputc : loaded (kputc L ch tr) = loaded tr := by
  unfold kputc
  split_ifs
  · rw [loaded_putTx, loaded_putTx]
  · exact loaded_putTx

theorem kputsCount_spec : ∀ (n s : ℕ) (tr : List Bus),
    sent (kputsCount L mem n s tr) = sent tr ++ ((List.range' s n).map mem).flatMap onLine ∧
      loaded (kputsCount L mem n s tr) = loaded tr ++ List.range' s n
  | 0, s, tr => by simp [kputsCount]
  | n + 1, s, tr => by
    obtain ⟨hsent, hloaded⟩ := kputsCount_spec n (s + 1) (kputc L (mem s) (tr ++ [.load s]))
    rw [kputsCount, hsent, hloaded, sent_kputc, loaded_kputc, List.range'_succ]
    simp [sent, loaded, Bus.sent?, Bus.loaded?]

/-- The loop over a string reads on behind what was read before, and it reads the first byte. -/
theorem loaded_kputsUntilNul : ∀ (room s : ℕ) (tr : List Bus), kputsUntilNul L mem room s tr = some tr' →
    ∃ l, loaded tr' = loaded tr ++ s :: l
  | 0, s, tr, h => absurd h (by simp [kputsUntilNul])
  | room + 1, s, tr, h => by
    rw [kputsUntilNul] at h
    split_ifs at h with hz
    · obtain rfl := Option.some.inj h
      exact ⟨[], by simp [loaded, Bus.loaded?]⟩
    · obtain ⟨l, hl⟩ := loaded_kputsUntilNul room (s + 1) _ h
      rw [loaded_kputc] at hl
      exact ⟨s :: (s + 1) :: l, by rw [hl]; simp [loaded, Bus.loaded?]⟩

/-- The number of bytes as it is returned. -/
theorem ret_eq_iff (n : BitVec x.bits) : (n.signExtend 64).toInt = n.toNat ↔ n.toNat < 2 ^ (x.bits - 1) := by
  have hle : x.bits ≤ 64 := by cases x <;> simp [Xlen.bits]
  rw [BitVec.toInt_signExtend_of_le hle, BitVec.toInt_eq_toNat_cond]
  cases x <;> simp only [Xlen.bits] at * <;> split_ifs <;> omega

/-- The answer to a call of `write`. -/
theorem WriteCall.handle_eq (c : WriteCall x) (tr : List Bus) :
    c.handle L tr = (kputs x L c.mem c.buf.toNat c.n.toNat tr).map fun tr =>
      (.handled (c.n.signExtend 64), tr) := by
  have hle : x.bits ≤ 64 := by cases x <;> simp [Xlen.bits]
  have hn : (c.n.setWidth 64).setWidth x.bits = c.n := by
    rw [BitVec.setWidth_setWidth_of_le _ hle, BitVec.setWidth_eq]
  have hbuf : (c.buf.setWidth 64).setWidth x.bits = c.buf := by
    rw [BitVec.setWidth_setWidth_of_le _ hle, BitVec.setWidth_eq]
  have hvalid : ¬ c.buf.setWidth 64 = 0 := by
    intro hz
    rw [hz] at hbuf
    exact c.valid (by rw [← hbuf]; simp)
  simp only [handle, soctHandleUart, hn, hbuf]
  rw [if_neg (by decide), if_pos trivial, if_pos c.console, if_neg fun h => hvalid h.2]

/-- A call for no bytes reads the first byte of its buffer. -/
theorem WriteCall.loaded_of_zero {c : WriteCall x} {r : Resp} (hz : c.n.toNat = 0)
    (hh : c.handle L tr = some (r, tr')) :
    ∃ l, loaded tr' = loaded tr ++ c.buf.toNat :: l := by
  rw [c.handle_eq, Option.map_eq_some_iff, kputs, if_pos hz] at hh
  obtain ⟨t, hk, hh⟩ := hh
  obtain ⟨-, rfl⟩ := Prod.mk.inj hh
  exact loaded_kputsUntilNul _ _ _ hk

/-- A sequence of calls is served exactly when none of them asks for zero bytes, and none for as many as are
negative as a `long`. -/
theorem writeExact_iff (cs : List (WriteCall x)) (tr : List Bus) :
    WriteExact L cs tr ↔ ∀ c ∈ cs, 0 < c.n.toNat ∧ c.n.toNat < 2 ^ (x.bits - 1) := by
  induction cs generalizing tr with
  | nil => simp [WriteExact]
  | cons c cs ih =>
    rw [List.forall_mem_cons, WriteExact]
    constructor
    · rintro ⟨ret, tr', hh, hret, -, hloaded, hrest⟩
      refine ⟨⟨Nat.pos_of_ne_zero fun hz => ?_, ?_⟩, (ih tr').mp hrest⟩
      · obtain ⟨l, hl⟩ := c.loaded_of_zero hz hh
        rw [hl, hz] at hloaded
        simp at hloaded
      · rw [c.handle_eq, Option.map_eq_some_iff] at hh
        obtain ⟨t, -, hh⟩ := hh
        obtain rfl := Resp.handled.inj (Prod.mk.inj hh).1
        exact (ret_eq_iff c.n).mp hret
    · rintro ⟨⟨hpos, hlt⟩, hrest⟩
      obtain ⟨hsent, hloaded⟩ := @kputsCount_spec L c.mem c.n.toNat c.buf.toNat tr
      refine ⟨c.n.signExtend 64, _, ?_, (ret_eq_iff c.n).mpr hlt, hsent, hloaded, (ih _).mpr hrest⟩
      rw [c.handle_eq, kputs, if_neg (by omega)]
      rfl

/-- A line that is always ready. -/
def Line.ready : Line := ⟨fun _ => 0, fun _ => 0, fun _ => 0⟩

/-- `write(1, "A", 0)` with a string at `0x80000000`. -/
def emptyWrite : WriteCall .rv64 where
  mem := fun a => if a = 0x80000000 then 65 else 0
  fd := 1
  buf := 0x80000000
  n := 0
  console := Or.inl rfl
  valid := by decide

/-- A call for zero bytes reads from the string at its address. -/
theorem emptyWrite_not_exact : ¬ WriteExact Line.ready [emptyWrite] [] := by
  rintro ⟨ret, tr', hh, -, -, hloaded, -⟩
  obtain ⟨l, hl⟩ := WriteCall.loaded_of_zero rfl hh
  rw [hl] at hloaded
  simp [emptyWrite] at hloaded

end Soceteer.Glue
