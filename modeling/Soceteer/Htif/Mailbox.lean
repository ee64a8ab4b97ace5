import Soceteer.Lib.Run
import Mathlib.Algebra.GroupWithZero.Nat
import Mathlib.Data.Fintype.Basic
import Mathlib.Tactic.FinCases

/-!
# Soceteer.Htif.Mailbox — two words between the harts and the host

A hart hands the address of eight words to the host in `tohost` and waits for `fromhost` (`syscall-htif.c`); the
host loop takes the command, clears the word, handles it, queues the response and writes it when `fromhost` is zero
(`htif_t::run`, `syscall_device_t::handle_syscall`).  Every access to shared memory is a step of its own, and so is
every store of a handler into the memory that the command names.

* `htifTohost`, `Cmd.device`, `Cmd.cmd`, `Cmd.payload`, `Cmd.respond`: the format of a command.
* `dataArea`: the memory that the handler of a command may store into.
* `Call`, `Hart`, `Host`, `Sys`: the harts in `htif_syscall`, the host in `run`, and what they share.
* `hartStep`, `hostStep`, `dataStep`, `serveStep`, `step`: their steps.
-/

namespace Soceteer.Htif

/-- `sc_htif_slot_t` and `sc_arg_t`. -/
abbrev Word := BitVec 64

/-- `htif_tohost`, whose only device and command is number 0. -/
def htifTohost (dev cmd : BitVec 8) (payload : Word) : Word :=
  dev.setWidth 64 <<< 56 ||| cmd.setWidth 64 <<< 48 ||| payload &&& BitVec.ofNat 64 (2 ^ 48 - 1)

namespace Cmd

def device (tohost : Word) : BitVec 8 := (tohost >>> 56).setWidth 8

def cmd (tohost : Word) : BitVec 8 := (tohost >>> 48).setWidth 8

def payload (tohost : Word) : Word := tohost <<< 16 >>> 16

/-- The value `respond` hands to the callback. -/
def respond (tohost resp : Word) : Word := tohost >>> 48 <<< 48 ||| resp <<< 16 >>> 16

end Cmd

/-- A buffer has a first word. -/
scoped instance neZero_words : NeZero 8 := ⟨by decide⟩

/-! ## Memory -/

/-- A piece of memory: the address of its first byte, and how many bytes it has. -/
structure Area where
  start : ℕ
  bytes : ℕ

/-- The area has a byte among the `n` bytes from `a` on. -/
def Area.Meets (d : Area) (a n : ℕ) : Prop := max d.start a < min (d.start + d.bytes) (a + n)

instance (d : Area) (a n : ℕ) : Decidable (d.Meets a n) := inferInstanceAs (Decidable (_ < _))

/-- The addresses of the words that the harts and the host share: `tohost`, `fromhost` and the one `htif_lock` is
in. -/
structure Words where
  tohost : ℕ
  fromhost : ℕ
  lock : ℕ
  aligned : 8 ∣ tohost ∧ 8 ∣ fromhost ∧ 8 ∣ lock

/-- The words that are shared, from `0x80001000` on, for runs on fixed inputs. -/
def exampleWords : Words := ⟨0x80001000, 0x80001008, 0x80001040, by omega⟩

/-- The area has no byte in a word that is shared. -/
def Words.Clear (w : Words) (d : Area) : Prop := ¬ d.Meets w.tohost 8 ∧ ¬ d.Meets w.fromhost 8 ∧ ¬ d.Meets w.lock 8

instance (w : Words) (d : Area) : Decidable (w.Clear d) := inferInstanceAs (Decidable (_ ∧ _ ∧ _))

/-- `SOCT_READ`. -/
def sysRead : BitVec 32 := 0

/-- `SOCT_FSTAT`. -/
def sysFstat : BitVec 32 := 5

/-- `SOCT_GET_MAINVARS`. -/
def sysGetMainvars : BitVec 32 := 2011

/-- `SOCT_HTIF_DEV_TEST`. -/
def devTest : BitVec 32 := 2012

/-- The size of `soct_stat`. -/
def sizeofStat : ℕ := 88

/-- The memory that the handler of a command may store into: `len` bytes at `pbuf`, a `soct_stat` at `pbuf`,
`limit` bytes at `pbuf`.  The other handlers store nothing. -/
def dataArea (htifMem : Fin 8 → Word) : Area :=
  let syscall : BitVec 32 := (htifMem 0).setWidth 32
  if syscall = sysRead then ⟨(htifMem 2).toNat, (htifMem 3).toNat⟩
  else if syscall = sysFstat then ⟨(htifMem 2).toNat, sizeofStat⟩
  else if syscall = sysGetMainvars then ⟨(htifMem 1).toNat, (htifMem 2).toNat⟩
  else ⟨0, 0⟩

/-! ## State -/

/-- A call of `htif_syscall`: its buffer, the eight words in it, and whether it waits for ever.  A buffer is
aligned, is not at address zero, and its address fits the payload. -/
structure Call where
  buf : ℕ
  args : Fin 8 → Word
  wait : Bool
  pos : 0 < buf
  aligned : 8 ∣ buf
  fits : buf + 64 ≤ 2 ^ 48

/-- A call with its buffer at `0x80010000`, for runs on fixed inputs. -/
def Call.ofArgs (args : Fin 8 → Word) (wait : Bool) : Call where
  buf := 0x80010000
  args := args
  wait := wait
  pos := by omega
  aligned := by omega
  fits := by omega

/-- The address of a word of a buffer. -/
def Call.word (c : Call) (i : Fin 8) : ℕ := c.buf + 8 * i

/-- The memory that a call's arguments name. -/
def Call.area (c : Call) : Area := dataArea c.args

/-- What a caller owes: the buffer is none of the shared words, and the memory that the arguments name ends in the
address space and has neither a byte of the buffer nor one of a shared word. -/
def Call.Private (w : Words) (c : Call) : Prop :=
  w.Clear ⟨c.buf, 64⟩ ∧ c.area.start + c.area.bytes ≤ 2 ^ 64 ∧ ¬ c.area.Meets c.buf 64 ∧ w.Clear c.area

instance (w : Words) (c : Call) : Decidable (c.Private w) := inferInstanceAs (Decidable (_ ∧ _ ∧ _ ∧ _))

/-- The buffers of two calls do not overlap, and neither call names memory in the other's buffer. -/
def Call.Apart (c c' : Call) : Prop :=
  (c.buf + 64 ≤ c'.buf ∨ c'.buf + 64 ≤ c.buf) ∧ ¬ c.area.Meets c'.buf 64 ∧ ¬ c'.area.Meets c.buf 64

instance (c c' : Call) : Decidable (c.Apart c') := inferInstanceAs (Decidable (_ ∧ _ ∧ _))

/-- Where a hart is in `htif_syscall`; `k` is the number of its command. -/
inductive Hart
  | idle
  | fill (c : Call) (i : Fin 8)
  | lock (c : Call)
  | post (c : Call)
  | spin (c : Call) (k : ℕ)
  | clock (c : Call) (k : ℕ)
  | ack (c : Call) (k : ℕ)
  | unlock (c : Call) (k : ℕ) (answered : Bool)
  | ret (c : Call) (k : ℕ)

/-- The call a hart is in. -/
def Hart.call? : Hart → Option Call
  | idle => none
  | fill c _ => some c
  | lock c => some c
  | post c => some c
  | spin c _ => some c
  | clock c _ => some c
  | ack c _ => some c
  | unlock c _ _ => some c
  | ret c _ => some c

/-- Where the host is in `run`.  `crashed` is an exception. -/
inductive Host
  | head
  | clear (tohost : Word)
  | read (tohost : Word) (i : Fin 8) (htifMem : Fin 8 → Word)
  | serve (tohost : Word) (htifMem : Fin 8 → Word)
  | write (tohost : Word) (i : Fin 8) (htifMem : Fin 8 → Word)
  | respond (tohost : Word)
  | checkFrom
  | decide (fromhost : Word)
  | done
  | crashed

/-- The word of a buffer that the next step of the host loads or stores. -/
def Host.touches : Host → Option ℕ
  | .read v i _ => some ((Cmd.payload v).toNat + 8 * i)
  | .write v i _ => some ((Cmd.payload v).toNat + 8 * i)
  | _ => none

/-- What has gone by: the commands posted, those handled with their results, the numbers of the commands whose
responses were taken, in order, the calls that have returned a value, and the probes that have given up. -/
structure Log where
  posted : List Call
  handled : List ((Fin 8 → Word) × Word)
  acked : List ℕ
  returned : List (ℕ × Call × Word)
  timedOut : List Call

structure Sys (H : Type) where
  words : Words
  tohost : Word
  fromhost : Word
  lock : Bool
  mem : ℕ → Word
  hart : H → Hart
  host : Host
  queue : List Word
  exited : Bool
  log : Log

/-- Both words are zero, no hart is in a call, and the host is at the head of its loop. -/
def init (H : Type) (words : Words) (mem : ℕ → Word) : Sys H where
  words := words
  tohost := 0
  fromhost := 0
  lock := false
  mem := mem
  hart := fun _ => .idle
  host := .head
  queue := []
  exited := false
  log := ⟨[], [], [], [], []⟩

/-! ## Steps -/

variable {H : Type} [DecidableEq H] [Fintype H]

def Sys.setHart (s : Sys H) (h : H) (p : Hart) : Sys H := { s with hart := Function.update s.hart h p }

def Sys.store (s : Sys H) (a : ℕ) (v : Word) : Sys H := { s with mem := Function.update s.mem a v }

/-- A hart's call starts.  Its buffer is on the hart's stack, and what its arguments name is the caller's own. -/
def callStep (h : H) (c : Call) (s : Sys H) : Option (Sys H) :=
  match s.hart h with
  | .idle =>
    if c.Private s.words ∧ ∀ h', ∀ c' ∈ (s.hart h').call?, c.Apart c' then some (s.setHart h (.fill c 0)) else none
  | _ => none

/-- The next step of `htif_syscall`; a load of `lock` or of `fromhost` that fails the test is repeated. -/
def hartStep (h : H) (s : Sys H) : Option (Sys H) :=
  match s.hart h with
  | .idle => none
  | .fill c i =>
    some ((s.store (c.word i) (c.args i)).setHart h (if hi : i.val + 1 < 8 then .fill c ⟨i + 1, hi⟩ else .lock c))
  | .lock c => if s.lock then some s else some ({ s with lock := true }.setHart h (.post c))
  | .post c =>
    some ({ s with
      tohost := htifTohost 0 0 (BitVec.ofNat 64 c.buf)
      log := { s.log with posted := s.log.posted ++ [c] } }.setHart h (.spin c s.log.posted.length))
  | .spin c k =>
    if s.fromhost = 0 then if c.wait then some s else some (s.setHart h (.clock c k))
    else some (s.setHart h (.ack c k))
  | .clock c k => some (s.setHart h (.spin c k))
  | .ack c k =>
    some ({ s with fromhost := 0, log := { s.log with acked := s.log.acked ++ [k] } }.setHart h (.unlock c k true))
  | .unlock c k true => some ({ s with lock := false }.setHart h (.ret c k))
  | .unlock c _ false =>
    some ({ s with lock := false, log := { s.log with timedOut := s.log.timedOut ++ [c] } }.setHart h .idle)
  | .ret c k =>
    some
      ({ s with log := { s.log with returned := s.log.returned ++ [(k, c, s.mem (c.word 0))] } }.setHart h .idle)

/-- The time is up when the hart looks at the clock. -/
def expireStep (h : H) (s : Sys H) : Option (Sys H) :=
  match s.hart h with
  | .clock c k => some (s.setHart h (.unlock c k false))
  | _ => none

/-- The next step of `run`, the call of a handler apart. -/
def hostStep (s : Sys H) : Option (Sys H) :=
  match s.host with
  | .head =>
    if s.exited then some { s with host := .done }
    else if s.tohost ≠ 0 then some { s with host := .clear s.tohost }
    else some { s with host := .checkFrom }
  | .clear v =>
    some { s with
      tohost := 0
      -- one device is registered, with one command
      host := if 1 ≤ (Cmd.device v).toNat then .checkFrom
        else if Cmd.cmd v ≠ 0 then .crashed
        else .read v 0 fun _ => 0 }
  | .read v i m =>
    let m' := Function.update m i (s.mem ((Cmd.payload v).toNat + 8 * i))
    some { s with host := if hi : i.val + 1 < 8 then .read v ⟨i + 1, hi⟩ m' else .serve v m' }
  | .serve _ _ => none
  | .write v i m =>
    some { s.store ((Cmd.payload v).toNat + 8 * i) (m i) with
      host := if hi : i.val + 1 < 8 then .write v ⟨i + 1, hi⟩ m else .respond v }
  | .respond v => some { s with queue := s.queue ++ [Cmd.respond v 1], host := .checkFrom }
  | .checkFrom => some { s with host := .decide s.fromhost }
  | .decide f =>
    match s.queue with
    | [] => some { s with host := .head }
    | x :: queue =>
      if f = 0 then some { s with fromhost := x, queue, host := .head } else some { s with host := .head }
  | .done => none
  | .crashed => none

/-- A store to any word of memory. -/
def Sys.poke (s : Sys H) (a : ℕ) (v : Word) : Sys H :=
  if a = s.words.tohost then { s with tohost := v }
  else if a = s.words.fromhost then { s with fromhost := v }
  else if a = s.words.lock then { s with lock := v ≠ 0 }
  else s.store a v

/-- The handler of a command stores a word.  It stores which words of its memory it likes, what it likes into them,
and in the order it likes; at either end of it the word is loaded before, to keep the bytes around. -/
def dataStep (a : ℕ) (v : Word) (s : Sys H) : Option (Sys H) :=
  match s.host with
  | .serve _ m => if 8 ∣ a ∧ (dataArea m).Meets a 8 then some (s.poke a v) else none
  | _ => none

/-- What the handler of a command may do: it throws or has a result, and may set the exit code.  The one of
`SOCT_HTIF_DEV_TEST` returns 0. -/
def mayReturn (htifMem : Fin 8 → Word) (result : Option Word) (exits : Bool) : Bool :=
  (htifMem 0).setWidth 32 ≠ devTest || result = some 0 && !exits

/-- The handler of a command comes back.  Its result replaces the first of the eight words. -/
def serveStep (result : Option Word) (exits : Bool) (s : Sys H) : Option (Sys H) :=
  match s.host with
  | .serve v m =>
    if mayReturn m result exits then
      match result with
      | none => some { s with host := .crashed }
      | some r =>
        some { s with
          host := .write v 0 (Function.update m 0 r)
          exited := s.exited || exits
          log := { s.log with handled := s.log.handled ++ [(m, r)] } }
    else none
  | _ => none

inductive Event (H : Type)
  | call (h : H) (c : Call)
  | hart (h : H)
  | expire (h : H)
  | host
  | data (a : ℕ) (v : Word)
  | serve (result : Option Word) (exits : Bool)

def step (s : Sys H) : Event H → Option (Sys H)
  | .call h c => callStep h c s
  | .hart h => hartStep h s
  | .expire h => expireStep h s
  | .host => hostStep s
  | .data a v => dataStep a v s
  | .serve result exits => serveStep result exits s

end Soceteer.Htif
