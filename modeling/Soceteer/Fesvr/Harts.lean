import Soceteer.Fesvr.Command
import Mathlib.Data.Finset.Insert

/-!
# Soceteer.Fesvr.Harts — selecting one hart of several

`dtm.hpp` numbers the harts of the target, selects, halts and resumes them one at a time, and `dtm_t::reset` has
each of them synchronise its instruction memory.  The debug module here has `n` harts and a `dmcontrol` as the
debug specification lays it out: `hartsel` in `hartsello` and `hartselhi`, and `hasel`, which adds the hart array
mask.

* `HartTarget`, `Harts`: a target and the state of its debug module, with the driver's `m_current_hart`.
* `selectHart`, `enumerateHarts`, `halt`, `resume`, `fenceI`, `modifyCsr`, `syncHarts`: the driver.
* `runs_enumerateHarts`, `runs_halt`, `runs_resume`, `runs_syncHarts`: what they do.
* `reachesHarts_iff`: on which targets every hart is reached.
-/

namespace Soceteer.Fesvr

open Soceteer.Lib Filter

def dmDmstatusAnynonexistent : BitVec 32 := 0x4000

/-- `MATCH_FENCE_I` of `riscv/encoding.h`. -/
def matchFenceI : BitVec 32 := 0x100f

def csrDpc : BitVec 32 := 0x7b1
def csrDscratch0 : BitVec 32 := 0x7b2

def rvCsrWrite : BitVec 32 := 1

/-- `rv_csrrx` of `fesvr/types.hpp`. -/
def rvCsrrx (type dst csr src : BitVec 32) : BitVec 32 :=
  0x73 ||| (type <<< 12) ||| (dst <<< 7) ||| (src <<< 15) ||| (csr <<< 20)

/-! ## The debug module -/

/-- What the specification leaves to a target with several harts.  `arrayMask` is the hart array mask, which the
driver never writes; `hasel` is tied to 0 without one.  `legal` is what a written `hartsel` is stored as; `effect`
the error and the data registers a program of the driver leaves behind. -/
structure HartTarget where
  n : ℕ
  xlen : Xlen
  progbufsize : ℕ
  datacount : ℕ
  dataBase : BitVec 32
  arrayMask : Option (Finset ℕ)
  legal : ℕ → ℕ
  latency : ℕ → ℕ
  effect : ℕ → BitVec 32 → (ℕ → BitVec 32) → (ℕ → BitVec 32) → BitVec 3 × (ℕ → BitVec 32)
  pos : 1 ≤ n
  lt : n < 2 ^ 10
  progbufsize_le : progbufsize ≤ 16
  datacount_le : datacount ≤ 12
  legal_of_lt : ∀ i < n, legal i = i

/-- A command that a hart has carried out, with the program buffer and the data registers it found. -/
structure Execution where
  hart : ℕ
  command : BitVec 32
  progbuf : ℕ → BitVec 32
  data : ℕ → BitVec 32

/-- The state of the module; `currentHart` is the driver's `m_current_hart`. -/
structure Harts (M : HartTarget) where
  dmactive : Bool
  hartsel : ℕ
  hasel : Bool
  run : ℕ → RunState
  resumeack : ℕ → Bool
  data : ℕ → BitVec 32
  progbuf : ℕ → BitVec 32
  cmderr : BitVec 3
  busy : ℕ
  clock : ℕ
  executed : List Execution
  currentHart : ℕ

namespace Harts

variable {M : HartTarget} (d : Harts M)

/-- The currently selected harts. -/
def selected : Finset ℕ := insert d.hartsel (if d.hasel then M.arrayMask.getD ∅ else ∅)

/-- A unit of time. -/
def tick : Harts M :=
  { d with
    busy := d.busy - 1
    clock := d.clock + 1
    run := fun h => Dm.tickHart (d.run h)
    resumeack := fun h => d.resumeack h || decide (d.run h = .resuming 0) }

def dmcontrol : BitVec 32 :=
  setField (setField (setField (setField 0 dmDmcontrolHartselhi (BitVec.ofNat 32 (d.hartsel / 1024)))
    dmDmcontrolHartsello (BitVec.ofNat 32 d.hartsel)) dmDmcontrolHasel (if d.hasel then 1 else 0))
    dmDmcontrolDmactive (if d.dmactive then 1 else 0)

/-- `dmstatus`, as far as the driver reads it. -/
def dmstatus : BitVec 32 :=
  (if ∀ h ∈ d.selected, h < M.n ∧ d.run h = .halted then dmDmstatusAllhalted else 0) |||
    (if ∀ h ∈ d.selected, h < M.n ∧ d.resumeack h then dmDmstatusAllresumeack else 0) |||
    (if ∃ h ∈ d.selected, M.n ≤ h then dmDmstatusAnynonexistent else 0)

def abstractcs : BitVec 32 :=
  BitVec.ofNat 32 (M.progbufsize * 2 ^ 24 + (if d.busy ≠ 0 then 2 ^ 12
    else 0) + d.cmderr.toNat * 2 ^ 8 + M.datacount)

/-- The new selection. -/
def select (h : ℕ) (b : Bool) : Harts M := { d with dmactive := true, hartsel := h, hasel := b }

/-- A request to the harts that are selected. -/
def requestAll (haltreq resumereq : Bool) : Harts M :=
  { d with
    run := fun h =>
      if h ∈ d.selected ∧ h < M.n then Dm.request haltreq resumereq (M.latency d.clock) (d.run h) else d.run h
    resumeack := fun h => if h ∈ d.selected ∧ resumereq ∧ ¬ haltreq then false else d.resumeack h }

/-- A write to `dmcontrol` makes its requests to the harts it selects. -/
def writeDmcontrol (v : BitVec 32) : Harts M :=
  if getField v dmDmcontrolDmactive = 0 then
    { d with dmactive := false, hartsel := 0, hasel := false, cmderr := 0, busy := 0 }
  else
    let hartsel := (getField v dmDmcontrolHartselhi).toNat * 1024 + (getField v dmDmcontrolHartsello).toNat
    let hasel := M.arrayMask.isSome && decide (getField v dmDmcontrolHasel ≠ 0)
    (d.select (M.legal hartsel) hasel).requestAll (getField v dmDmcontrolHaltreq ≠ 0)
      (getField v dmDmcontrolResumereq ≠ 0)

/-- An access that a running command forbids. -/
def busyError : Harts M := if d.cmderr = 0 then { d with cmderr := 1 } else d

/-- A command is for the one hart that `hartsel` selects, and only a halted one carries it out. -/
def perform (command : BitVec 32) : Harts M :=
  if d.cmderr ≠ 0 then d
  else if d.busy ≠ 0 then { d with cmderr := 1 }
  else if ¬ (d.hartsel < M.n ∧ d.run d.hartsel = .halted) then { d with cmderr := 4 }
  else
    let r := M.effect d.hartsel command d.progbuf d.data
    { d with
      cmderr := r.1
      data := r.2
      busy := M.latency d.clock
      executed := d.executed ++ [⟨d.hartsel, command, d.progbuf, d.data⟩] }

/-- A read over the bus. -/
def dmiRead (addr : ℕ) : BitVec 32 × Harts M :=
  let d := d.tick
  if dmData0 ≤ addr ∧ addr < dmData0 + M.datacount then
    if d.busy ≠ 0 then (0, d.busyError) else (d.data (addr - dmData0), d)
  else if dmProgbuf0 ≤ addr ∧ addr < dmProgbuf0 + M.progbufsize then
    if d.busy ≠ 0 then (0, d.busyError) else (d.progbuf (addr - dmProgbuf0), d)
  else if addr = dmDmcontrol then (d.dmcontrol, d)
  else if addr = dmDmstatus then (d.dmstatus, d)
  else if addr = dmAbstractcs then (d.abstractcs, d)
  else (0, d)

/-- A write over the bus. -/
def dmiWrite (addr : ℕ) (v : BitVec 32) : Harts M :=
  let d := d.tick
  if dmData0 ≤ addr ∧ addr < dmData0 + M.datacount then
    if d.busy ≠ 0 then d.busyError else { d with data := Function.update d.data (addr - dmData0) v }
  else if dmProgbuf0 ≤ addr ∧ addr < dmProgbuf0 + M.progbufsize then
    if d.busy ≠ 0 then d.busyError else { d with progbuf := Function.update d.progbuf (addr - dmProgbuf0) v }
  else if addr = dmDmcontrol then d.writeDmcontrol v
  else if addr = dmCommand then if d.busy ≠ 0 then d.busyError else d.perform v
  else if addr = dmAbstractcs then
    if d.busy ≠ 0 then d.busyError
    else { d with cmderr := d.cmderr &&& ~~~((getField v dmAbstractcsCmderr).setWidth 3) }
  else d

/-! ## The driver -/

/-- `read_dtm`. -/
def readDtm (addr : ℕ) : Prog (Harts M) (BitVec 32) := Prog.modifyGet fun d => d.dmiRead addr

/-- `write_dtm`. -/
def writeDtm (addr : ℕ) (v : BitVec 32) : Prog (Harts M) Unit := Prog.modifyGet fun d => ((), d.dmiWrite addr v)

/-- `m_current_hart = hartsel`. -/
def setCurrentHart (hartsel : ℕ) : Prog (Harts M) Unit :=
  Prog.modifyGet fun d => ((), { d with currentHart := hartsel })

/-- `m_current_hart`. -/
def getCurrentHart : Prog (Harts M) ℕ := Prog.modifyGet fun d => (d.currentHart, d)

/-- `select_hart`. -/
def selectHart (hartsel : ℕ) : Prog (Harts M) Unit := do
  let dmcontrol ← readDtm dmDmcontrol
  writeDtm dmDmcontrol (setField dmcontrol dmDmcontrolHasel (BitVec.ofNat 32 hartsel))
  setCurrentHart hartsel

/-- The loop of `enumerate_harts`. -/
def probeHarts (maxHart : ℕ) : Prog (Harts M) ℕ :=
  Prog.loop (fun hartsel =>
    if hartsel ≤ maxHart then do
      selectHart hartsel
      let dmstatus ← readDtm dmDmstatus
      pure (if getField dmstatus dmDmstatusAnynonexistent ≠ 0 then .inr hartsel else .inl (hartsel + 1))
    else pure (.inr hartsel)) 0

/-- `enumerate_harts`; `DM_DMCONTROL_HASEL_LENGTH` is 1. -/
def enumerateHarts : Prog (Harts M) ℕ := do
  let dmcontrol ← readDtm dmDmcontrol
  writeDtm dmDmcontrol (setField dmcontrol dmDmcontrolHasel ((1#32 <<< 1) - 1))
  let _ ← readDtm dmDmstatus
  let dmcontrol ← readDtm dmDmcontrol
  let hartsel ← probeHarts (getField dmcontrol dmDmcontrolHasel).toNat
  let currentHart ← getCurrentHart
  selectHart currentHart
  pure hartsel

/-- `resume`. -/
def resume (hartsel : ℕ) : Prog (Harts M) Unit := do
  let dmcontrol := setField (dmDmcontrolResumereq ||| dmDmcontrolDmactive) dmDmcontrolHasel
    (BitVec.ofNat 32 hartsel)
  writeDtm dmDmcontrol dmcontrol
  let _ ← Prog.repeatUntil (readDtm dmDmstatus) fun v => getField v dmDmstatusAllresumeack ≠ 0
  writeDtm dmDmcontrol (dmcontrol &&& ~~~dmDmcontrolResumereq)
  let _ ← readDtm dmDmstatus
  setCurrentHart hartsel
  writeDtm dmDmcontrol dmDmcontrolDmactive
  let _ ← readDtm dmDmstatus
  pure ()

/-- `halt`. -/
def halt (hartsel : ℕ) : Prog (Harts M) Unit := do
  writeDtm dmDmcontrol dmDmcontrolDmactive
  let _ ← readDtm dmDmstatus
  let dmcontrol := setField (dmDmcontrolHaltreq ||| dmDmcontrolDmactive) dmDmcontrolHasel (BitVec.ofNat 32 hartsel)
  writeDtm dmDmcontrol dmcontrol
  let _ ← Prog.repeatUntil (readDtm dmDmstatus) fun v => getField v dmDmstatusAllhalted ≠ 0
  writeDtm dmDmcontrol (dmcontrol &&& ~~~dmDmcontrolHaltreq)
  let _ ← readDtm dmDmstatus
  setCurrentHart hartsel

/-- `for (i = 0; i < n; i++) write_dtm(addr + i, ws[i])`. -/
def writeWords : ℕ → List (BitVec 32) → Prog (Harts M) Unit
  | _, [] => pure ()
  | addr, w :: ws => do
    writeDtm addr w
    writeWords (addr + 1) ws

/-- `for (i = 0; i < n; i++) ws[i] = read_dtm(addr + i)`. -/
def readWords : ℕ → ℕ → Prog (Harts M) (List (BitVec 32))
  | _, 0 => pure []
  | addr, n + 1 => do
    let w ← readDtm addr
    let ws ← readWords (addr + 1) n
    pure (w :: ws)

/-- `run_abstract_command`: the error, and the data array after the command. -/
def runAbstractCommand (command : BitVec 32) (program data : List (BitVec 32)) :
    Prog (Harts M) (BitVec 32 × List (BitVec 32)) := do
  Prog.guard (program.length ≤ M.progbufsize)
  Prog.guard (data.length ≤ M.datacount)
  writeWords dmProgbuf0 program
  let write := getField command acAccessRegisterWrite
  let transfer := getField command acAccessRegisterTransfer
  if write ≠ 0 ∧ transfer ≠ 0 then writeWords dmData0 data else pure ()
  writeDtm dmCommand command
  let abstractcs ← Prog.repeatUntil (readDtm dmAbstractcs) fun v => v &&& dmAbstractcsBusy = 0
  let data ← if write = 0 ∧ transfer ≠ 0 then readWords dmData0 data.length else pure data
  let err := getField abstractcs dmAbstractcsCmderr
  if err ≠ 0 then writeDtm dmAbstractcs dmAbstractcsCmderr else pure ()
  pure (err, data)

/-- The command of `fence_i` and of `modify_csr`. -/
def postexecCommand (X : Xlen) : BitVec 32 :=
  acAccessRegisterPostexec ||| acAccessRegisterTransfer ||| acAccessRegisterWrite ||| rvAcArSize X.bits |||
    rvAcArRegno rvX0

/-- The program of `fence_i`. -/
def fenceProgram : List (BitVec 32) := [matchFenceI, matchEbreak]

/-- `fence_i`. -/
def fenceI : Prog (Harts M) Unit := do
  halt (← getCurrentHart)
  let _ ← runAbstractCommand (postexecCommand M.xlen) fenceProgram []
  resume (← getCurrentHart)

/-- The program of `modify_csr`: exchange the register with the data registers, keeping `s0` in `dscratch0`. -/
def csrProgram (M : HartTarget) (which type : BitVec 32) : List (BitVec 32) :=
  [rvCsrrx rvCsrWrite rvS0 csrDscratch0 rvS0, rvLoad M.xlen.bits rvS0 rvX0 M.dataBase,
    rvCsrrx type rvS0 which rvS0,
    rvStore M.xlen.bits rvS0 rvX0 M.dataBase, rvCsrrx rvCsrWrite rvS0 csrDscratch0 rvS0, matchEbreak]

/-- `modify_csr`. -/
def modifyCsr (which : BitVec 32) (value : BitVec 64) (type : BitVec 32) : Prog (Harts M) (BitVec 64) := do
  halt (← getCurrentHart)
  let _ ← runAbstractCommand (postexecCommand M.xlen) (csrProgram M which type) (halves M.xlen value)
  let lo ← readDtm dmData0
  let res ← if M.xlen.bits = 64 then do
      let hi ← readDtm (dmData0 + 1)
      pure (lo.setWidth 64 ||| hi.setWidth 64)
    else pure (lo.setWidth 64)
  resume (← getCurrentHart)
  pure res

/-- The first loop of `dtm_t::reset`.  What follows it wakes the harts through the CLINT, where there is one. -/
def syncHarts (numHarts : ℕ) (clintBase entry : BitVec 64) : Prog (Harts M) Unit :=
  Prog.forFrom (fun hartsel _ => do
    selectHart hartsel
    fenceI
    if clintBase = 0 then do
      let _ ← modifyCsr csrDpc entry rvCsrWrite
      pure ()
    else pure ()) 0 numHarts ()

/-! ## One access -/

theorem not_buffer {addr : ℕ} (h1 : 0x10 ≤ addr) (h2 : addr < 0x20) :
    ¬ (dmData0 ≤ addr ∧ addr < dmData0 + M.datacount) ∧
      ¬ (dmProgbuf0 ≤ addr ∧ addr < dmProgbuf0 + M.progbufsize) := by
  have h3 := M.datacount_le
  unfold dmData0 dmProgbuf0
  omega

variable {d} {v : BitVec 32}

theorem runs_readDmcontrol : Runs (readDtm dmDmcontrol) d fun v d' => v = d.tick.dmcontrol ∧ d' = d.tick := by
  obtain ⟨h1, h2⟩ := @not_buffer M dmDmcontrol (by decide) (by decide)
  refine runs_of_eq _ _ (fun _ => ?_) ⟨rfl, rfl⟩
  simp only [readDtm, Prog.modifyGet, dmiRead]
  rw [if_neg h1, if_neg h2, if_pos trivial]

theorem runs_readDmstatus : Runs (readDtm dmDmstatus) d fun v d' => v = d.tick.dmstatus ∧ d' = d.tick := by
  obtain ⟨h1, h2⟩ := @not_buffer M dmDmstatus (by decide) (by decide)
  refine runs_of_eq _ _ (fun _ => ?_) ⟨rfl, rfl⟩
  simp only [readDtm, Prog.modifyGet, dmiRead]
  rw [if_neg h1, if_neg h2, if_neg (by decide), if_pos trivial]

theorem runs_readAbstractcs : Runs (readDtm dmAbstractcs) d fun v d' => v = d.tick.abstractcs ∧ d' = d.tick := by
  obtain ⟨h1, h2⟩ := @not_buffer M dmAbstractcs (by decide) (by decide)
  refine runs_of_eq _ _ (fun _ => ?_) ⟨rfl, rfl⟩
  simp only [readDtm, Prog.modifyGet, dmiRead]
  rw [if_neg h1, if_neg h2, if_neg (by decide), if_neg (by decide), if_pos trivial]

theorem runs_writeDmcontrol : Runs (writeDtm dmDmcontrol v) d fun _ d' => d' = d.tick.writeDmcontrol v := by
  obtain ⟨h1, h2⟩ := @not_buffer M dmDmcontrol (by decide) (by decide)
  refine runs_of_eq () _ (fun _ => ?_) rfl
  simp only [writeDtm, Prog.modifyGet, dmiWrite]
  rw [if_neg h1, if_neg h2, if_pos trivial]

theorem runs_setCurrentHart {i : ℕ} : Runs (setCurrentHart i) d fun _ d' => d' = { d with currentHart := i } :=
  runs_of_eq () _ (fun _ => rfl) rfl

theorem runs_getCurrentHart_bind {α : Type} {k : ℕ → Prog (Harts M) α} {R : α → Harts M → Prop}
    (h : Runs (k d.currentHart) d R) : Runs (getCurrentHart >>= k) d R := h

/-! ## Selection -/

/-- Hart 0 is the one that `hartsel` selects, no command runs and no error is recorded, and no hart is on its
way. -/
structure Idle (d : Harts M) : Prop where
  dmactive : d.dmactive = true
  hartsel : d.hartsel = 0
  cmderr : d.cmderr = 0
  busy : d.busy = 0
  stable : ∀ j, d.run j = .running ∨ d.run j = .halted

theorem tickHart_stable {r : RunState} (h : r = .running ∨ r = .halted) : Dm.tickHart r = r := by
  rcases h with rfl | rfl <;> rfl

theorem request_none {r : RunState} (k : ℕ) (h : r = .running ∨ r = .halted) : Dm.request false false k r = r := by
  rcases h with rfl | rfl <;> rfl

theorem Idle.tick_run (h : Idle d) : d.tick.run = d.run := funext fun j => tickHart_stable (h.stable j)

theorem Idle.tick (h : Idle d) : Idle d.tick := by
  refine ⟨h.dmactive, h.hartsel, h.cmderr, ?_, ?_⟩
  · change d.busy - 1 = 0
    rw [h.busy]
  · rw [h.tick_run]
    exact h.stable

/-- The bit a hart's number becomes. -/
theorem setField_hasel_bit (v x : BitVec 32) : setField v dmDmcontrolHasel x =
    (v &&& ~~~dmDmcontrolHasel) ||| (if x.getLsbD 0 then dmDmcontrolHasel else 0) := by
  have hbit : dmDmcontrolHasel = BitVec.twoPow 32 26 := by decide
  have hlow : dmDmcontrolHasel &&& ~~~(dmDmcontrolHasel <<< 1) = BitVec.twoPow 32 26 := by decide
  have hfield : (x <<< 26) &&& dmDmcontrolHasel = if x.getLsbD 0 then dmDmcontrolHasel else 0 := by
    rw [hbit, BitVec.and_twoPow, BitVec.getLsbD_shiftLeft]
    rfl
  unfold setField
  rw [hlow, BitVec.mul_twoPow_eq_shiftLeft, hfield]

/-- `dmcontrol` while hart 0 is selected. -/
theorem Idle.dmcontrol_eq (h : Idle d) :
    d.dmcontrol = (if d.hasel then dmDmcontrolHasel else 0) ||| dmDmcontrolDmactive := by
  unfold dmcontrol
  rw [h.hartsel, h.dmactive]
  cases d.hasel <;> decide

/-- A value of `dmcontrol` with a hart's number in `hasel`. -/
theorem Idle.selects (h : Idle d) (x : BitVec 32) :
    Selects (setField d.dmcontrol dmDmcontrolHasel x) false false ∧
      decide (getField (setField d.dmcontrol dmDmcontrolHasel x) dmDmcontrolHasel ≠ 0) = x.getLsbD 0 := by
  rw [setField_hasel_bit, h.dmcontrol_eq]
  cases d.hasel <;> cases x.getLsbD 0 <;> decide

theorem writeDmcontrol_eq {haltreq resumereq b : Bool} (hv : Selects v haltreq resumereq)
    (hb : decide (getField v dmDmcontrolHasel ≠ 0) = b) :
    d.writeDmcontrol v = (d.select 0 (M.arrayMask.isSome && b)).requestAll haltreq resumereq := by
  unfold writeDmcontrol
  rw [if_neg hv.dmactive]
  simp only [hv.haltreq, hv.resumereq, hv.hartsel, hb, M.legal_of_lt 0 M.pos]

/-- Selecting without a request changes nothing else. -/
theorem Idle.select (h : Idle d) (b : Bool) :
    Idle ((d.select 0 b).requestAll false false) ∧ ((d.select 0 b).requestAll false false).run = d.run := by
  have hrun : ((d.select 0 b).requestAll false false).run = d.run := by
    funext j
    change (if _ then Dm.request false false _ (d.run j) else d.run j) = _
    rw [request_none _ (h.stable j), ite_self]
  refine ⟨⟨rfl, rfl, h.cmderr, h.busy, ?_⟩, hrun⟩
  rw [hrun]
  exact h.stable

/-- **What `select_hart` selects**: hart 0, and with an odd number the harts of the mask. -/
theorem runs_selectHart (h : Idle d) (i : ℕ) : Runs (selectHart i) d fun _ d' =>
    Idle d' ∧ d'.hasel = (M.arrayMask.isSome && (BitVec.ofNat 32 i).getLsbD 0) ∧ d'.run = d.run ∧
      d'.executed = d.executed ∧ d'.currentHart = i := by
  unfold selectHart
  refine runs_readDmcontrol.bind ?_
  rintro - d₁ ⟨rfl, rfl⟩
  refine runs_writeDmcontrol.bind ?_
  rintro - d₂ rfl
  obtain ⟨hsel, hbit⟩ := h.tick.selects (BitVec.ofNat 32 i)
  rw [writeDmcontrol_eq hsel hbit]
  obtain ⟨hidle, hrun⟩ := h.tick.tick.select (M.arrayMask.isSome && (BitVec.ofNat 32 i).getLsbD 0)
  refine runs_setCurrentHart.mono ?_
  rintro - d₃ rfl
  rw [h.tick.tick_run, h.tick_run] at hrun
  exact ⟨⟨hidle.dmactive, hidle.hartsel, hidle.cmderr, hidle.busy, hidle.stable⟩, rfl, hrun, rfl, rfl⟩

/-! ## Enumeration -/

theorem dmstatus_anynonexistent :
    getField d.dmstatus dmDmstatusAnynonexistent ≠ 0 ↔ ∃ h ∈ d.selected, M.n ≤ h := by
  unfold dmstatus
  split_ifs with h1 h2 h3 h3 h2 h3 h3 <;> simp only [h3, iff_true, iff_false] <;> decide

theorem selected_single (hsel : d.hartsel = 0) (hhasel : d.hasel = false) : d.selected = {0} := by
  unfold selected
  rw [hsel, hhasel]
  rfl

theorem zero_mem_selected (hsel : d.hartsel = 0) : 0 ∈ d.selected := by
  unfold selected
  rw [hsel]
  exact Finset.mem_insert_self _ _

/-- The number of harts `enumerate_harts` counts. -/
def enumerated (M : HartTarget) : ℕ :=
  match M.arrayMask with
  | none => 1
  | some mask => if ∃ h ∈ mask, M.n ≤ h then 1 else 2

/-- A hart that does not exist is selected along with hart 0 by the number `i`. -/
def ProbeFails (M : HartTarget) (i : ℕ) : Prop :=
  ∃ mask, M.arrayMask = some mask ∧ (BitVec.ofNat 32 i).getLsbD 0 = true ∧ ∃ h ∈ mask, M.n ≤ h

theorem probeFails_iff (hsel : d.hartsel = 0) {i : ℕ}
    (hhasel : d.hasel = (M.arrayMask.isSome && (BitVec.ofNat 32 i).getLsbD 0)) :
    (∃ h ∈ d.selected, M.n ≤ h) ↔ ProbeFails M i := by
  have hpos := M.pos
  unfold selected ProbeFails
  rw [hsel, hhasel]
  cases hmask : M.arrayMask with
  | none =>
    simp
    omega
  | some mask =>
    cases hbit : (BitVec.ofNat 32 i).getLsbD 0 with
    | false =>
      simp
      omega
    | true =>
      simp
      omega

/-- `enumerate_harts` goes on below its count, and stops there. -/
theorem probe_enumerated (M : HartTarget) :
    (∀ i < enumerated M, i ≤ (if M.arrayMask.isSome then 1 else 0) ∧ ¬ ProbeFails M i) ∧
      (enumerated M ≤ (if M.arrayMask.isSome then 1 else 0) → ProbeFails M (enumerated M)) := by
  unfold enumerated ProbeFails
  cases hmask : M.arrayMask with
  | none => simp
  | some mask =>
    by_cases hno : ∃ h ∈ mask, M.n ≤ h
    · simp only [if_pos hno]
      refine ⟨fun i hi => ?_, fun _ => ⟨mask, rfl, by decide, hno⟩⟩
      obtain rfl : i = 0 := by omega
      refine ⟨Nat.zero_le _, ?_⟩
      rintro ⟨_, -, hbit, -⟩
      revert hbit
      decide
    · simp only [if_neg hno]
      refine ⟨fun i hi => ⟨by simp; omega, ?_⟩, fun hle => ?_⟩
      · rintro ⟨m, hm, -, hh⟩
        cases hm
        exact hno hh
      · simp at hle

theorem runs_probeHarts {maxHart count : ℕ} (h : Idle d) (hgo : ∀ i < count, i ≤ maxHart ∧ ¬ ProbeFails M i)
    (hstop : count ≤ maxHart → ProbeFails M count) :
    Runs (probeHarts maxHart) d fun r d' => r = count ∧ Idle d' := by
  refine Runs.loop (fun i d => Idle d ∧ i ≤ count) (fun i _ => count + 1 - i) ?_ ⟨h, Nat.zero_le _⟩
  rintro i d ⟨hd, hi⟩
  split_ifs with hle
  · refine (runs_selectHart hd i).bind ?_
    rintro - d₁ ⟨h₁, hhasel, -⟩
    refine runs_readDmstatus.bind ?_
    rintro v d₂ ⟨rfl, rfl⟩
    have hprobe : getField d₁.tick.dmstatus dmDmstatusAnynonexistent ≠ 0 ↔ ProbeFails M i :=
      dmstatus_anynonexistent.trans (probeFails_iff h₁.tick.hartsel hhasel)
    refine runs_pure ?_
    by_cases hfail : ProbeFails M i
    · rw [if_pos (hprobe.mpr hfail)]
      exact ⟨le_antisymm hi (Nat.le_of_not_lt fun hlt => (hgo i hlt).2 hfail), h₁.tick⟩
    · rw [if_neg fun hc => hfail (hprobe.mp hc)]
      have hlt : i < count := by
        refine lt_of_le_of_ne hi ?_
        rintro rfl
        exact hfail (hstop hle)
      exact ⟨⟨h₁.tick, hlt⟩, by omega⟩
  · exact runs_pure ⟨le_antisymm hi (Nat.le_of_not_lt fun hlt => hle (hgo i hlt).1), hd⟩

/-- **What `enumerate_harts` counts**, from any idle state. -/
theorem runs_enumerateHarts (h : Idle d) : Runs enumerateHarts d fun r d' => r = enumerated M ∧ Idle d' := by
  unfold enumerateHarts
  refine runs_readDmcontrol.bind ?_
  rintro - d₁ ⟨rfl, rfl⟩
  refine runs_writeDmcontrol.bind ?_
  rintro - d₂ rfl
  obtain ⟨hsel, hbit⟩ := h.tick.selects ((1#32 <<< 1) - 1)
  rw [writeDmcontrol_eq hsel hbit]
  obtain ⟨hidle, -⟩ := h.tick.tick.select (M.arrayMask.isSome && ((1#32 <<< 1) - 1).getLsbD 0)
  have hhasel : ((d.tick.tick.select 0 (M.arrayMask.isSome && ((1#32 <<< 1) - 1).getLsbD 0)).requestAll
      false false).hasel = M.arrayMask.isSome := Bool.and_true _
  revert hidle hhasel
  generalize ((d.tick.tick.select 0 _).requestAll false false) = d₂
  intro h₂ hhasel
  refine runs_readDmstatus.bind ?_
  rintro - d₃ ⟨-, rfl⟩
  refine runs_readDmcontrol.bind ?_
  rintro - d₄ ⟨rfl, rfl⟩
  have hmax : (getField d₂.tick.tick.dmcontrol dmDmcontrolHasel).toNat = if M.arrayMask.isSome then 1 else 0 := by
    rw [h₂.tick.tick.dmcontrol_eq, show d₂.tick.tick.hasel = M.arrayMask.isSome from hhasel]
    cases M.arrayMask.isSome <;> decide
  rw [hmax]
  obtain ⟨hgo, hstop⟩ := probe_enumerated M
  refine (runs_probeHarts h₂.tick.tick hgo hstop).bind ?_
  rintro r d₅ ⟨rfl, h₅⟩
  refine runs_getCurrentHart_bind ?_
  refine (runs_selectHart h₅ _).bind ?_
  rintro - d₆ ⟨h₆, -⟩
  exact runs_pure ⟨rfl, h₆⟩

/-! ## Halting and resuming -/

/-- On the way from the idle state `d₀`: hart 0 is in state `r`, the others are as they were. -/
structure Holding (d₀ : Harts M) (r : RunState) (d : Harts M) : Prop where
  dmactive : d.dmactive = true
  hartsel : d.hartsel = 0
  cmderr : d.cmderr = 0
  busy : d.busy = 0
  run : d.run = Function.update d₀.run 0 r
  executed : d.executed = d₀.executed

variable {d₀ : Harts M} {r : RunState}

theorem Idle.holding (h : Idle d) : Holding d (d.run 0) d :=
  ⟨h.dmactive, h.hartsel, h.cmderr, h.busy, (Function.update_eq_self 0 d.run).symm, rfl⟩

theorem Holding.run_zero (h : Holding d₀ r d) : d.run 0 = r := by
  rw [h.run]
  exact Function.update_self 0 r d₀.run

theorem Holding.idle (h : Holding d₀ r d) (h₀ : Idle d₀) (hr : r = .running ∨ r = .halted) : Idle d := by
  refine ⟨h.dmactive, h.hartsel, h.cmderr, h.busy, fun j => ?_⟩
  rw [h.run]
  by_cases hj : j = 0
  · subst hj
    rw [Function.update_self]
    exact hr
  · rw [Function.update_of_ne hj]
    exact h₀.stable j

/-- Nothing but hart 0 is moved by a function that leaves stable harts alone. -/
theorem update_map {f : ℕ → RunState → RunState} (h₀ : Idle d₀)
    (hf : ∀ j ≠ 0, ∀ r, (r = .running ∨ r = .halted) → f j r = r) :
    (fun j => f j (Function.update d₀.run 0 r j)) = Function.update d₀.run 0 (f 0 r) := by
  funext j
  by_cases hj : j = 0
  · subst hj
    rw [Function.update_self, Function.update_self]
  · rw [Function.update_of_ne hj, Function.update_of_ne hj]
    exact hf j hj _ (h₀.stable j)

theorem Holding.tick (h : Holding d₀ r d) (h₀ : Idle d₀) : Holding d₀ (Dm.tickHart r) d.tick := by
  refine ⟨h.dmactive, h.hartsel, h.cmderr, ?_, ?_, h.executed⟩
  · change d.busy - 1 = 0
    rw [h.busy]
  · change (fun j => Dm.tickHart (d.run j)) = _
    rw [h.run]
    exact update_map (f := fun _ => Dm.tickHart) h₀ fun _ _ _ => tickHart_stable

/-- A request to hart 0 alone. -/
theorem runs_control {haltreq resumereq : Bool} (hv : Selects v haltreq resumereq)
    (hb : decide (getField v dmDmcontrolHasel ≠ 0) = false) (h₀ : Idle d₀) (h : Holding d₀ r d) :
    Runs (writeDtm dmDmcontrol v) d fun _ d' => d'.hasel = false ∧
      (∃ k, Holding d₀ (Dm.request haltreq resumereq k (Dm.tickHart r)) d') ∧
      d'.resumeack 0 = (if resumereq ∧ ¬ haltreq then false else d.tick.resumeack 0) ∧
      d'.currentHart = d.currentHart := by
  refine runs_writeDmcontrol.mono ?_
  rintro - d' rfl
  rw [writeDmcontrol_eq hv hb, Bool.and_false]
  have ht := h.tick h₀
  have hsel : (d.tick.select 0 false).selected = {0} := selected_single rfl rfl
  refine ⟨rfl, ⟨M.latency d.tick.clock, rfl, rfl, ht.cmderr, ht.busy, ?_, ht.executed⟩, ?_, rfl⟩
  · change (fun j => if j ∈ (d.tick.select 0 false).selected ∧ j < M.n then
      Dm.request haltreq resumereq _ (d.tick.run j) else d.tick.run j) = _
    rw [hsel, ht.run]
    refine (update_map (f := fun j r => if j ∈ ({0} : Finset ℕ) ∧ j < M.n then
      Dm.request haltreq resumereq (M.latency d.tick.clock) r else r) h₀ ?_).trans ?_
    · intro j hj r _
      exact if_neg fun hc => hj (Finset.mem_singleton.mp hc.1)
    · rw [if_pos ⟨Finset.mem_singleton_self 0, M.pos⟩]
  · change (if 0 ∈ (d.tick.select 0 false).selected ∧ _ then _ else _) = _
    rw [hsel]
    simp only [Finset.mem_singleton_self, true_and]
    rfl

theorem dmstatus_single (hsel : d.hartsel = 0) (hhasel : d.hasel = false) :
    (getField d.dmstatus dmDmstatusAllhalted ≠ 0 ↔ d.run 0 = .halted) ∧
      (getField d.dmstatus dmDmstatusAllresumeack ≠ 0 ↔ d.resumeack 0 = true) := by
  have hpos : 0 < M.n := M.pos
  unfold dmstatus
  simp only [selected_single hsel hhasel, Finset.mem_singleton, forall_eq, hpos, true_and]
  split_ifs with h1 h2 h3 h3 h2 h3 h3 <;> simp only [h1, h2, iff_true, iff_false] <;> decide

theorem runs_waitHalted (h₀ : Idle d₀) (h : Holding d₀ r d) (hhasel : d.hasel = false)
    (hr : r = .halted ∨ ∃ k, r = .halting k) :
    Runs (Prog.repeatUntil (readDtm dmDmstatus) fun v => getField v dmDmstatusAllhalted ≠ 0) d fun _ d' =>
      Holding d₀ .halted d' ∧ d'.hasel = false := by
  refine Runs.repeatUntil (fun d => d.hasel = false ∧ ∃ r, Holding d₀ r d ∧ (r = .halted ∨ ∃ k, r = .halting k))
    (fun d => haltWait (d.run 0)) ?_ ⟨hhasel, r, h, hr⟩
  rintro d₁ ⟨hhasel₁, r₁, h₁, hr₁⟩
  refine runs_readDmstatus.mono ?_
  rintro v d₂ ⟨rfl, rfl⟩
  have ht := h₁.tick h₀
  have hstatus := (dmstatus_single ht.hartsel hhasel₁).1
  rw [ht.run_zero] at hstatus
  rw [decide_eq_true_eq, decide_eq_false_iff_not, hstatus, ht.run_zero, h₁.run_zero]
  rcases hr₁ with rfl | ⟨k, rfl⟩
  · exact Or.inl ⟨rfl, ht, hhasel₁⟩
  cases k with
  | zero => exact Or.inl ⟨rfl, ht, hhasel₁⟩
  | succ k => exact Or.inr ⟨fun hc => (by cases hc), ⟨hhasel₁, _, ht, Or.inr ⟨k, rfl⟩⟩, Nat.lt_succ_self _⟩

/-- **`halt(0)` halts hart 0 and no other.** -/
theorem runs_halt_zero (h : Idle d) : Runs (halt 0) d fun _ d' =>
    Holding d .halted d' ∧ d'.currentHart = 0 := by
  obtain ⟨hreq, hclear⟩ := selects_halt (BitVec.ofNat 32 0)
  unfold halt
  refine (runs_control selects_dmactive (by decide) h h.holding).bind ?_
  rintro - d₁ ⟨hhasel₁, ⟨k₁, h₁⟩, -⟩
  rw [tickHart_stable (h.stable 0), request_none _ (h.stable 0)] at h₁
  refine runs_readDmstatus.bind ?_
  rintro - d₂ ⟨-, rfl⟩
  have h₂ := h₁.tick h
  rw [tickHart_stable (h.stable 0)] at h₂
  refine (runs_control hreq (by decide) h h₂).bind ?_
  rintro - d₃ ⟨hhasel₃, ⟨k₃, h₃⟩, -⟩
  rw [tickHart_stable (h.stable 0)] at h₃
  have hway :
      Dm.request true false k₃ (d.run 0) = .halted ∨ ∃ k, Dm.request true false k₃ (d.run 0) = .halting k := by
    rcases h.stable 0 with hr | hr <;> rw [hr]
    · exact Or.inr ⟨k₃, rfl⟩
    · exact Or.inl rfl
  refine (runs_waitHalted h h₃ hhasel₃ hway).bind ?_
  rintro - d₄ ⟨h₄, -⟩
  refine (runs_control hclear (by decide) h h₄).bind ?_
  rintro - d₅ ⟨-, ⟨k₅, h₅⟩, -⟩
  refine runs_readDmstatus.bind ?_
  rintro - d₆ ⟨-, rfl⟩
  have h₆ := h₅.tick h
  refine runs_setCurrentHart.mono ?_
  rintro - d₇ rfl
  exact ⟨⟨h₆.dmactive, h₆.hartsel, h₆.cmderr, h₆.busy, h₆.run, h₆.executed⟩, rfl⟩

theorem runs_waitResumed {k : ℕ} (h₀ : Idle d₀) (h : Holding d₀ (.resuming k) d) (hhasel : d.hasel = false)
    (hack : d.resumeack 0 = false) :
    Runs (Prog.repeatUntil (readDtm dmDmstatus) fun v => getField v dmDmstatusAllresumeack ≠ 0) d fun _ d' =>
      Holding d₀ .running d' ∧ d'.hasel = false := by
  refine Runs.repeatUntil (fun d => d.hasel = false ∧ d.resumeack 0 = false ∧ ∃ k, Holding d₀ (.resuming k) d)
    (fun d => resumeWait (d.run 0)) ?_ ⟨hhasel, hack, k, h⟩
  rintro d₁ ⟨hhasel₁, hack₁, k, h₁⟩
  refine runs_readDmstatus.mono ?_
  rintro v d₂ ⟨rfl, rfl⟩
  have ht := h₁.tick h₀
  have hstatus := (dmstatus_single ht.hartsel hhasel₁).2
  have hack₂ : d₁.tick.resumeack 0 = decide (d₁.run 0 = .resuming 0) := by simp [Harts.tick, hack₁]
  rw [hack₂, decide_eq_true_eq] at hstatus
  rw [decide_eq_true_eq, decide_eq_false_iff_not, hstatus, ht.run_zero, h₁.run_zero]
  cases k with
  | zero => exact Or.inl ⟨rfl, ht, hhasel₁⟩
  | succ k =>
    rw [h₁.run_zero] at hack₂
    exact Or.inr ⟨fun hc => (by cases hc), ⟨hhasel₁, by rw [hack₂]; rfl, k, ht⟩, Nat.lt_succ_self _⟩

/-- **`resume(0)` resumes hart 0 and no other.** -/
theorem runs_resume_zero (h : Idle d) (hrun : d.run 0 = .halted) : Runs (resume 0) d fun _ d' =>
    Holding d .running d' ∧ d'.currentHart = 0 := by
  obtain ⟨hreq, hclear⟩ := selects_resume (BitVec.ofNat 32 0)
  have hhold := h.holding
  rw [hrun] at hhold
  unfold resume
  refine (runs_control hreq (by decide) h hhold).bind ?_
  rintro - d₁ ⟨hhasel₁, ⟨k₁, h₁⟩, hack₁, -⟩
  refine (runs_waitResumed h h₁ hhasel₁ hack₁).bind ?_
  rintro - d₂ ⟨h₂, -⟩
  refine (runs_control hclear (by decide) h h₂).bind ?_
  rintro - d₃ ⟨-, ⟨k₃, h₃⟩, -⟩
  refine runs_readDmstatus.bind ?_
  rintro - d₄ ⟨-, rfl⟩
  have h₄ := h₃.tick h
  refine runs_setCurrentHart.bind ?_
  rintro - d₅ rfl
  have h₅ : Holding d .running { d₃.tick with currentHart := 0 } :=
    ⟨h₄.dmactive, h₄.hartsel, h₄.cmderr, h₄.busy, h₄.run, h₄.executed⟩
  refine (runs_control selects_dmactive (by decide) h h₅).bind ?_
  rintro - d₆ ⟨-, ⟨k₆, h₆⟩, -, hcurrent⟩
  refine runs_readDmstatus.bind ?_
  rintro - d₇ ⟨-, rfl⟩
  exact runs_pure ⟨h₆.tick h, hcurrent⟩

/-! ## Commands -/

/-- The selection, the harts and what they have carried out are as in `d₀`. -/
structure Kept (d₀ d : Harts M) : Prop where
  dmactive : d.dmactive = d₀.dmactive
  hartsel : d.hartsel = d₀.hartsel
  cmderr : d.cmderr = d₀.cmderr
  run : d.run = d₀.run
  executed : d.executed = d₀.executed
  currentHart : d.currentHart = d₀.currentHart

theorem Kept.trans {d₁ d₂ : Harts M} (h : Kept d₀ d₁) (h' : Kept d₁ d₂) : Kept d₀ d₂ :=
  ⟨h'.dmactive.trans h.dmactive, h'.hartsel.trans h.hartsel, h'.cmderr.trans h.cmderr, h'.run.trans h.run,
    h'.executed.trans h.executed, h'.currentHart.trans h.currentHart⟩

theorem Kept.tick (h : Kept d₀ d) (hs : ∀ j, d₀.run j = .running ∨ d₀.run j = .halted) : Kept d₀ d.tick := by
  refine ⟨h.dmactive, h.hartsel, h.cmderr, ?_, h.executed, h.currentHart⟩
  change (fun j => Dm.tickHart (d.run j)) = _
  rw [h.run]
  exact funext fun j => tickHart_stable (hs j)

theorem Kept.idle (h : Kept d₀ d) (h₀ : Idle d₀) (hbusy : d.busy = 0) : Idle d := by
  refine ⟨h.dmactive.trans h₀.dmactive, h.hartsel.trans h₀.hartsel, h.cmderr.trans h₀.cmderr, hbusy, ?_⟩
  rw [h.run]
  exact h₀.stable

theorem Idle.kept_tick (h : Idle d) : Kept d d.tick := Kept.tick ⟨rfl, rfl, rfl, rfl, rfl, rfl⟩ h.stable

/-- The words are in the registers, from the first on. -/
def Loaded (ws : List (BitVec 32)) (f : ℕ → BitVec 32) : Prop := ∀ j w, ws[j]? = some w → f j = w

theorem runs_writeProgbuf {i : ℕ} (h : Idle d) (hi : i < M.progbufsize) :
    Runs (writeDtm (dmProgbuf0 + i) v) d fun _ d' => Kept d d' ∧ d'.busy = 0 ∧
      d'.progbuf = Function.update d.progbuf i v ∧ d'.data = d.data := by
  have ht := h.kept_tick
  have hbusy := h.tick.busy
  refine runs_of_eq () { d.tick with progbuf := Function.update d.progbuf i v } (fun _ => ?_)
    ⟨⟨ht.dmactive, ht.hartsel, ht.cmderr, ht.run, ht.executed, ht.currentHart⟩, hbusy, rfl, rfl⟩
  have hdata := M.datacount_le
  have hno : ¬ (dmData0 ≤ dmProgbuf0 + i ∧ dmProgbuf0 + i < dmData0 + M.datacount) := by
    unfold dmData0 dmProgbuf0
    omega
  simp only [writeDtm, Prog.modifyGet, dmiWrite]
  rw [if_neg hno, if_pos (by omega), if_neg (not_not.mpr hbusy), Nat.add_sub_cancel_left]
  rfl

theorem runs_writeData {i : ℕ} (h : Idle d) (hi : i < M.datacount) :
    Runs (writeDtm (dmData0 + i) v) d fun _ d' => Kept d d' ∧ d'.busy = 0 ∧
      d'.data = Function.update d.data i v ∧ d'.progbuf = d.progbuf := by
  have ht := h.kept_tick
  have hbusy := h.tick.busy
  refine runs_of_eq () { d.tick with data := Function.update d.data i v } (fun _ => ?_)
    ⟨⟨ht.dmactive, ht.hartsel, ht.cmderr, ht.run, ht.executed, ht.currentHart⟩, hbusy, rfl, rfl⟩
  simp only [writeDtm, Prog.modifyGet, dmiWrite]
  rw [if_pos (by omega), if_neg (not_not.mpr hbusy), Nat.add_sub_cancel_left]
  rfl

/-- A run of writes into one of the two buffers; `get` is the buffer, `other` the other one. -/
theorem runs_writeWords {base size : ℕ} (get other : Harts M → ℕ → BitVec 32)
    (hwrite : ∀ i v (d : Harts M), Idle d → i < size → Runs (writeDtm (base + i) v) d fun _ d' =>
      Kept d d' ∧ d'.busy = 0 ∧ get d' = Function.update (get d) i v ∧ other d' = other d) :
    ∀ (ws : List (BitVec 32)) (k : ℕ) (d : Harts M), Idle d → k + ws.length ≤ size →
      Runs (writeWords (base + k) ws) d fun _ d' => Kept d d' ∧ d'.busy = 0 ∧ (∀ j < k, get d' j = get d j) ∧
        Loaded ws (fun j => get d' (k + j)) ∧ other d' = other d
  | [], k, d, h, _ =>
    runs_pure ⟨⟨rfl, rfl, rfl, rfl, rfl, rfl⟩, h.busy, fun _ _ => rfl, fun _ _ hj => (by cases hj), rfl⟩
  | w :: ws, k, d, h, hlen => by
    rw [List.length_cons] at hlen
    refine (hwrite k w d h (by omega)).bind ?_
    rintro - d₁ ⟨hkept, hbusy, hget, hother⟩
    refine (runs_writeWords get other hwrite ws (k + 1) d₁ (hkept.idle h hbusy) (by omega)).mono ?_
    rintro - d₂ ⟨hkept', hbusy', hlow, hloaded, hother'⟩
    refine ⟨hkept.trans hkept', hbusy', fun j hj => ?_, fun j x hx => ?_, hother'.trans hother⟩
    · rw [hlow j (by omega), hget, Function.update_of_ne (by omega)]
    · cases j with
      | zero =>
        cases hx
        change get d₂ k = w
        rw [hlow k (by omega), hget, Function.update_self]
      | succ j =>
        have := hloaded j x hx
        change get d₂ (k + (j + 1)) = x
        rwa [show k + (j + 1) = k + 1 + j by omega]

/-- A halted hart 0 carries a command out. -/
theorem runs_perform {command : BitVec 32} (h : Idle d) (hrun : d.run 0 = .halted) :
    Runs (writeDtm dmCommand command) d fun _ d' => ∃ err, Kept { d with
      cmderr := err, executed := d.executed ++ [⟨0, command, d.progbuf, d.data⟩] } d' := by
  obtain ⟨h1, h2⟩ := @not_buffer M dmCommand (by decide) (by decide)
  have ht := h.tick
  have hready : ¬ ¬ (d.tick.hartsel < M.n ∧ d.tick.run d.tick.hartsel = .halted) := by
    rw [ht.hartsel, h.tick_run]
    exact not_not.mpr ⟨M.pos, hrun⟩
  refine runs_of_eq () (d.tick.perform command) (fun _ => ?_) ?_
  · simp only [writeDtm, Prog.modifyGet, dmiWrite]
    rw [if_neg h1, if_neg h2, if_neg (by decide), if_pos trivial, if_neg (not_not.mpr ht.busy)]
  · unfold perform
    rw [if_neg (not_not.mpr ht.cmderr), if_neg (not_not.mpr ht.busy), if_neg hready]
    refine ⟨(M.effect d.tick.hartsel command d.tick.progbuf d.tick.data).1, rfl, rfl, rfl, h.tick_run, ?_, rfl⟩
    change d.executed ++ [⟨d.hartsel, _, _, _⟩] = _
    rw [h.hartsel]
    rfl

theorem abstractcs_values : ∀ p ≤ 16, ∀ n ≤ 12, ∀ e < 8,
    BitVec.ofNat 32 (p * 2 ^ 24 + 2 ^ 12 + e * 2 ^ 8 + n) &&& dmAbstractcsBusy ≠ 0 ∧
      BitVec.ofNat 32 (p * 2 ^ 24 + 0 + e * 2 ^ 8 + n) &&& dmAbstractcsBusy = 0 ∧
      getField (BitVec.ofNat 32 (p * 2 ^ 24 + 0 + e * 2 ^ 8 + n)) dmAbstractcsCmderr = BitVec.ofNat 32 e := by
  decide +kernel

theorem runs_waitDone (hs : ∀ j, d.run j = .running ∨ d.run j = .halted) :
    Runs (Prog.repeatUntil (readDtm dmAbstractcs) fun v => v &&& dmAbstractcsBusy = 0) d fun v d' =>
      getField v dmAbstractcsCmderr = BitVec.ofNat 32 d.cmderr.toNat ∧ Kept d d' ∧ d'.busy = 0 := by
  refine Runs.repeatUntil (fun d' => Kept d d') (fun d' => d'.busy) ?_ ⟨rfl, rfl, rfl, rfl, rfl, rfl⟩
  intro d₁ h₁
  refine runs_readAbstractcs.mono ?_
  rintro v d₂ ⟨rfl, rfl⟩
  have ht := h₁.tick hs
  obtain ⟨hbusy, hdone, herr⟩ :=
    abstractcs_values _ M.progbufsize_le _ M.datacount_le d₁.tick.cmderr.toNat d₁.tick.cmderr.isLt
  rw [decide_eq_true_eq, decide_eq_false_iff_not]
  unfold abstractcs
  by_cases hb : d₁.tick.busy = 0
  · rw [if_neg (not_not.mpr hb), ← ht.cmderr]
    exact Or.inl ⟨hdone, herr, ht, hb⟩
  · rw [if_pos hb]
    have hlt : d₁.busy - 1 < d₁.busy := by
      have : d₁.busy - 1 ≠ 0 := hb
      omega
    exact Or.inr ⟨hbusy, ht, hlt⟩

/-- The state with its error cleared. -/
def cleared (d : Harts M) : Harts M := { d with cmderr := 0 }

/-- An error is logged and cleared. -/
theorem runs_die (hs : ∀ j, d.run j = .running ∨ d.run j = .halted) (hbusy : d.busy = 0) :
    Runs (writeDtm dmAbstractcs dmAbstractcsCmderr) d fun _ d' => Kept d.cleared d' ∧ d'.busy = 0 := by
  obtain ⟨h1, h2⟩ := @not_buffer M dmAbstractcs (by decide) (by decide)
  have hb : d.tick.busy = 0 := by
    change d.busy - 1 = 0
    rw [hbusy]
  refine runs_of_eq () { d.tick with cmderr := 0 } (fun _ => ?_)
    ⟨⟨rfl, rfl, rfl, funext fun j => tickHart_stable (hs j), rfl, rfl⟩, hb⟩
  have hclear : ∀ e : BitVec 3, e &&& ~~~((getField dmAbstractcsCmderr dmAbstractcsCmderr).setWidth 3) = 0 := by
    decide
  simp only [writeDtm, Prog.modifyGet, dmiWrite]
  rw [if_neg h1, if_neg h2, if_neg (by decide), if_neg (by decide), if_pos trivial,
    if_neg (not_not.mpr hb), hclear]

/-- Since `d`, hart `i` has carried out the command, with these words in the program buffer and the data
registers. -/
def Ran (i : ℕ) (command : BitVec 32) (program data : List (BitVec 32)) (d d' : Harts M) : Prop :=
  ∃ es, d'.executed = d.executed ++ es ∧
    ∃ e ∈ es, e.hart = i ∧ e.command = command ∧ Loaded program e.progbuf ∧ Loaded data e.data

/-- **A command that writes a register is carried out by hart 0**, whatever it does. -/
theorem runs_runAbstractCommand {command : BitVec 32} {program data : List (BitVec 32)} (h : Idle d)
    (hrun : d.run 0 = .halted) (hp : program.length ≤ M.progbufsize) (hdata : data.length ≤ M.datacount)
    (hwrite : getField command acAccessRegisterWrite ≠ 0)
    (htransfer : getField command acAccessRegisterTransfer ≠ 0) :
    Runs (runAbstractCommand command program data) d fun _ d' =>
      Idle d' ∧ d'.run = d.run ∧ d'.currentHart = d.currentHart ∧ Ran 0 command program data d d' := by
  unfold runAbstractCommand
  refine runs_guard_bind hp (runs_guard_bind hdata ?_)
  refine (runs_writeWords progbuf Harts.data (fun i v d => runs_writeProgbuf) program 0 d h (by omega)).bind ?_
  rintro - d₁ ⟨hkept₁, hbusy₁, -, hprog₁, -⟩
  have h₁ := hkept₁.idle h hbusy₁
  rw [if_pos ⟨hwrite, htransfer⟩]
  refine (runs_writeWords Harts.data progbuf (fun i v d => runs_writeData) data 0 d₁ h₁ (by omega)).bind ?_
  rintro - d₂ ⟨hkept₂, hbusy₂, -, hdata₂, hother₂⟩
  have h₂ := hkept₂.idle h₁ hbusy₂
  have hkept := hkept₁.trans hkept₂
  refine (runs_perform h₂ (by rw [hkept.run]; exact hrun)).bind ?_
  rintro - d₃ ⟨err, hkept₃⟩
  have hs₃ : ∀ j, d₃.run j = .running ∨ d₃.run j = .halted := by
    rw [hkept₃.run]
    exact h₂.stable
  refine (runs_waitDone hs₃).bind ?_
  rintro v d₄ ⟨hv, hkept₄, hbusy₄⟩
  have hran : Ran 0 command program data d d₄.cleared := by
    refine ⟨_, (hkept₄.executed.trans hkept₃.executed).trans (congrArg (· ++ _) hkept.executed), _,
      List.mem_singleton_self _, rfl, rfl, ?_, ?_⟩
    · rw [hother₂]
      intro j w hw
      simpa using hprog₁ j w hw
    · intro j w hw
      simpa using hdata₂ j w hw
  have hrun₄ : d₄.run = d.run := (hkept₄.run.trans hkept₃.run).trans hkept.run
  have hcurrent : d₄.currentHart = d.currentHart :=
    (hkept₄.currentHart.trans hkept₃.currentHart).trans hkept.currentHart
  have hidle : Idle d₄.cleared :=
    ⟨(hkept₄.dmactive.trans hkept₃.dmactive).trans h₂.dmactive,
      (hkept₄.hartsel.trans hkept₃.hartsel).trans h₂.hartsel,
      rfl, hbusy₄, hrun₄ ▸ h.stable⟩
  dsimp only
  rw [if_neg fun hc => hwrite hc.1]
  refine runs_pure_bind ?_
  split_ifs with herr
  · refine (@runs_die M d₄ hidle.stable hbusy₄).bind ?_
    rintro - d₅ ⟨hkept₅, hbusy₅⟩
    refine runs_pure ⟨hkept₅.idle hidle hbusy₅, hkept₅.run.trans hrun₄, hkept₅.currentHart.trans hcurrent, ?_⟩
    obtain ⟨e, he, hrest⟩ := hran
    exact ⟨e, hkept₅.executed.trans he, hrest⟩
  · have hzero : d₄.cmderr = 0 := by
      rw [hkept₄.cmderr]
      rw [hv] at herr
      revert herr
      generalize d₃.cmderr = e
      revert e
      decide
    have hsame : d₄.cleared = d₄ := by
      unfold cleared
      rw [← hzero]
    rw [hsame] at hidle hran
    exact runs_pure ⟨hidle, hrun₄, hcurrent, hran⟩

/-! ## Synchronising the harts -/

theorem postexecCommand_fields (X : Xlen) : getField (postexecCommand X) acAccessRegisterWrite ≠ 0 ∧
    getField (postexecCommand X) acAccessRegisterTransfer ≠ 0 := by
  cases X <;> decide

theorem length_halves (X : Xlen) (v : BitVec 64) : (halves X v).length = X.words := by
  cases X <;> simp [halves, Xlen.bits, Xlen.words]

/-- Reading a data register changes nothing. -/
theorem runs_readData {i : ℕ} (h : Idle d) (hi : i < M.datacount) :
    Runs (readDtm (dmData0 + i)) d fun _ d' => Kept d d' ∧ d'.busy = 0 := by
  refine runs_of_eq (d.tick.data i) d.tick (fun _ => ?_) ⟨h.kept_tick, h.tick.busy⟩
  simp only [readDtm, Prog.modifyGet, dmiRead]
  rw [if_pos (by omega), if_neg (not_not.mpr h.tick.busy), Nat.add_sub_cancel_left]

/-- Hart 0 halts and carries out a program of the driver. -/
theorem runs_halt_command {α : Type} {program data : List (BitVec 32)}
    {k : BitVec 32 × List (BitVec 32) → Prog (Harts M) α} {R : α → Harts M → Prop} (h : Idle d)
    (hp : program.length ≤ M.progbufsize) (hdata : data.length ≤ M.datacount)
    (hk : ∀ r d', Idle d' → d'.run 0 = .halted → d'.currentHart = 0 →
      Ran 0 (postexecCommand M.xlen) program data d d' →
      Runs (k r) d' R) :
    Runs (halt 0 >>= fun _ => runAbstractCommand (postexecCommand M.xlen) program data >>= k) d R := by
  obtain ⟨hwrite, htransfer⟩ := postexecCommand_fields M.xlen
  refine (runs_halt_zero h).bind ?_
  rintro - d₁ ⟨h₁, hcurrent₁⟩
  refine (runs_runAbstractCommand (h₁.idle h (Or.inr rfl)) h₁.run_zero hp hdata hwrite htransfer).bind ?_
  rintro r d₂ ⟨h₂, hrun₂, hcurrent₂, es, hes, hran⟩
  refine hk r d₂ h₂ ?_ (hcurrent₂.trans hcurrent₁) ⟨es, ?_, hran⟩
  · rw [hrun₂]
    exact h₁.run_zero
  · rw [hes, h₁.executed]

/-- What a step of the loop leaves behind. -/
structure Stepped (command : BitVec 32) (program data : List (BitVec 32)) (d d' : Harts M) : Prop where
  idle : Idle d'
  currentHart : d'.currentHart = 0
  ran : Ran 0 command program data d d'

theorem runs_resume_stepped {command : BitVec 32} {program data : List (BitVec 32)} (h : Idle d)
    (hrun : d.run 0 = .halted) (hran : Ran 0 command program data d₀ d) :
    Runs (resume 0) d fun _ d' => Stepped command program data d₀ d' := by
  refine (runs_resume_zero h hrun).mono ?_
  rintro - d' ⟨h', hcurrent⟩
  obtain ⟨es, hes, hran⟩ := hran
  exact ⟨h'.idle h (Or.inl rfl), hcurrent, es, h'.executed.trans hes, hran⟩

theorem runs_fenceI (h : Idle d) (hcurrent : d.currentHart = 0) (hp : 2 ≤ M.progbufsize) :
    Runs fenceI d fun _ d' => Stepped (postexecCommand M.xlen) fenceProgram [] d d' := by
  unfold fenceI
  refine runs_getCurrentHart_bind ?_
  rw [hcurrent]
  refine runs_halt_command h hp (Nat.zero_le _) fun r d₁ h₁ hrun₁ hcurrent₁ hran => ?_
  refine runs_getCurrentHart_bind ?_
  rw [hcurrent₁]
  exact runs_resume_stepped h₁ hrun₁ hran

theorem runs_modifyCsr {which type : BitVec 32} {value : BitVec 64} (h : Idle d) (hcurrent : d.currentHart = 0)
    (hp : 6 ≤ M.progbufsize) (hdata : M.xlen.words ≤ M.datacount) :
    Runs (modifyCsr which value type) d fun _ d' =>
      Stepped (postexecCommand M.xlen) (csrProgram M which type) (halves M.xlen value) d d' := by
  have hwords := M.xlen.words_cases
  unfold modifyCsr
  refine runs_getCurrentHart_bind ?_
  rw [hcurrent]
  refine runs_halt_command h hp ((length_halves _ _).trans_le hdata) fun r d₁ h₁ hrun₁ hcurrent₁ hran => ?_
  refine (runs_readData (i := 0) h₁ (by omega)).bind ?_
  rintro lo d₂ ⟨hkept₂, hbusy₂⟩
  have hfinish : ∀ (res : BitVec 64) (d₃ : Harts M), Kept d₁ d₃ → d₃.busy = 0 →
      Runs (getCurrentHart >>= fun c => resume c >>= fun _ => pure res) d₃ fun _ d' =>
        Stepped (postexecCommand M.xlen) (csrProgram M which type) (halves M.xlen value) d d' := by
    intro res d₃ hkept hbusy
    obtain ⟨es, hes, hran⟩ := hran
    refine runs_getCurrentHart_bind ?_
    rw [hkept.currentHart, hcurrent₁]
    refine (runs_resume_stepped (hkept.idle h₁ hbusy) ?_ ⟨es, hkept.executed.trans hes, hran⟩).bind ?_
    · rw [hkept.run]
      exact hrun₁
    · rintro - d₄ h₄
      exact runs_pure h₄
  dsimp only
  split_ifs with hbits
  · have hwide : M.xlen.words = 2 := by
      unfold Xlen.words
      omega
    refine (runs_readData (i := 1) (hkept₂.idle h₁ hbusy₂) (by omega)).bind ?_
    rintro hi d₃ ⟨hkept₃, hbusy₃⟩
    exact hfinish _ d₃ (hkept₂.trans hkept₃) hbusy₃
  · exact hfinish _ d₂ hkept₂ hbusy₂

/-- Every hart has carried out `fence.i`, and where there is no CLINT the write of its entry point. -/
def Synced (clintBase entry : BitVec 64) (d d' : Harts M) : Prop :=
  ∀ i < M.n, Ran i (postexecCommand M.xlen) fenceProgram [] d d' ∧
    (clintBase = 0 → Ran i (postexecCommand M.xlen) (csrProgram M csrDpc rvCsrWrite) (halves M.xlen entry) d d')

theorem Ran.append {i : ℕ} {command : BitVec 32} {program data : List (BitVec 32)} {d₁ d₂ : Harts M}
    (h : Ran i command program data d d₁) (hext : ∃ es, d₂.executed = d₁.executed ++ es) :
    Ran i command program data d d₂ := by
  obtain ⟨es, hes, e, he, hran⟩ := h
  obtain ⟨es', hes'⟩ := hext
  exact ⟨es ++ es', by rw [hes', hes, List.append_assoc], e, List.mem_append_left _ he, hran⟩

theorem Ran.prepend {i : ℕ} {command : BitVec 32} {program data : List (BitVec 32)} {d₁ d₂ : Harts M}
    (h : Ran i command program data d₁ d₂) (hext : ∃ es, d₁.executed = d.executed ++ es) :
    Ran i command program data d d₂ := by
  obtain ⟨es, hes, e, he, hran⟩ := h
  obtain ⟨es', hes'⟩ := hext
  exact ⟨es' ++ es, by rw [hes, hes', List.append_assoc], e, List.mem_append_right _ he, hran⟩

/-- A single hart is synchronised. -/
theorem runs_syncHarts {clintBase entry : BitVec 64} (h : Idle d) (hn : M.n = 1) (hp : 6 ≤ M.progbufsize)
    (hdata : M.xlen.words ≤ M.datacount) :
    Runs (syncHarts M.n clintBase entry) d fun _ d' => Synced clintBase entry d d' := by
  unfold syncHarts
  rw [hn]
  refine Runs.bind (Q := fun _ d' => Synced clintBase entry d d') ?_ fun _ d' hd' => runs_pure hd'
  refine (runs_selectHart h 0).bind ?_
  rintro - d₁ ⟨h₁, -, -, hexec₁, hcurrent₁⟩
  refine (runs_fenceI h₁ hcurrent₁ (by omega)).bind ?_
  rintro - d₂ h₂
  have hext₁ : ∃ es, d₁.executed = d.executed ++ es := ⟨[], by rw [hexec₁, List.append_nil]⟩
  have hext₂ : ∃ es, d₂.executed = d.executed ++ es := by
    obtain ⟨es, hes, -⟩ := h₂.ran
    exact ⟨es, by rw [hes, hexec₁]⟩
  split_ifs with hclint
  · refine (runs_modifyCsr h₂.idle h₂.currentHart hp hdata).bind ?_
    rintro - d₃ h₃
    refine runs_pure fun i hi => ?_
    obtain rfl : i = 0 := by omega
    obtain ⟨es, hes, -⟩ := h₃.ran
    exact ⟨(h₂.ran.prepend hext₁).append ⟨es, hes⟩, fun _ => h₃.ran.prepend hext₂⟩
  · refine runs_pure fun i hi => ?_
    obtain rfl : i = 0 := by omega
    exact ⟨h₂.ran.prepend hext₁, fun hc => absurd hc hclint⟩

/-! ## Reaching every hart -/

/-- The harts are counted, and each number selects, halts and resumes the hart it names and no other, so that every
hart is synchronised. -/
structure ReachesHarts (d : Harts M) : Prop where
  enumerate : Runs enumerateHarts d fun r _ => r = M.n
  select : ∀ i < M.n, Runs (selectHart i) d fun _ d' => d'.selected = {i}
  halt : ∀ i < M.n, Runs (halt i) d fun _ d' => d'.run = Function.update d.run i .halted
  resume : ∀ i < M.n, d.run i = .halted → Runs (resume i) d fun _ d' => d'.run = Function.update d.run i .running
  sync : ∀ clintBase entry, Runs (syncHarts M.n clintBase entry) d fun _ d' => Synced clintBase entry d d'

/-- Number 1 selects hart 0. -/
theorem ReachesHarts.single (hr : ReachesHarts d) (h : Idle d) : M.n = 1 := by
  have hpos := M.pos
  by_contra hne
  obtain ⟨-, d', hsel, hidle, -⟩ := ((hr.select 1 (by omega)).and (runs_selectHart h 1)).exists
  have hzero := zero_mem_selected hidle.hartsel
  rw [hsel, Finset.mem_singleton] at hzero
  omega

/-- **Every hart is reached only where there is a single one**, and `hasel` does not pass for a second. -/
theorem reachesHarts_iff (M : HartTarget) (hp : 6 ≤ M.progbufsize) (hdata : M.xlen.words ≤ M.datacount)
    (d : Harts M)
    (h : Idle d) : ReachesHarts d ↔ M.n = 1 ∧ ∀ mask, M.arrayMask = some mask → ∃ i ∈ mask, M.n ≤ i := by
  constructor
  · intro hr
    have hn := hr.single h
    refine ⟨hn, fun mask hmask => ?_⟩
    by_contra hno
    obtain ⟨r, d', hcount, hcode, -⟩ := (hr.enumerate.and (runs_enumerateHarts h)).exists
    rw [hcount, hn] at hcode
    simp only [enumerated, hmask, if_neg hno] at hcode
    omega
  · rintro ⟨hn, hmask⟩
    have hzero : ∀ {i}, i < M.n → i = 0 := fun hi => by omega
    have hcount : enumerated M = M.n := by
      unfold enumerated
      rw [hn] at hmask ⊢
      split
      · rfl
      · rename_i mask hsome
        exact if_pos (hmask mask hsome)
    refine ⟨?_, fun i hi => ?_, fun i hi => ?_, fun i hi hrun => ?_, fun _ _ => runs_syncHarts h hn hp hdata⟩
    · refine (runs_enumerateHarts h).mono ?_
      rintro r d' ⟨rfl, -⟩
      exact hcount
    · obtain rfl := hzero hi
      refine (runs_selectHart h 0).mono ?_
      rintro - d' ⟨hidle, hhasel, -⟩
      exact selected_single hidle.hartsel (hhasel.trans (Bool.and_false _))
    · obtain rfl := hzero hi
      exact (runs_halt_zero h).mono fun _ d' hd' => hd'.1.run
    · obtain rfl := hzero hi
      exact (runs_resume_zero h hrun).mono fun _ d' hd' => hd'.1.run

/-- A 64-bit target with `n` harts and no hart array mask, whose commands succeed at once. -/
def plainTarget (n : ℕ) (pos : 1 ≤ n) (lt : n < 2 ^ 10) : HartTarget where
  n := n
  xlen := .rv64
  progbufsize := 16
  datacount := 12
  dataBase := 0x380
  arrayMask := none
  legal := fun i => min i (n - 1)
  latency := fun _ => 0
  effect := fun _ _ _ data => (0, data)
  pos := pos
  lt := lt
  progbufsize_le := le_rfl
  datacount_le := le_rfl
  legal_of_lt := fun i hi => by omega

/-- The module once the driver has enabled it. -/
def enabled (M : HartTarget) : Harts M where
  dmactive := true
  hartsel := 0
  hasel := false
  run := fun _ => .running
  resumeack := fun _ => false
  data := fun _ => 0
  progbuf := fun _ => 0
  cmderr := 0
  busy := 0
  clock := 0
  executed := []
  currentHart := 0

theorem idle_enabled (M : HartTarget) : Idle (enabled M) := ⟨rfl, rfl, rfl, rfl, fun _ => Or.inl rfl⟩

theorem singleHart_reached : ReachesHarts (enabled (plainTarget 1 (by decide) (by decide))) :=
  (reachesHarts_iff (plainTarget 1 (by decide) (by decide)) (by decide) (by decide) _ (idle_enabled _)).mpr
    ⟨rfl, fun _ hmask => (by cases hmask)⟩

/-- With two harts, the second is never selected. -/
theorem twoHarts_not_reached : ¬ ReachesHarts (enabled (plainTarget 2 (by decide) (by decide))) := fun hr =>
  absurd (hr.single (idle_enabled _)) (by decide)

end Harts

end Soceteer.Fesvr
