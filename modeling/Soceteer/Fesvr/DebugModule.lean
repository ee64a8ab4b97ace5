import Soceteer.Fesvr.Rv
import Soceteer.Lib.Prog

/-!
# Soceteer.Fesvr.DebugModule — the debug module behind the driver

The registers the driver reaches over the debug bus, as the debug specification and `riscv/debug_module.cc` have
them: halting and resuming a hart, abstract register access, the program buffer, automatic execution, and the error
each misuse leaves in `cmderr`.  Every access takes a unit of time, and halting, resuming and commands take as long
as the target likes.

* `Target`, `Arch`, `Dm`: a target's parameters, its architectural state, and the state of its debug module.
* `accessRegister`, `performAbstractCommand`: the access-register command.
* `dmiRead`, `dmiWrite`: one access over the bus.
* `Settled`, `Ready`: the states the driver works in; `runs_*`: what its accesses do there.
-/

namespace Soceteer.Fesvr

open Soceteer.Lib Filter

/-! ## Registers and fields, from `debug_defines.h` -/

def dmData0 : ℕ := 0x04
def dmDmcontrol : ℕ := 0x10
def dmDmstatus : ℕ := 0x11
def dmAbstractcs : ℕ := 0x16
def dmCommand : ℕ := 0x17
def dmAbstractauto : ℕ := 0x18
def dmProgbuf0 : ℕ := 0x20

def dmDmstatusAllresumeack : BitVec 32 := 0x20000
def dmDmstatusAllhalted : BitVec 32 := 0x200
def dmDmcontrolHaltreq : BitVec 32 := 0x80000000
def dmDmcontrolResumereq : BitVec 32 := 0x40000000
def dmDmcontrolHasel : BitVec 32 := 0x4000000
def dmDmcontrolHartsello : BitVec 32 := 0x3ff0000
def dmDmcontrolHartselhi : BitVec 32 := 0xffc0
def dmDmcontrolDmactive : BitVec 32 := 1
def dmAbstractcsBusy : BitVec 32 := 0x1000
def dmAbstractcsCmderr : BitVec 32 := 0x700
def dmAbstractautoAutoexecprogbuf : BitVec 32 := 0xffff0000
def dmAbstractautoAutoexecdata : BitVec 32 := 0xfff
def acAccessRegisterCmdtype : BitVec 32 := 0xff000000
def acAccessRegisterAarsize : BitVec 32 := 0x700000
def acAccessRegisterAarpostincrement : BitVec 32 := 0x80000
def acAccessRegisterPostexec : BitVec 32 := 0x40000
def acAccessRegisterTransfer : BitVec 32 := 0x20000
def acAccessRegisterWrite : BitVec 32 := 0x10000
def acAccessRegisterRegno : BitVec 32 := 0xffff

/-- `get_field` of `riscv/decode.h`. -/
def getField (reg mask : BitVec 32) : BitVec 32 := (reg &&& mask) / (mask &&& ~~~(mask <<< 1))

/-- `set_field` of `riscv/decode.h`. -/
def setField (reg mask val : BitVec 32) : BitVec 32 :=
  (reg &&& ~~~mask) ||| ((val * (mask &&& ~~~(mask <<< 1))) &&& mask)

/-! ## State -/

/-- What the specification leaves to a target.  `latency t` is how many accesses an operation that starts at time
`t` takes to complete. -/
structure Target where
  xlen : Xlen
  progbufsize : ℕ
  datacount : ℕ
  latency : ℕ → ℕ
  progbufsize_le : progbufsize ≤ 16
  datacount_le : datacount ≤ 12

/-- Memory, the registers of each hart, and the data registers and program buffer. -/
structure Arch (T : Target) where
  mem : Mem T.xlen.bits
  gprs : ℕ → ℕ → BitVec T.xlen.bits
  data : ℕ → BitVec 32
  progbuf : ℕ → BitVec 32

/-- Whether a hart runs its program.  One that does is idle as far as memory and registers go. -/
inductive RunState
  | running
  | halting (wait : ℕ)
  | halted
  | resuming (wait : ℕ)
  deriving DecidableEq

structure Dm (T : Target) extends Arch T where
  command : BitVec 32
  cmderr : BitVec 3
  autoexecdata : BitVec 12
  autoexecprogbuf : BitVec 16
  hartsel : ℕ
  run : ℕ → RunState
  resumeack : ℕ → Bool
  busy : ℕ
  clock : ℕ

variable {T : Target}

def Arch.setData (a : Arch T) (i : ℕ) (v : BitVec 32) : Arch T := { a with data := Function.update a.data i v }

def Arch.setProgbuf (a : Arch T) (i : ℕ) (v : BitVec 32) : Arch T :=
  { a with progbuf := Function.update a.progbuf i v }

def Dm.setArch (d : Dm T) (a : Arch T) : Dm T := { d with toArch := a }

def Dm.setCommand (d : Dm T) (v : BitVec 32) : Dm T := { d with command := v }

/-! ## Abstract commands -/

/-- The state of one hart. -/
def Arch.core (a : Arch T) (hart : ℕ) : Core T.xlen := ⟨a.gprs hart, a.mem⟩

def Arch.setCore (a : Arch T) (hart : ℕ) (c : Core T.xlen) : Arch T :=
  { a with gprs := Function.update a.gprs hart c.gprs, mem := c.mem }

/-- Argument 0 of a command: `data0`, or `data1` and `data0` for a 64-bit one. -/
def arg0 (X : Xlen) (wide : Bool) (data : ℕ → BitVec 32) : BitVec X.bits :=
  if wide then (data 1 ++ data 0).setWidth X.bits else (data 0).setWidth X.bits

/-- The data registers with a register's value in argument 0. -/
def setArg0 {X : Xlen} (wide : Bool) (v : BitVec X.bits) (data : ℕ → BitVec 32) : ℕ → BitVec 32 := fun i =>
  if i = 0 then v.setWidth 32 else if i = 1 ∧ wide then (v >>> 32).setWidth 32 else data i

/-- Run the program buffer on a hart, if the command asks for it; an exception is error 3. -/
def postexec (p : Bool) (hart n : ℕ) (a : Arch T) : Option (BitVec 3 × Arch T) :=
  if p then (runProgbuf a.progbuf T.progbufsize n 0 (a.core hart)).map fun r =>
    (if r.1 then 0 else 3, a.setCore hart r.2)
  else some (0, a)

/-- The access-register command: its error and the state after it.  Only the integer registers can be reached; 32
bits are the smallest access and the register width the largest. -/
def accessRegister (command : BitVec 32) (hart n : ℕ) (a : Arch T) : Option (BitVec 3 × Arch T) :=
  let size := getField command acAccessRegisterAarsize
  let regno := (getField command acAccessRegisterRegno).toNat
  let wide := decide (size = 3)
  let p := decide (getField command acAccessRegisterPostexec ≠ 0)
  if getField command acAccessRegisterCmdtype ≠ 0 ∨ getField command acAccessRegisterAarpostincrement ≠ 0 then
    some (2, a)
  else if getField command acAccessRegisterTransfer = 0 then postexec p hart n a
  else if ¬ (0x1000 ≤ regno ∧ regno < 0x1020) ∨ ¬ (size = 2 ∨ size = 3 ∧ T.xlen = .rv64 ∧ 2 ≤ T.datacount) then
    some (2, a)
  else if getField command acAccessRegisterWrite ≠ 0 then
    postexec p hart n (a.setCore hart ((a.core hart).setReg (regno - 0x1000) (arg0 T.xlen wide a.data)))
  else postexec p hart n { a with data := setArg0 wide ((a.core hart).reg (regno - 0x1000)) a.data }

namespace Dm

variable (d : Dm T)

/-- No command is started over an error, during another command, or on a hart that is not halted. -/
def performAbstractCommand (n : ℕ) : Option (Dm T) :=
  if d.cmderr ≠ 0 then some d
  else if d.busy ≠ 0 then some { d with cmderr := 1 }
  else if d.run d.hartsel ≠ .halted then some { d with cmderr := 4 }
  else (accessRegister d.command d.hartsel n d.toArch).map fun r =>
    { d with toArch := r.2, cmderr := r.1, busy := T.latency d.clock }

/-! ## The debug bus -/

/-- A unit of time for a hart. -/
def tickHart : RunState → RunState
  | .halting 0 => .halted
  | .halting (k + 1) => .halting k
  | .resuming 0 => .running
  | .resuming (k + 1) => .resuming k
  | s => s

/-- A unit of time. -/
def tick : Dm T :=
  { d with
    busy := d.busy - 1
    clock := d.clock + 1
    run := fun h => tickHart (d.run h)
    resumeack := fun h => d.resumeack h || decide (d.run h = .resuming 0) }

/-- An access that a running command forbids. -/
def busyError : Dm T := if d.cmderr = 0 then { d with cmderr := 1 } else d

/-- The command again, after an access that automatic execution watches. -/
def autoexec (watched : Bool) (n : ℕ) : Option (Dm T) := if watched then d.performAbstractCommand n else some d

def abstractcs : BitVec 32 :=
  BitVec.ofNat 32 (T.progbufsize * 2 ^ 24 + (if d.busy ≠ 0 then 2 ^ 12
    else 0) + d.cmderr.toNat * 2 ^ 8 + T.datacount)

/-- `dmstatus` of the selected hart, as far as halting and resuming go. -/
def dmstatus : BitVec 32 :=
  (if d.run d.hartsel = .halted then dmDmstatusAllhalted else 0) |||
    (if d.resumeack d.hartsel then dmDmstatusAllresumeack else 0)

/-- A halt or resume request to a hart. -/
def request (haltreq resumereq : Bool) (latency : ℕ) : RunState → RunState
  | .running => if haltreq then .halting latency else .running
  | .halting k => if haltreq then .halting k else .running
  | .halted => if resumereq && !haltreq then .resuming latency else .halted
  | .resuming k => .resuming k

/-- A write to `dmcontrol` selects a hart and makes a request to it; with `dmactive` low it resets the module. -/
def writeDmcontrol (v : BitVec 32) : Dm T :=
  if getField v dmDmcontrolDmactive = 0 then
    { d with command := 0, cmderr := 0, autoexecdata := 0, autoexecprogbuf := 0, hartsel := 0, busy := 0 }
  else
    let haltreq := decide (getField v dmDmcontrolHaltreq ≠ 0)
    let resumereq := decide (getField v dmDmcontrolResumereq ≠ 0)
    let h := (getField v dmDmcontrolHartselhi).toNat * 1024 + (getField v dmDmcontrolHartsello).toNat
    { d with
      hartsel := h
      run := Function.update d.run h (request haltreq resumereq (T.latency d.clock) (d.run h))
      resumeack := if resumereq && !haltreq then Function.update d.resumeack h false else d.resumeack }

/-- A read over the bus.  A register not listed reads as zero. -/
def dmiRead (n addr : ℕ) : Option (BitVec 32 × Dm T) :=
  let d := d.tick
  if dmData0 ≤ addr ∧ addr < dmData0 + T.datacount then
    if d.busy ≠ 0 then some (0, d.busyError)
    else (d.autoexec (d.autoexecdata.getLsbD (addr - dmData0)) n).map fun d' => (d.data (addr - dmData0), d')
  else if dmProgbuf0 ≤ addr ∧ addr < dmProgbuf0 + T.progbufsize then
    if d.busy ≠ 0 then some (0, d.busyError)
    else (d.autoexec (d.autoexecprogbuf.getLsbD (addr - dmProgbuf0)) n).map fun d' =>
      (d.progbuf (addr - dmProgbuf0), d')
  else if addr = dmDmstatus then some (d.dmstatus, d)
  else if addr = dmAbstractcs then some (d.abstractcs, d)
  else some (0, d)

/-- A write over the bus.  A register not listed ignores it. -/
def dmiWrite (n addr : ℕ) (v : BitVec 32) : Option (Dm T) :=
  let d := d.tick
  if dmData0 ≤ addr ∧ addr < dmData0 + T.datacount then
    if d.busy ≠ 0 then some d.busyError
    else (d.setArch (d.setData (addr - dmData0) v)).autoexec (d.autoexecdata.getLsbD (addr - dmData0)) n
  else if dmProgbuf0 ≤ addr ∧ addr < dmProgbuf0 + T.progbufsize then
    if d.busy ≠ 0 then some d.busyError
    else (d.setArch (d.setProgbuf (addr - dmProgbuf0) v)).autoexec
      (d.autoexecprogbuf.getLsbD (addr - dmProgbuf0)) n
  else if addr = dmDmcontrol then some (d.writeDmcontrol v)
  else if addr = dmCommand then
    if d.busy ≠ 0 then some d.busyError else (d.setCommand v).performAbstractCommand n
  else if addr = dmAbstractcs then
    if d.busy ≠ 0 then some d.busyError
    else some { d with cmderr := d.cmderr &&& ~~~((getField v dmAbstractcsCmderr).setWidth 3) }
  else if addr = dmAbstractauto then
    if d.busy ≠ 0 then some d.busyError
    else some { d with
      autoexecdata := (getField v dmAbstractautoAutoexecdata).setWidth 12
      autoexecprogbuf := (getField v dmAbstractautoAutoexecprogbuf).setWidth 16 }
  else some d

end Dm

/-- `read_dtm`. -/
def readDtm (addr : ℕ) : Prog (Dm T) (BitVec 32) := fun n d => d.dmiRead n addr

/-- `write_dtm`. -/
def writeDtm (addr : ℕ) (data : BitVec 32) : Prog (Dm T) Unit :=
  fun n d => (d.dmiWrite n addr data).map fun d' => ((), d')

/-! ## The states the driver works in -/

/-- Hart 0 is selected and halted, no error is recorded, and `auto` is watched for automatic execution. -/
structure Settled (auto : BitVec 12) (d : Dm T) : Prop where
  cmderr : d.cmderr = 0
  autoexecdata : d.autoexecdata = auto
  autoexecprogbuf : d.autoexecprogbuf = 0
  hartsel : d.hartsel = 0
  halted : d.run 0 = .halted

/-- No command is running either. -/
structure Ready (auto : BitVec 12) (d : Dm T) : Prop extends Settled auto d where
  idle : d.busy = 0

section Access

variable {auto : BitVec 12} {d : Dm T} {i : ℕ} {v : BitVec 32}

theorem Settled.tick (h : Settled auto d) : Settled auto d.tick :=
  ⟨h.cmderr, h.autoexecdata, h.autoexecprogbuf, h.hartsel, by simp [Dm.tick, h.halted, Dm.tickHart]⟩

theorem Ready.tick (h : Ready auto d) : Ready auto d.tick :=
  ⟨h.toSettled.tick, by simp [Dm.tick, h.idle]⟩

theorem Ready.setArch (h : Ready auto d) (a : Arch T) : Ready auto (d.setArch a) :=
  ⟨⟨h.cmderr, h.autoexecdata, h.autoexecprogbuf, h.hartsel, h.halted⟩, h.idle⟩

theorem Ready.setCommand (h : Ready auto d) (v : BitVec 32) : Ready auto (d.setCommand v) :=
  ⟨⟨h.cmderr, h.autoexecdata, h.autoexecprogbuf, h.hartsel, h.halted⟩, h.idle⟩

theorem runs_readData (h : Ready auto d) (hi : i < T.datacount) (hauto : auto.getLsbD i = false) :
    Runs (readDtm (dmData0 + i)) d fun r d' => r = d.data i ∧ Ready auto d' ∧ d'.command = d.command ∧
      d'.toArch = d.toArch := by
  refine runs_of_eq (d.data i) d.tick (fun n => ?_) ⟨rfl, h.tick, rfl, rfl⟩
  have hrange : dmData0 ≤ dmData0 + i ∧ dmData0 + i < dmData0 + T.datacount := by omega
  simp only [readDtm, Dm.dmiRead]
  rw [if_pos hrange, if_neg (not_not.mpr h.tick.idle), Nat.add_sub_cancel_left, h.tick.autoexecdata, hauto]
  rfl

theorem runs_writeData (h : Ready auto d) (hi : i < T.datacount) (hauto : auto.getLsbD i = false) :
    Runs (writeDtm (dmData0 + i) v) d fun _ d' => Ready auto d' ∧ d'.command = d.command ∧
      d'.toArch = d.toArch.setData i v := by
  refine runs_of_eq () _ (fun n => ?_) ⟨h.tick.setArch (d.toArch.setData i v), rfl, rfl⟩
  have hrange : dmData0 ≤ dmData0 + i ∧ dmData0 + i < dmData0 + T.datacount := by omega
  simp only [writeDtm, Dm.dmiWrite]
  rw [if_pos hrange, if_neg (not_not.mpr h.tick.idle), Nat.add_sub_cancel_left, h.tick.autoexecdata, hauto]
  rfl

theorem runs_writeProgbuf (h : Ready auto d) (hi : i < T.progbufsize) :
    Runs (writeDtm (dmProgbuf0 + i) v) d fun _ d' => Ready auto d' ∧ d'.toArch = d.toArch.setProgbuf i v := by
  refine runs_of_eq () _ (fun n => ?_) ⟨h.tick.setArch (d.toArch.setProgbuf i v), rfl⟩
  have hdata := T.datacount_le
  have hno : ¬ (dmData0 ≤ dmProgbuf0 + i ∧ dmProgbuf0 + i < dmData0 + T.datacount) := by
    unfold dmData0 dmProgbuf0
    omega
  have hrange : dmProgbuf0 ≤ dmProgbuf0 + i ∧ dmProgbuf0 + i < dmProgbuf0 + T.progbufsize := by omega
  have hauto : d.tick.autoexecprogbuf.getLsbD i = false := by simp [h.tick.autoexecprogbuf]
  simp only [writeDtm, Dm.dmiWrite]
  rw [if_neg hno, if_pos hrange, if_neg (not_not.mpr h.tick.idle), Nat.add_sub_cancel_left, hauto]
  rfl

/-- A started command completes in the state of its effect. -/
theorem Ready.perform {a : Arch T} (h : Ready auto d)
    (heff : ∀ᶠ n in atTop, accessRegister d.command 0 n d.toArch = some (0, a)) :
    ∃ d', (∀ᶠ n in atTop, d.performAbstractCommand n = some d') ∧ Settled auto d' ∧ d'.command = d.command ∧
      d'.toArch = a := by
  refine ⟨{ d with toArch := a, cmderr := 0, busy := T.latency d.clock }, ?_,
    ⟨rfl, h.autoexecdata, h.autoexecprogbuf, h.hartsel, h.halted⟩, rfl, rfl⟩
  filter_upwards [heff] with n hn
  rw [Dm.performAbstractCommand, if_neg (not_not.mpr h.cmderr), if_neg (not_not.mpr h.idle), h.hartsel,
    if_neg (not_not.mpr h.halted), hn]
  rfl

/-- The registers between the data registers and the program buffer. -/
theorem not_buffer {addr : ℕ} (h1 : 0x10 ≤ addr) (h2 : addr < 0x20) :
    ¬ (dmData0 ≤ addr ∧ addr < dmData0 + T.datacount) ∧
      ¬ (dmProgbuf0 ≤ addr ∧ addr < dmProgbuf0 + T.progbufsize) := by
  have h3 := T.datacount_le
  unfold dmData0 dmProgbuf0
  omega

theorem runs_writeCommand {a : Arch T} (h : Ready auto d)
    (heff : ∀ᶠ n in atTop, accessRegister v 0 n d.toArch = some (0, a)) :
    Runs (writeDtm dmCommand v) d fun _ d' => Settled auto d' ∧ d'.command = v ∧ d'.toArch = a := by
  obtain ⟨d', hrun, hset, hcmd, harch⟩ := (h.tick.setCommand v).perform heff
  refine ⟨(), d', ?_, hset, hcmd, harch⟩
  obtain ⟨h1, h2⟩ := @not_buffer T dmCommand (by decide) (by decide)
  filter_upwards [hrun] with n hn
  simp only [writeDtm, Dm.dmiWrite]
  rw [if_neg h1, if_neg h2, if_neg (by decide), if_pos trivial, if_neg (not_not.mpr h.tick.idle), hn]
  rfl

/-- Writing `data0` while it is watched starts the command again. -/
theorem runs_writeData_auto {a : Arch T} (h : Ready 1 d) (hi : 0 < T.datacount)
    (heff : ∀ᶠ n in atTop, accessRegister d.command 0 n (d.toArch.setData 0 v) = some (0, a)) :
    Runs (writeDtm dmData0 v) d fun _ d' => Settled 1 d' ∧ d'.command = d.command ∧ d'.toArch = a := by
  obtain ⟨d', hrun, hset, hcmd, harch⟩ := (h.tick.setArch (d.toArch.setData 0 v)).perform heff
  refine ⟨(), d', ?_, hset, hcmd, harch⟩
  have hrange : dmData0 ≤ dmData0 ∧ dmData0 < dmData0 + T.datacount := by omega
  filter_upwards [hrun] with n hn
  simp only [writeDtm, Dm.dmiWrite]
  rw [if_pos hrange, if_neg (not_not.mpr h.tick.idle), h.tick.autoexecdata, Nat.sub_self]
  exact congrArg (Option.map _) hn

theorem runs_writeAbstractauto (h : Ready auto d) (hv : getField v dmAbstractautoAutoexecprogbuf = 0) :
    Runs (writeDtm dmAbstractauto v) d fun _ d' =>
      Ready ((getField v dmAbstractautoAutoexecdata).setWidth 12) d' ∧ d'.command = d.command ∧
        d'.toArch = d.toArch := by
  obtain ⟨h1, h2⟩ := @not_buffer T dmAbstractauto (by decide) (by decide)
  refine runs_of_eq () { d.tick with
    autoexecdata := (getField v dmAbstractautoAutoexecdata).setWidth 12, autoexecprogbuf := 0 } (fun n => ?_)
    ⟨⟨⟨h.tick.cmderr, rfl, rfl, h.tick.hartsel, h.tick.halted⟩, h.tick.idle⟩, rfl, rfl⟩
  simp only [writeDtm, Dm.dmiWrite]
  rw [if_neg h1, if_neg h2, if_neg (by decide), if_neg (by decide), if_neg (by decide), if_pos trivial,
    if_neg (not_not.mpr h.tick.idle), hv]
  rfl

theorem runs_readAbstractcs : Runs (readDtm dmAbstractcs) d fun r d' => r = d.tick.abstractcs ∧ d' = d.tick := by
  obtain ⟨h1, h2⟩ := @not_buffer T dmAbstractcs (by decide) (by decide)
  refine runs_of_eq _ _ (fun n => ?_) ⟨rfl, rfl⟩
  simp only [readDtm, Dm.dmiRead]
  rw [if_neg h1, if_neg h2, if_neg (by decide), if_pos trivial]

theorem runs_readDmstatus : Runs (readDtm dmDmstatus) d fun r d' => r = d.tick.dmstatus ∧ d' = d.tick := by
  obtain ⟨h1, h2⟩ := @not_buffer T dmDmstatus (by decide) (by decide)
  refine runs_of_eq _ _ (fun n => ?_) ⟨rfl, rfl⟩
  simp only [readDtm, Dm.dmiRead]
  rw [if_neg h1, if_neg h2, if_pos trivial]

theorem runs_writeDmcontrol : Runs (writeDtm dmDmcontrol v) d fun _ d' => d' = d.tick.writeDmcontrol v := by
  obtain ⟨h1, h2⟩ := @not_buffer T dmDmcontrol (by decide) (by decide)
  refine runs_of_eq () _ (fun n => ?_) rfl
  simp only [writeDtm, Dm.dmiWrite]
  rw [if_neg h1, if_neg h2, if_pos trivial]
  rfl

/-! ## What the status registers show -/

theorem abstractcs_fields : ∀ p ≤ 16, ∀ n ≤ 12,
    BitVec.ofNat 32 (p * 2 ^ 24 + 2 ^ 12 + n) &&& dmAbstractcsBusy ≠ 0 ∧
      BitVec.ofNat 32 (p * 2 ^ 24 + n) &&& dmAbstractcsBusy = 0 ∧
      getField (BitVec.ofNat 32 (p * 2 ^ 24 + n)) dmAbstractcsCmderr = 0 := by
  decide

theorem abstractcs_busy (h : d.cmderr = 0) (hb : d.busy ≠ 0) : d.abstractcs &&& dmAbstractcsBusy ≠ 0 := by
  have := (abstractcs_fields _ T.progbufsize_le _ T.datacount_le).1
  simpa [Dm.abstractcs, h, hb] using this

theorem abstractcs_done (h : d.cmderr = 0) (hb : d.busy = 0) :
    d.abstractcs &&& dmAbstractcsBusy = 0 ∧ getField d.abstractcs dmAbstractcsCmderr = 0 := by
  have := (abstractcs_fields _ T.progbufsize_le _ T.datacount_le).2
  simpa [Dm.abstractcs, h, hb] using this

theorem dmstatus_allhalted :
    getField d.dmstatus dmDmstatusAllhalted = if d.run d.hartsel = .halted then 1 else 0 := by
  unfold Dm.dmstatus
  split_ifs <;> decide

theorem dmstatus_allresumeack :
    getField d.dmstatus dmDmstatusAllresumeack = if d.resumeack d.hartsel then 1 else 0 := by
  unfold Dm.dmstatus
  split_ifs <;> decide

end Access

end Soceteer.Fesvr
