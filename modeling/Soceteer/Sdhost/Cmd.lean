import Soceteer.Sdhost.CmdSerial

/-!
# Soceteer.Sdhost.Cmd — a command from the registers to its status

`sd_cmd_master` starts a command when the argument register is written, waits for the command line to finish with
it, and puts the outcome into the status and response registers; a watchdog gives up on it.

* `CmdMaster`, `CmdMaster.tick`: the block; `CmdBlock`, `CmdBlock.tick`: with `sd_cmd_serial_host` behind it.
* `Executing`: in the middle of a command; `command_answered`: its outcome, when the response comes in time.
* `command_ends`: a command ends within its timeout, whatever the line does.
-/

namespace Soceteer.Sdhost

open Lib Crc Clocked

/-! ## The source -/

inductive CmdMasterState
  | idle
  | execute
  | busyCheck
deriving DecidableEq, Inhabited

/-- The registers of `sd_cmd_master` -/
structure CmdMaster where
  expectResponse : Bool
  longResponse : Bool
  intStatusReg : BitVec 5
  watchdog : BitVec 25
  watchdogEnable : Bool
  state : CmdMasterState
  startXfr : Bool
  goIdle : Bool
  cmd : BitVec 40
  response0 : BitVec 32
  response1 : BitVec 32
  response2 : BitVec 32
  response3 : BitVec 32
deriving Inhabited

/-- What an enabled edge reads. -/
structure CmdMasterIn where
  start : Bool
  intStatusRst : Bool
  response : BitVec 120
  crcError : Bool
  indexOk : Bool
  finish : Bool
  busy : Bool
  argument : BitVec 32
  command : BitVec 14
  timeout : BitVec 25

/-! `INT_CMD_CC`, `INT_CMD_EI`, `INT_CMD_CTE`, `INT_CMD_CCRCE`, `INT_CMD_CIE` -/

def intCmdCc : ℕ := 0

def intCmdEi : ℕ := 1

def intCmdCte : ℕ := 2

def intCmdCcrce : ℕ := 3

def intCmdCie : ℕ := 4

/-- `setting` -/
def CmdMaster.setting (m : CmdMaster) : BitVec 2 := BitVec.ofBool m.longResponse ++ BitVec.ofBool m.expectResponse

/-- `int_status` -/
def CmdMaster.intStatus (m : CmdMaster) : BitVec 5 := if m.state = .idle then m.intStatusReg else 0#5

/-- The status of a finished command: `CMD_CRC_CHECK` and `CMD_IDX_CHECK` say which of its checks count. -/
def finishStatus (status : BitVec 5) (command : BitVec 14) (crcError indexOk : Bool) : BitVec 5 :=
  let status := if command.getLsbD 3 ∧ crcError then setBit (setBit status intCmdCcrce true) intCmdEi true
    else status
  let status := if command.getLsbD 4 ∧ indexOk = false then setBit (setBit status intCmdCie true) intCmdEi true
    else status
  setBit status intCmdCc true

/-- The case statement. -/
def CmdMaster.next (m : CmdMaster) (i : CmdMasterIn) : CmdMaster :=
  match m.state with
  | .idle =>
    let m' := { m with
      goIdle := false
      expectResponse := i.command.getLsbD 1 || i.command.getLsbD 0
      longResponse := i.command.getLsbD 1
      cmd := 0b01#2 ++ i.command.extractLsb' 8 6 ++ i.argument
      watchdog := 0#25
      watchdogEnable := i.timeout ≠ 0#25 }
    if i.start then { m' with startXfr := true, intStatusReg := 0#5, state := .execute } else m'
  | .execute =>
    let m' := { m with startXfr := false }
    if m.watchdogEnable ∧ i.timeout ≤ m.watchdog then
      { m' with
        intStatusReg := setBit (setBit m.intStatusReg intCmdCte true) intCmdEi true,
        goIdle := true, state := .idle }
    else if i.finish then
      let m' := { m' with
        intStatusReg := finishStatus m.intStatusReg i.command i.crcError i.indexOk
        state := if i.command.getLsbD 2 then .busyCheck else .idle }
      if m.expectResponse then
        { m' with
          response0 := i.response.extractLsb' 88 32, response1 := i.response.extractLsb' 56 32,
          response2 := i.response.extractLsb' 24 32, response3 := i.response.extractLsb' 0 24 ++ 0x00#8 }
      else m'
    else if m.watchdogEnable then { m' with watchdog := m.watchdog + 1 }
    else m'
  | .busyCheck => if i.busy then m else { m with state := .idle }

def CmdMaster.tick (m : CmdMaster) (i : CmdMasterIn) : CmdMaster :=
  let m' := m.next i
  if i.intStatusRst then { m' with intStatusReg := 0#5 } else m'

/-- Both blocks, as `sdc_controller` connects them. -/
structure CmdBlock where
  master : CmdMaster
  serial : CmdSerial
deriving Inhabited

/-- What an enabled edge reads: the registers, the pad register of the command line, and the busy line. -/
structure CmdBlockIn where
  start : Bool
  intStatusRst : Bool
  busy : Bool
  argument : BitVec 32
  command : BitVec 14
  timeout : BitVec 25
  cmdDatReg : Bool

def CmdBlock.masterIn (b : CmdBlock) (i : CmdBlockIn) : CmdMasterIn where
  start := i.start
  intStatusRst := i.intStatusRst
  response := b.serial.response
  crcError := !b.serial.crcOk
  indexOk := b.serial.indexOk
  finish := b.serial.finish
  busy := i.busy
  argument := i.argument
  command := i.command
  timeout := i.timeout

def CmdBlock.serialIn (b : CmdBlock) (i : CmdBlockIn) : CmdSerialIn where
  setting := b.master.setting
  cmd := b.master.cmd
  start := b.master.startXfr
  cmdDatReg := i.cmdDatReg

/-- An enabled edge of both; `go_idle` resets the serial block. -/
def CmdBlock.tick (b : CmdBlock) (i : CmdBlockIn) : CmdBlock where
  master := b.master.tick (b.masterIn i)
  serial := if b.master.goIdle then b.serial.reset else b.serial.tick (b.serialIn i)

/-! ## In the middle of a command -/

/-- `setting`, as the command register gives it. -/
def settingOf (command : BitVec 14) : BitVec 2 :=
  BitVec.ofBool (command.getLsbD 1) ++ BitVec.ofBool (command.getLsbD 1 || command.getLsbD 0)

/-- The 40 bits of a command. -/
def cmdOf (command : BitVec 14) (argument : BitVec 32) : BitVec 40 := 0b01#2 ++ command.extractLsb' 8 6 ++ argument

/-- After `k` edges without an outcome. -/
structure Executing (command : BitVec 14) (timeout : BitVec 25) (k : ℕ) (m : CmdMaster) : Prop where
  state : m.state = .execute
  goIdle : m.goIdle = false
  startXfr : m.startXfr = decide (k = 0)
  intStatusReg : m.intStatusReg = 0#5
  expectResponse : m.expectResponse = (command.getLsbD 1 || command.getLsbD 0)
  watchdogEnable : m.watchdogEnable = decide (timeout ≠ 0#25)
  watchdog : timeout ≠ 0#25 → m.watchdog.toNat = k

/-- The watchdog lets `k` edges pass. -/
def InTime (timeout : BitVec 25) (k : ℕ) : Prop := timeout = 0#25 ∨ k < timeout.toNat

/-- The registers that a command depends on stay as they are. -/
structure Steady (command : BitVec 14) (timeout : BitVec 25) (i : CmdBlockIn) : Prop where
  command : i.command = command
  timeout : i.timeout = timeout
  intStatusRst : i.intStatusRst = false

variable {command : BitVec 14} {timeout : BitVec 25} {m : CmdMaster} {i : CmdMasterIn} {k : ℕ}

theorem Executing.no_timeout (hm : Executing command timeout k m) (hi : i.timeout = timeout)
    (hk : InTime timeout k) :
    ¬ (m.watchdogEnable ∧ i.timeout ≤ m.watchdog) := by
  rintro ⟨hen, hle⟩
  rw [hm.watchdogEnable, decide_eq_true_iff] at hen
  rw [hi, BitVec.le_def, hm.watchdog hen] at hle
  rcases hk with h | h
  · exact hen h
  · omega

theorem Executing.tick (hm : Executing command timeout k m) (hi : i.timeout = timeout)
    (hrst : i.intStatusRst = false)
    (hfin : i.finish = false) (hk : InTime timeout k) : Executing command timeout (k + 1) (m.tick i) := by
  have hno := hm.no_timeout hi hk
  have hnext : m.tick i = if m.watchdogEnable then { m with startXfr := false, watchdog := m.watchdog + 1 }
      else { m with startXfr := false } := by
    simp [CmdMaster.tick, CmdMaster.next, hm.state, hno, hfin, hrst]
  rw [hnext]
  split_ifs with hen
  · refine ⟨hm.state, hm.goIdle, rfl, hm.intStatusReg, hm.expectResponse, hm.watchdogEnable, fun h => ?_⟩
    have hlt := timeout.isLt
    have hk := hk.resolve_left h
    change (m.watchdog + 1#25).toNat = k + 1
    rw [BitVec.toNat_add, hm.watchdog h]
    simp only [BitVec.toNat_ofNat]
    omega
  · refine ⟨hm.state, hm.goIdle, rfl, hm.intStatusReg, hm.expectResponse, hm.watchdogEnable, fun h => ?_⟩
    rw [hm.watchdogEnable, decide_eq_true_iff] at hen
    exact absurd h hen

theorem response_parts (x : BitVec 120) : x.extractLsb' 88 32 ++ x.extractLsb' 56 32 ++ x.extractLsb' 24 32 ++
    (x.extractLsb' 0 24 ++ 0#8).extractLsb' 8 24 = x := by
  rw [BitVec.extractLsb'_append_eq_left, BitVec.extractLsb'_append_extractLsb'_eq_extractLsb' (by rfl),
    BitVec.extractLsb'_append_extractLsb'_eq_extractLsb' (by rfl),
      BitVec.extractLsb'_append_extractLsb'_eq_extractLsb' (by rfl)]
  exact BitVec.extractLsb'_eq_self

/-- The outcome, when the serial block has finished in time. -/
theorem Executing.tick_finish (hm : Executing command timeout k m) (hi : i.timeout = timeout)
    (hcmd : i.command = command)
    (hrst : i.intStatusRst = false) (hfin : i.finish = true) (hk : InTime timeout k) :
    (m.tick i).state = (if command.getLsbD 2 then .busyCheck else .idle) ∧ (m.tick i).goIdle = false ∧
      (m.tick i).startXfr = false ∧ (m.tick i).intStatusReg = finishStatus 0#5 command i.crcError i.indexOk ∧
      (m.expectResponse = true → (m.tick i).response0 ++ (m.tick i).response1 ++ (m.tick i).response2 ++
        (m.tick i).response3.extractLsb' 8 24 = i.response) := by
  have hno := hm.no_timeout hi hk
  cases hexp : m.expectResponse
  · simp [CmdMaster.tick, CmdMaster.next, hm.state, hm.goIdle, hm.intStatusReg, hno, hfin, hrst, hexp, hcmd]
  · have hnext : m.tick i = { m with
        startXfr := false, intStatusReg := finishStatus 0#5 command i.crcError i.indexOk,
        state := if command.getLsbD 2 then .busyCheck else .idle, response0 := i.response.extractLsb' 88 32,
        response1 := i.response.extractLsb' 56 32, response2 := i.response.extractLsb' 24 32,
        response3 := i.response.extractLsb' 0 24 ++ 0#8 } := by
      simp [CmdMaster.tick, CmdMaster.next, hm.state, hm.intStatusReg, hno, hfin, hrst, hexp, hcmd]
    rw [hnext]
    exact ⟨rfl, hm.goIdle, rfl, rfl, fun _ => response_parts i.response⟩

/-! ## The start of a command -/

theorem CmdMaster.tick_start (hs : m.state = .idle) (hi : i.start = true) (hrst : i.intStatusRst = false) :
    Executing i.command i.timeout 0 (m.tick i) ∧ (m.tick i).setting = settingOf i.command ∧
      (m.tick i).cmd = cmdOf i.command i.argument := by
  have hnext : m.tick i = { m with
      goIdle := false, expectResponse := i.command.getLsbD 1 || i.command.getLsbD 0,
      longResponse := i.command.getLsbD 1,
      cmd := cmdOf i.command i.argument, watchdog := 0#25, watchdogEnable := i.timeout ≠ 0#25, startXfr := true,
      intStatusReg := 0#5, state := .execute } := by
    simp [CmdMaster.tick, CmdMaster.next, hs, hi, hrst, cmdOf]
  rw [hnext]
  exact ⟨⟨rfl, rfl, rfl, rfl, rfl, rfl, fun _ => rfl⟩, rfl, rfl⟩

theorem CmdSerial.tick_idle {h : CmdSerial} {i : CmdSerialIn} (hs : h.state = .idle) (hi : i.start = false) :
    (h.tick i).state = .idle ∧ (h.tick i).finish = false ∧ (h.tick i).line = none := by
  simp [CmdSerial.tick, CmdSerial.next, CmdSerial.line, hs, hi]

/-! ## Both blocks -/

variable {b : CmdBlock} {i : CmdBlockIn}

theorem CmdBlock.tick_executing (hm : Executing command timeout k b.master) (hfin : b.serial.finish = false)
    (hi : Steady command timeout i) (hk : InTime timeout k) :
    Executing command timeout (k + 1) (b.tick i).master ∧ (b.tick i).serial = b.serial.tick (b.serialIn i) := by
  refine ⟨hm.tick hi.timeout hi.intStatusRst hfin hk, ?_⟩
  rw [CmdBlock.tick, hm.goIdle]
  rfl

/-- What the serial block keeps up by itself, it keeps up while a command is being executed. -/
theorem CmdBlock.phase {I : ℕ → CmdSerial → Prop} {P : ℕ → Bool → Prop} {d n : ℕ}
    (hfin : ∀ c h, I c h → h.finish = false)
    (hstep : ∀ c h (i : CmdSerialIn), c < n → I c h → P c i.cmdDatReg → I (c + 1) (h.tick i))
    (htime : InTime timeout (d + n))
    (c : ℕ) (b : CmdBlock) (i : CmdBlockIn) (hc : c < n)
    (hb : Executing command timeout (d + c) b.master ∧ I c b.serial)
    (hi : Steady command timeout i ∧ P c i.cmdDatReg) :
    Executing command timeout (d + (c + 1)) (b.tick i).master ∧ I (c + 1) (b.tick i).serial := by
  have htime : InTime timeout (d + c) := htime.imp_right fun h => by omega
  obtain ⟨hm, hs⟩ := b.tick_executing hb.1 (hfin c _ hb.2) hi.1 htime
  exact ⟨hm, hs ▸ hstep c _ _ hc hb.2 hi.2⟩

/-- A command that was started, up to the end of its frame. -/
theorem CmdBlock.lead (hm : b.master.state = .idle) (hgo : b.master.goIdle = false)
    (hxfr : b.master.startXfr = false)
    (hs : b.serial.state = .idle) (hstart : i.start = true) {lead : List CmdBlockIn} (hlen : lead.length = 51)
    (hsteady : ∀ j ∈ i :: lead, Steady i.command i.timeout j) (htime : InTime i.timeout 51) :
    outputs CmdBlock.tick (·.serial.line) b (i :: lead)
        = none :: none :: none :: (cmdFrame (cmdOf i.command i.argument)).map some ++ [none] ∧
      Executing i.command i.timeout 51 ((i :: lead).foldl CmdBlock.tick b).master ∧
      if (settingOf i.command).getLsbD 0 then
        Waiting (settingOf i.command) (cmdOf i.command i.argument) ((i :: lead).foldl CmdBlock.tick b).serial
      else ((i :: lead).foldl CmdBlock.tick b).serial.state = .finishWo ∧
        ((i :: lead).foldl CmdBlock.tick b).serial.finish = false := by
  obtain ⟨i₁, rest, rfl⟩ := List.exists_cons_of_length_eq_add_one hlen
  obtain ⟨i₂, body, i₃, rfl, hbody⟩ := exists_ends (show rest.length = 48 + 2 by simpa using hlen)
  set setting := settingOf i.command with hsetting
  set cmd := cmdOf i.command i.argument with hcmd
  have hby : ∀ j ∈ [i, i₁, i₂, i₃] ++ body, Steady i.command i.timeout j :=
    fun j hj => hsteady j (by simp at hj ⊢; tauto)
  have hin : ∀ {k}, k ≤ 51 → InTime i.timeout k := fun hk => htime.imp_right fun h => by omega
  -- the master starts, and the serial block sees it one edge later
  obtain ⟨hm₁, hset₁, hcmd₁⟩ := CmdMaster.tick_start (i := b.masterIn i) hm hstart (hby i (by simp)).intStatusRst
  obtain ⟨hs₁, hfin₁, hline₁⟩ := CmdSerial.tick_idle (i := b.serialIn i) hs hxfr
  have hb₁ : (b.tick i).serial = b.serial.tick (b.serialIn i) := by rw [CmdBlock.tick, hgo]; rfl
  rw [← hb₁] at hs₁ hfin₁ hline₁
  obtain ⟨hm₂, hb₂⟩ := (b.tick i).tick_executing hm₁ hfin₁ (hby i₁ (by simp)) (hin (by omega))
  obtain ⟨hs₂, hline₂, hholds₂, hidx₂, hrst₂, hcount₂, -⟩ :=
    CmdSerial.tick_start (i := (b.tick i).serialIn i₁) hs₁ hm₁.startXfr
  rw [← hb₂] at hs₂ hline₂ hholds₂ hidx₂ hrst₂ hcount₂
  obtain ⟨hm₃, hb₃⟩ := ((b.tick i).tick i₁).tick_executing hm₂ hholds₂.finish (hby i₂ (by simp)) (hin (by omega))
  rw [show ((b.tick i).serialIn i₁).setting = setting from hset₁,
    show ((b.tick i).serialIn i₁).cmd = cmd from hcmd₁] at hholds₂
  have hsend : Sending setting cmd 0 (((b.tick i).tick i₁).tick i₂).serial := by
    rw [hb₃]
    exact CmdSerial.tick_setup hs₂ hholds₂ hidx₂ hrst₂ hcount₂
  have hline₃ : (((b.tick i).tick i₁).tick i₂).serial.line = none := by
    rw [hb₃, CmdSerial.line_tick_setup hs₂, hline₂]
  -- the frame
  have hphase : ∀ c (b : CmdBlock) (j : CmdBlockIn), c < 48 →
      Executing i.command i.timeout (2 + c) b.master ∧ Sending setting cmd c b.serial →
        Steady i.command i.timeout j ∧ True →
        Executing i.command i.timeout (2 + (c + 1)) (b.tick j).master ∧
          Sending setting cmd (c + 1) (b.tick j).serial :=
    CmdBlock.phase (P := fun _ _ => True) (fun _ _ h => h.finish) (fun c h i hc hw _ => hw.tick hc)
      (hin (by omega))
  have hinputs : ∀ j (hj : j < body.length), Steady i.command i.timeout body[j] ∧ True :=
    fun j hj => ⟨hby _ (by simp), trivial⟩
  have hout : ∀ c (b : CmdBlock) (j : CmdBlockIn), c < 48 →
      Executing i.command i.timeout (2 + c) b.master ∧ Sending setting cmd c b.serial →
        Steady i.command i.timeout j ∧ True →
        (b.tick j).serial.line = some ((cmdFrame cmd)[c]?.getD true) := by
    intro c b j hc hb hj
    rw [(b.tick_executing hb.1 hb.2.finish hj.1 (hin (by omega))).2]
    exact hb.2.line_tick hc
  have hrun := foldl_phase hphase body (k := 0) (by omega) ⟨hm₃, hsend⟩ (by simpa using hinputs)
  have hbits : outputs CmdBlock.tick (·.serial.line) (((b.tick i).tick i₁).tick i₂) body
      = (List.range' 0 body.length).map fun c => some ((cmdFrame cmd)[c]?.getD true) :=
    outputs_phase hphase hout (k := 0) (by omega) ⟨hm₃, hsend⟩ (by simpa using hinputs)
  rw [hbody] at hrun hbits
  -- the end of the frame
  obtain ⟨hm₄, hb₄⟩ := CmdBlock.tick_executing hrun.1 hrun.2.finish (hby i₃ (by simp)) (hin (by omega))
  obtain ⟨hline₄, hend⟩ :=
    hrun.2.tick_end (i := (body.foldl CmdBlock.tick (((b.tick i).tick i₁).tick i₂)).serialIn i₃)
  rw [← hb₄] at hline₄ hend
  simp only [List.foldl_cons, List.foldl_append, List.foldl_nil]
  refine ⟨?_, hm₄, hend⟩
  rw [outputs, hline₁, outputs, hline₂, outputs, hline₃, outputs_append, hbits, map_cmdFrame, outputs, hline₄]
  rfl

theorem settingOf_expect (command : BitVec 14) :
    (settingOf command).getLsbD 0 = (command.getLsbD 1 || command.getLsbD 0) := by
  rw [settingOf, BitVec.getLsbD_append]
  simp

/-- A command whose response comes in time: what the registers say then, and that the next one can be started. -/
theorem command_answered {r : ℕ → Bool} {L s : ℕ} (hm : b.master.state = .idle) (hgo : b.master.goIdle = false)
    (hxfr : b.master.startXfr = false) (hs : b.serial.state = .idle) (hstart : i.start = true)
    (hexpect : (settingOf i.command).getLsbD 0 = true) (hshape : Shape (settingOf i.command) L s)
    (hr : r 0 = false)
    {lead quiet frame : List CmdBlockIn} {t t' : CmdBlockIn} (hlead : lead.length = 51)
    (hquiet : ∀ j ∈ quiet, j.cmdDatReg = true) (hframe : frame.length = L + 9)
    (hbits : ∀ j (hj : j < frame.length), frame[j].cmdDatReg = r j)
    (hsteady : ∀ j ∈ i :: (lead ++ (quiet ++ (frame ++ [t, t']))), Steady i.command i.timeout j)
    (htime : InTime i.timeout (quiet.length + L + 61)) :
    let b' := (i :: (lead ++ (quiet ++ (frame ++ [t, t'])))).foldl CmdBlock.tick b
    b'.master.state = (if i.command.getLsbD 2 then .busyCheck else .idle) ∧
      b'.master.intStatusReg = finishStatus 0#5 i.command (!decide (CodeOk r L s))
        (decide (IndexOk (cmdOf i.command i.argument) r)) ∧
      (∀ j, j + 8 ≤ L → (b'.master.response0 ++ b'.master.response1 ++ b'.master.response2 ++
        b'.master.response3.extractLsb' 8 24).getMsbD j = r (j + 8)) ∧
      b'.master.goIdle = false ∧ b'.master.startXfr = false ∧ b'.serial.state = .idle := by
  intro b'
  have hL : 8 ≤ L ∧ L ≤ 127 := by
    rcases hshape with ⟨-, rfl, -⟩ | ⟨-, rfl, -⟩ <;> omega
  have hby : ∀ j, j ∈ lead ∨ j ∈ quiet ∨ j ∈ frame ∨ j = t ∨ j = t' → Steady i.command i.timeout j :=
    fun j hj => hsteady j (by simp; tauto)
  have hin : ∀ {k}, k ≤ quiet.length + L + 61 → InTime i.timeout k := fun hk => htime.imp_right fun h => by omega
  obtain ⟨-, hm₁, hw₁⟩ := b.lead hm hgo hxfr hs hstart hlead
    (fun j hj => (List.mem_cons.1 hj).elim (fun h => hsteady j (by simp [h])) fun h => hby j (.inl h))
      (hin (by omega))
  rw [if_pos hexpect] at hw₁
  set b₁ := (i :: lead).foldl CmdBlock.tick b with hb₁
  -- the line stays high
  have hwait := foldl_phase (I := fun c b => Executing i.command i.timeout (51 + c) b.master ∧
      Waiting (settingOf i.command) (cmdOf i.command i.argument) b.serial)
    (CmdBlock.phase (P := fun _ v => v = true) (n := quiet.length) (fun _ _ h => h.finish)
      (fun _ _ _ _ hw hi => hw.tick hi)
      (hin (by omega))) quiet (k := 0) (s := b₁) (by omega) ⟨hm₁, hw₁⟩
    fun j hj => ⟨hby _ (.inr (.inl (List.getElem_mem hj))), hquiet _ (List.getElem_mem hj)⟩
  rw [Nat.zero_add] at hwait
  set b₂ := quiet.foldl CmdBlock.tick b₁ with hb₂
  -- the response, up to its last bit
  obtain ⟨i₀, body, i₁, rfl, hbody⟩ := exists_ends hframe
  obtain ⟨hm₃, hs₃⟩ := b₂.tick_executing (i := i₀) hwait.1 hwait.2.finish (hby i₀ (by simp)) (hin (by omega))
  have hrecv₀ : Receiving (settingOf i.command) (cmdOf i.command i.argument) r L s 1 (b₂.tick i₀).serial :=
    hs₃ ▸ hwait.2.tick_start (hbits 0 (by simp)) hr
  let I : ℕ → CmdSerial → Prop := fun c h =>
    1 ≤ c ∧ Receiving (settingOf i.command) (cmdOf i.command i.argument) r L s c h
  have hphase : ∀ c (b : CmdBlock) (j : CmdBlockIn), c < L + 8 →
      Executing i.command i.timeout (51 + quiet.length + c) b.master ∧ I c b.serial →
        Steady i.command i.timeout j ∧ j.cmdDatReg = r c →
          Executing i.command i.timeout (51 + quiet.length + (c + 1)) (b.tick j).master ∧
            I (c + 1) (b.tick j).serial :=
    CmdBlock.phase (P := fun c v => v = r c) (fun _ _ h => h.2.finish)
      (fun _ _ _ hc hw hi => ⟨by omega, hw.2.tick hshape hr hw.1 hc hi⟩) (hin (by omega))
  have hinputs : ∀ j (hj : j < body.length), Steady i.command i.timeout body[j] ∧
      body[j].cmdDatReg = r (1 + j) := by
    intro j hj
    have hbit := hbits (j + 1) (by simp; omega)
    rw [List.getElem_cons_succ, List.getElem_append_left hj] at hbit
    exact ⟨hby _ (by simp), by rw [hbit, Nat.add_comm]⟩
  have hrecv := foldl_phase hphase body (k := 1) (by omega) ⟨hm₃, Nat.le_refl 1, hrecv₀⟩ hinputs
  rw [hbody, show 1 + (L + 7) = L + 8 by omega] at hrecv
  set b₃ := body.foldl CmdBlock.tick (b₂.tick i₀) with hb₃
  -- its code is compared, and it is handed over
  obtain ⟨hm₄, hs₄⟩ := b₃.tick_executing (i := i₁) hrecv.1 hrecv.2.2.finish (hby i₁ (by simp)) (hin (by omega))
  have htaken := hrecv.2.2.tick_match hshape (i := b₃.serialIn i₁)
  rw [← hs₄] at htaken
  obtain ⟨hm₅, hs₅⟩ := (b₃.tick i₁).tick_executing (i := t) hm₄ htaken.finish (hby t (by simp)) (hin (by omega))
  have hans := htaken.tick hL.1 hL.2 (i := (b₃.tick i₁).serialIn t)
  rw [← hs₅] at hans
  have hb' : b' = (((b₃.tick i₁).tick t).tick t') := by
    simp only [b', hb₁, hb₂, hb₃, List.foldl_cons, List.foldl_append, List.foldl_nil]
  set b₅ := (b₃.tick i₁).tick t with hb₅
  have hlast := hby t' (by simp)
  have hout := hm₅.tick_finish (i := b₅.masterIn t') hlast.timeout hlast.command hlast.intStatusRst hans.finish
    (hin (by omega))
  have hxfr₅ : b₅.master.startXfr = false := by
    rw [hm₅.startXfr, decide_eq_false (by omega)]
  have hidle := CmdSerial.tick_idle (i := b₅.serialIn t') hans.state hxfr₅
  rw [hb']
  refine ⟨hout.1, ?_, fun j hj => ?_, hout.2.1, hout.2.2.1, ?_⟩
  · rw [← hans.crcOk, ← hans.indexOk]
    exact hout.2.2.2.1
  · have hresp := hout.2.2.2.2 (hm₅.expectResponse.trans (settingOf_expect _ ▸ hexpect))
    exact (congrArg (BitVec.getMsbD · j) hresp).trans (hans.response j hj)
  · rw [CmdBlock.tick, hm₅.goIdle]
    exact hidle.1

/-- `SEND_RELATIVE_ADDR` with both checks on, and a card that answers at once. -/
theorem command_answered_address :
    let r : ℕ → Bool := fun j => (cmdFrame 0x0312340500#40)[j]?.getD true
    let b : CmdBlock := ⟨default, { (default : CmdSerial) with state := .idle }⟩
    let i : CmdBlockIn := ⟨true, false, false, 0#32, 0x0319#14, 200#25, true⟩
    let frame := (List.range 48).map fun j => { i with start := false, cmdDatReg := r j }
    let b' := (i :: (List.replicate 51 i ++ ([] ++ (frame ++ [i, i])))).foldl CmdBlock.tick b
    b'.master.state = .idle ∧ b'.master.intStatusReg = 0b00001#5 ∧
      (∀ j, j + 8 ≤ 39 → (b'.master.response0 ++ b'.master.response1 ++ b'.master.response2 ++
        b'.master.response3.extractLsb' 8 24).getMsbD j = r (j + 8)) ∧ b'.serial.state = .idle := by
  intro r b i frame b'
  have hsteady : ∀ j ∈ i :: (List.replicate 51 i ++ ([] ++ (frame ++ [i, i]))), Steady i.command i.timeout j := by
    intro j hj
    obtain rfl | ⟨k, -, rfl⟩ : j = i ∨ ∃ k, k < 48 ∧ { i with start := false, cmdDatReg := r k } = j := by
      simp [frame] at hj
      tauto
    · exact ⟨rfl, rfl, rfl⟩
    · exact ⟨rfl, rfl, rfl⟩
  have hshape : Shape (settingOf i.command) 39 0 := .inl ⟨by decide, rfl, rfl⟩
  have h := command_answered (b := b) (i := i) (r := r) rfl rfl rfl rfl rfl (by decide) hshape rfl
    (List.length_replicate ..) (List.forall_mem_nil _) rfl (fun j hj => by simp [frame]) hsteady (.inr (by decide))
  exact ⟨h.1.trans (if_neg (by decide)), h.2.1.trans (by decide +kernel), h.2.2.1, h.2.2.2.2.2⟩

/-! ## The watchdog -/

/-- What an edge does to a command that the watchdog looks after: it ends, or the watchdog has counted. -/
theorem CmdMaster.tick_watched {i : CmdMasterIn} (hs : m.state = .execute) (hen : m.watchdogEnable = true)
    (hrst : i.intStatusRst = false) :
    ((m.tick i).state ≠ .execute ∧ ((m.tick i).intStatusReg.getLsbD intCmdCc = true ∨
        (m.tick i).intStatusReg.getLsbD intCmdCte = true ∧ (m.tick i).intStatusReg.getLsbD intCmdEi = true ∧
          (m.tick i).goIdle = true)) ∨
      (m.tick i).state = .execute ∧ (m.tick i).watchdogEnable = true ∧ m.watchdog < i.timeout ∧
        (m.tick i).watchdog.toNat = m.watchdog.toNat + 1 := by
  by_cases hle : i.timeout ≤ m.watchdog
  · left
    have hnext : m.tick i = { m with
        startXfr := false, intStatusReg := setBit (setBit m.intStatusReg intCmdCte true) intCmdEi true,
          goIdle := true,
        state := .idle } := by
      simp [CmdMaster.tick, CmdMaster.next, hs, hen, hle, hrst]
    rw [hnext]
    refine ⟨by simp, Or.inr ⟨?_, ?_, rfl⟩⟩ <;> simp [setBit, intCmdCte, intCmdEi]
  · have hlt : m.watchdog < i.timeout := BitVec.not_le.1 hle
    cases hfin : i.finish
    · right
      have hnext : m.tick i = { m with startXfr := false, watchdog := m.watchdog + 1 } := by
        simp [CmdMaster.tick, CmdMaster.next, hs, hen, hle, hrst, hfin]
      rw [hnext]
      refine ⟨hs, hen, hlt, ?_⟩
      rw [BitVec.lt_def] at hlt
      have hmax := i.timeout.isLt
      change (m.watchdog + 1#25).toNat = _
      rw [BitVec.toNat_add]
      simp only [BitVec.toNat_ofNat]
      omega
    · left
      have hcc : ∀ status command crcError indexOk,
          (finishStatus status command crcError indexOk).getLsbD intCmdCc = true := by
        intro status command crcError indexOk
        simp [finishStatus, setBit, intCmdCc]
      have hstate : (m.tick i).state = if i.command.getLsbD 2 then .busyCheck else .idle := by
        cases hexp : m.expectResponse <;> simp [CmdMaster.tick, CmdMaster.next, hs, hen, hle, hrst, hfin, hexp]
      have hstatus : (m.tick i).intStatusReg = finishStatus m.intStatusReg i.command i.crcError i.indexOk := by
        cases hexp : m.expectResponse <;> simp [CmdMaster.tick, CmdMaster.next, hs, hen, hle, hrst, hfin, hexp]
      refine ⟨?_, Or.inl (hstatus ▸ hcc ..)⟩
      rw [hstate]
      split_ifs <;> simp

/-- A command with a timeout ends by then, whatever the line does, and says so. -/
theorem command_ends {is : List CmdBlockIn} (hs : b.master.state = .execute) (hen : b.master.watchdogEnable = true)
    (hi : ∀ i ∈ is, i.timeout = timeout ∧ i.intStatusRst = false)
    (hlen : timeout.toNat - b.master.watchdog.toNat < is.length) :
    ∃ n ≤ is.length, ((is.take n).foldl CmdBlock.tick b).master.state ≠ .execute ∧
      (((is.take n).foldl CmdBlock.tick b).master.intStatusReg.getLsbD intCmdCc = true ∨
        ((is.take n).foldl CmdBlock.tick b).master.intStatusReg.getLsbD intCmdCte = true ∧
          ((is.take n).foldl CmdBlock.tick b).master.intStatusReg.getLsbD intCmdEi = true ∧
            ((is.take n).foldl CmdBlock.tick b).master.goIdle = true) := by
  induction is generalizing b with
  | nil => simp at hlen
  | cons i is ih =>
    obtain ⟨htime, hrst⟩ := hi i List.mem_cons_self
    rcases CmdMaster.tick_watched (i := b.masterIn i) hs hen hrst with hend | ⟨hs', hen', hlt, hcount⟩
    · exact ⟨1, by simp, hend⟩
    · have hlt : b.master.watchdog.toNat < timeout.toNat := htime ▸ hlt
      obtain ⟨n, hn, hend⟩ := ih (b := b.tick i) hs' hen' (fun j hj => hi j (List.mem_cons_of_mem i hj)) (by
        have hcount : (b.tick i).master.watchdog.toNat = b.master.watchdog.toNat + 1 := hcount
        rw [List.length_cons] at hlen
        omega)
      exact ⟨n + 1, by simpa using hn, hend⟩

/-- A card that never answers. -/
theorem command_ends_silent :
    let i : CmdBlockIn := ⟨true, false, false, 0#32, 0x0319#14, 200#25, true⟩
    let b := CmdBlock.tick ⟨default, { (default : CmdSerial) with state := .idle }⟩ i
    ∃ n ≤ (List.replicate 201 i).length,
      (((List.replicate 201 i).take n).foldl CmdBlock.tick b).master.state ≠ .execute ∧
      ((((List.replicate 201 i).take n).foldl CmdBlock.tick b).master.intStatusReg.getLsbD intCmdCc = true ∨
        (((List.replicate 201 i).take n).foldl CmdBlock.tick b).master.intStatusReg.getLsbD intCmdCte = true ∧
          (((List.replicate 201 i).take n).foldl CmdBlock.tick b).master.intStatusReg.getLsbD intCmdEi = true ∧
            (((List.replicate 201 i).take n).foldl CmdBlock.tick b).master.goIdle = true) := by
  intro i b
  exact command_ends rfl rfl (fun j hj => by rw [List.eq_of_mem_replicate hj]; exact ⟨rfl, rfl⟩)
    (by rw [List.length_replicate]; decide)

end Soceteer.Sdhost
