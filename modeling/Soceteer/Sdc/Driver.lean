import Soceteer.Lib.Bytes

/-!
# Soceteer.Sdc.Driver — the SD card driver

`sdc_read` and `sdc_write` (`soct_ff/sdc.c`) split a transfer into commands of at most `MAX_BLOCK_CNT` blocks and
close each command of several blocks with `CMD12`; `disk_read` of the boot ROM (`sd-boot/bootrom.c`) is the same
loop.  The controller takes a command when its argument register is written.

* `Regs`, `Outcome`, `World`: the registers, what controller and card make of a command, and the state of a drive.
* `Storage`, `moveBlocks`: memory and card, and blocks moved between them one at a time.
* `commandWord`, `sendDataCmd`, `transferLoop`, `sdcRead`, `sdcWrite`, `diskRead`: the driver.
* `plan`, `runPlan`: the commands of a call, given one after the other until one fails; `transferLoop_eq_runPlan`.
-/

namespace Soceteer.Sdc

open Lib

/-! ## Memory and card -/

/-- The contents of a sector. -/
abbrev Block := { l : List UInt8 // l.length = 512 }

structure Storage where
  mem : Mem 64
  card : ℕ → Block

inductive Dir
  | read
  | write
deriving DecidableEq

/-- A sector that is moved, and the address of its bytes in memory. -/
structure Move where
  dir : Dir
  sector : ℕ
  addr : BitVec 64
deriving DecidableEq

def moveBlock (v : Move) (st : Storage) : Storage :=
  match v.dir with
  | .read => { st with mem := splice st.mem v.addr (st.card v.sector).1 }
  | .write => { st with card := Function.update st.card v.sector ⟨bytesAt st.mem v.addr 512, length_bytesAt ..⟩ }

/-- The moves of `n` blocks, in order. -/
def moves (dir : Dir) (sector : ℕ) (addr : BitVec 64) (n : ℕ) : List Move :=
  (List.range n).map fun i => ⟨dir, sector + i, addr + BitVec.ofNat 64 (512 * i)⟩

/-- Blocks moved one at a time. -/
def moveBlocks (vs : List Move) (st : Storage) : Storage := vs.foldl (fun st v => moveBlock v st) st

/-! ## Controller and card -/

structure Regs where
  argument : BitVec 32
  command : BitVec 32
  dataTimeout : BitVec 32
  cmdTimeout : BitVec 32
  blockSize : BitVec 32
  blockCount : BitVec 32
  dma : BitVec 64

/-- The number of the command in the command register. -/
def Regs.index (r : Regs) : ℕ := (r.command >>> 8 &&& 0x3f).toNat

/-- Where a command moves data to: the number says what the card does, bits 5 and 6 what the controller does. -/
def Regs.dir? (r : Regs) : Option Dir :=
  if r.command.getLsbD 5 ∧ r.blockSize = 511 then
    if (r.index = 17 ∨ r.index = 18) ∧ ¬ r.command.getLsbD 6 then some .read
    else if (r.index = 24 ∨ r.index = 25) ∧ r.command.getLsbD 6 then some .write
    else none
  else none

/-- The blocks a command moves; the argument of a card that is not block addressed counts bytes. -/
def Regs.moves (r : Regs) (isBlock : Bool) : List Move :=
  match r.dir? with
  | none => []
  | some dir =>
    Sdc.moves dir (if isBlock then r.argument.toNat else r.argument.toNat / 512) r.dma (r.blockCount.toNat + 1)

/-- What happens to a command: the first values of the two status registers that are not zero, whether the card
accepts the command, its response, and what memory and card are like when it fails.  A command that completes was
accepted. -/
structure Outcome where
  cmdStatus : BitVec 32
  datStatus : BitVec 32
  accepted : Bool
  response : Fin 4 → BitVec 32
  spoil : Storage → Storage
  cmdStatus_ne : cmdStatus ≠ 0
  datStatus_ne : datStatus ≠ 0
  accepted_of_cc : cmdStatus = 1 → accepted = true

/-- The command completes, and so does the transfer of its data. -/
def Outcome.Ok (o : Outcome) (blocks : ℕ) : Prop := o.cmdStatus = 1 ∧ (blocks ≠ 0 → o.datStatus = 1)

instance (o : Outcome) (blocks : ℕ) : Decidable (o.Ok blocks) := inferInstanceAs (Decidable (_ ∧ _))

/-- A command that was given, and whether the card accepted it. -/
structure Issue where
  regs : Regs
  accepted : Bool

/-! ## The driver -/

/-- A drive: its registers, `s_drv_status`, `s_card_type`, `s_response` and `errno`, the memory and the card; then
the commands given so far and the blocks they moved. -/
structure World where
  regs : Regs
  status : BitVec 8
  cardType : BitVec 8
  response : Fin 4 → BitVec 32
  errno : ℕ
  storage : Storage
  issued : List Issue
  moved : List Move

/-- `CT_BLOCK`. -/
def World.isBlock (w : World) : Bool := w.cardType.getLsbD 3

/-- The bits of the command register for the kind of response. -/
def responseBits (cmd : ℕ) : BitVec 32 :=
  if cmd ∈ [11, 13, 16, 17, 18, 19, 23, 24, 25, 27, 30, 32, 33, 42, 55, 56, 0x80 + 6] then 0x19
  else if cmd ∈ [7, 12, 20, 28, 29, 38] then 0x1d
  else if cmd ∈ [2, 9, 10] then 0x0a
  else if cmd = 0x80 + 41 then 0x01
  else if cmd = 3 then 0x1d
  else if cmd = 8 then 0x19
  else 0

def commandWord (cmd blocks : ℕ) : BitVec 32 :=
  let command := (BitVec.ofNat 32 cmd &&& 0x3f) <<< 8 ||| responseBits cmd
  if blocks = 0 then command
  else if cmd ∈ [24, 25, 27, 28, 29, 38] then command ||| 1 <<< 5 ||| 1 <<< 6
  else command ||| 1 <<< 5

/-- `errno` after `_sdc_cmd_finish`. -/
def cmdErrno (status : BitVec 32) : ℕ :=
  if status.getLsbD 4 then 35 else if status.getLsbD 3 then 34 else if status.getLsbD 2 then 15 else 1

/-- `errno` after `_sdc_data_finish`. -/
def dataErrno (status : BitVec 32) : ℕ :=
  if status.getLsbD 4 then 37 else if status.getLsbD 3 then 36 else if status.getLsbD 2 then 15 else 1

/-- A call of `send_data_cmd`. -/
structure Send where
  cmd : ℕ
  arg : BitVec 32
  buf : BitVec 64
  blocks : ℕ

/-- The registers of a command; those for the data are written only if there are data. -/
def Send.regs (s : Send) (r : Regs) : Regs where
  argument := s.arg
  command := commandWord s.cmd s.blocks
  cmdTimeout := 0xFFFFF
  dma := if s.blocks = 0 then r.dma else s.buf
  blockSize := if s.blocks = 0 then r.blockSize else 511
  blockCount := if s.blocks = 0 then r.blockCount else BitVec.ofNat 32 (s.blocks - 1)
  dataTimeout := if s.blocks = 0 then r.dataTimeout else 0xFFFFFF

/-- The commands to come and what becomes of them, by their numbers. -/
abbrev Oracle := ℕ → Outcome

variable (O : Oracle)

/-- `send_data_cmd`: whether it returns 0. -/
def sendDataCmd (s : Send) (w : World) : Bool × World :=
  if s.blocks ≠ 0 ∧ s.buf &&& 3 ≠ 0 then (false, { w with errno := 38 })
  else
    let o := O w.issued.length
    let regs := s.regs w.regs
    let w := { w with regs := regs, issued := w.issued ++ [Issue.mk regs o.accepted] }
    if o.cmdStatus = 1 then
      if s.blocks = 0 then (true, { w with response := o.response })
      else if o.datStatus = 1 then
        (true, { w with
          response := o.response
          storage := moveBlocks (regs.moves w.isBlock) w.storage
          moved := w.moved ++ regs.moves w.isBlock })
      else (false, { w with response := o.response, errno := dataErrno o.datStatus, storage := o.spoil w.storage })
    else (false, { w with errno := cmdErrno o.cmdStatus, storage := o.spoil w.storage })

/-- `send_cmd(pdrv, CMD12, 0)`. -/
def stop : Send := ⟨12, 0, 0, 0⟩

/-- `DRESULT`. -/
inductive Result
  | ok
  | error
  | notrdy
  | parerr
deriving DecidableEq

/-- The size of the next command: `count > MAX_BLOCK_CNT ? MAX_BLOCK_CNT : count`. -/
def bcnt (count : ℕ) : ℕ := if 0x1000 < count then 0x1000 else count

/-- The commands for one block and for several. -/
structure Cmds where
  single : ℕ
  multi : ℕ

/-- The first command for the next piece. -/
def Cmds.send (c : Cmds) (sector : BitVec 64) (count : ℕ) (buff : BitVec 64) : Send :=
  ⟨if bcnt count = 1 then c.single else c.multi, sector.setWidth 32, buff, bcnt count⟩

/-- By how much `sector` grows with the next piece. -/
def advance (isBlock : Bool) (count : ℕ) : BitVec 64 :=
  BitVec.ofNat 64 (if isBlock then bcnt count else bcnt count * 512)

/-- The loop; it runs at most `count` times. -/
def transferLoop (c : Cmds) : ℕ → BitVec 64 → ℕ → BitVec 64 → World → Result × World
  | 0, _, _, _, w => (.ok, w)
  | fuel + 1, sector, count, buff, w =>
    if count = 0 then (.ok, w)
    else match sendDataCmd O (c.send sector count buff) w with
      | (false, w) => (.error, w)
      | (true, w) =>
        match if 1 < bcnt count then sendDataCmd O stop w else (true, w) with
        | (false, w) => (.error, w)
        | (true, w) =>
          transferLoop c fuel (sector + advance w.isBlock count) (count - bcnt count)
            (buff + BitVec.ofNat 64 (bcnt count * 512)) w

def transfer (c : Cmds) (buff sector : BitVec 64) (count : BitVec 32) (w : World) : Result × World :=
  if count = 0 then (.parerr, w)
  else if w.status.getLsbD 0 then (.notrdy, w)
  else transferLoop O c count.toNat (if w.isBlock then sector else sector * 512) count.toNat buff w

def readCmds : Cmds := ⟨17, 18⟩

def writeCmds : Cmds := ⟨24, 25⟩

def sdcRead := transfer O readCmds

def sdcWrite := transfer O writeCmds

/-- `disk_read` of the boot ROM. -/
def diskRead := transfer O readCmds

/-! ## The commands of a call -/

/-- The commands of the loop. -/
def plan (c : Cmds) (isBlock : Bool) : ℕ → BitVec 64 → ℕ → BitVec 64 → List Send
  | 0, _, _, _ => []
  | fuel + 1, sector, count, buff =>
    if count = 0 then []
    else c.send sector count buff :: (if 1 < bcnt count then [stop] else []) ++
      plan c isBlock fuel (sector + advance isBlock count) (count - bcnt count)
        (buff + BitVec.ofNat 64 (bcnt count * 512))

/-- Commands given one after the other, until one fails. -/
def runPlan : List Send → World → Bool × World
  | [], w => (true, w)
  | s :: ss, w =>
    match sendDataCmd O s w with
    | (false, w) => (false, w)
    | (true, w) => runPlan ss w

variable {O} {w : World} {s : Send}

theorem sendDataCmd_cardType : (sendDataCmd O s w).2.cardType = w.cardType := by
  simp only [sendDataCmd]
  split_ifs <;> rfl

theorem sendDataCmd_isBlock : (sendDataCmd O s w).2.isBlock = w.isBlock :=
  congrArg (fun t : BitVec 8 => t.getLsbD 3) sendDataCmd_cardType

/-- A buffer that is not aligned is refused before a command is given. -/
theorem sendDataCmd_refused (h : s.blocks ≠ 0 ∧ s.buf &&& 3 ≠ 0) :
    sendDataCmd O s w = (false, { w with errno := 38 }) := by
  rw [sendDataCmd, if_pos h]

/-- Any other call gives one command, which fails or moves its blocks. -/
theorem sendDataCmd_given (h : ¬ (s.blocks ≠ 0 ∧ s.buf &&& 3 ≠ 0)) : ∃ w',
    sendDataCmd O s w = (decide ((O w.issued.length).Ok s.blocks), w') ∧ w'.regs = s.regs w.regs ∧
      w'.issued = w.issued ++ [⟨s.regs w.regs, (O w.issued.length).accepted⟩] ∧
      ((O w.issued.length).Ok s.blocks → s.blocks = 0 → w'.storage = w.storage ∧ w'.moved = w.moved) ∧
      ((O w.issued.length).Ok s.blocks → s.blocks ≠ 0 →
        w'.storage = moveBlocks ((s.regs w.regs).moves w.isBlock) w.storage ∧
          w'.moved = w.moved ++ (s.regs w.regs).moves w.isBlock) := by
  simp only [sendDataCmd, if_neg h]
  split_ifs with hcc hb hd
  · have hok : (O w.issued.length).Ok s.blocks := ⟨hcc, fun hne => absurd hb hne⟩
    exact ⟨_, Prod.ext (decide_eq_true hok).symm rfl, rfl, rfl, fun _ _ => ⟨rfl, rfl⟩, fun _ hne => absurd hb hne⟩
  · have hok : (O w.issued.length).Ok s.blocks := ⟨hcc, fun _ => hd⟩
    exact ⟨_, Prod.ext (decide_eq_true hok).symm rfl, rfl, rfl, fun _ hz => absurd hz hb, fun _ _ => ⟨rfl, rfl⟩⟩
  · have hno : ¬ (O w.issued.length).Ok s.blocks := fun hok => hd (hok.2 hb)
    exact ⟨_, Prod.ext (decide_eq_false hno).symm rfl, rfl, rfl, fun hok => absurd hok hno,
      fun hok => absurd hok hno⟩
  · have hno : ¬ (O w.issued.length).Ok s.blocks := fun hok => hcc hok.1
    exact ⟨_, Prod.ext (decide_eq_false hno).symm rfl, rfl, rfl, fun hok => absurd hok hno,
      fun hok => absurd hok hno⟩

/-- The loop gives the commands of its plan. -/
theorem transferLoop_eq_runPlan (c : Cmds) :
    ∀ (fuel : ℕ) (sector : BitVec 64) (count : ℕ) (buff : BitVec 64) (w : World),
    transferLoop O c fuel sector count buff w =
      (if (runPlan O (plan c w.isBlock fuel sector count buff) w).1 then .ok else .error,
        (runPlan O (plan c w.isBlock fuel sector count buff) w).2)
  | 0, _, _, _, _ => rfl
  | fuel + 1, sector, count, buff, w => by
    rw [transferLoop, plan]
    by_cases hc : count = 0
    · rw [if_pos hc, if_pos hc]
      rfl
    rw [if_neg hc, if_neg hc, List.cons_append, runPlan]
    by_cases hb : 1 < bcnt count
    · rw [if_pos hb]
      simp only [if_pos hb]
      have hfirst := sendDataCmd_isBlock (O := O) (s := c.send sector count buff) (w := w)
      cases h₁ : sendDataCmd O (c.send sector count buff) w with
      | mk ok₁ w₁ =>
        rw [h₁] at hfirst
        cases ok₁ with
        | false => rfl
        | true =>
          simp only [List.singleton_append, runPlan]
          have hsecond := sendDataCmd_isBlock (O := O) (s := stop) (w := w₁)
          cases h₂ : sendDataCmd O stop w₁ with
          | mk ok₂ w₂ =>
            rw [h₂] at hsecond
            cases ok₂ with
            | false => rfl
            | true =>
              dsimp only
              rw [← hfirst, ← hsecond]
              exact transferLoop_eq_runPlan c fuel _ _ _ w₂
    · rw [if_neg hb, List.nil_append]
      simp only [if_neg hb]
      have hfirst := sendDataCmd_isBlock (O := O) (s := c.send sector count buff) (w := w)
      cases h₁ : sendDataCmd O (c.send sector count buff) w with
      | mk ok₁ w₁ =>
        rw [h₁] at hfirst
        cases ok₁ with
        | false => rfl
        | true =>
          dsimp only
          rw [← hfirst]
          exact transferLoop_eq_runPlan c fuel _ _ _ w₁

/-- A call on a drive that is ready gives the commands of its plan. -/
theorem transfer_eq_runPlan {c : Cmds} {buff sector : BitVec 64} {count : BitVec 32} (hcount : count ≠ 0)
    (hready : w.status.getLsbD 0 = false) : transfer O c buff sector count w =
      (if (runPlan O (plan c w.isBlock count.toNat (if w.isBlock then sector else sector * 512)
          count.toNat buff) w).1 then .ok else .error,
        (runPlan O (plan c w.isBlock count.toNat (if w.isBlock then sector else sector * 512)
          count.toNat buff) w).2) := by
  rw [transfer, if_neg hcount, if_neg (by rw [hready]; simp), transferLoop_eq_runPlan]

end Soceteer.Sdc
