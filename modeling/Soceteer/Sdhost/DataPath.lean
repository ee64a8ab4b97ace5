import Mathlib.Data.List.Induction
import Soceteer.Lib.Clocked
import Soceteer.Sdhost.DataMaster
import Soceteer.Sdhost.DataSerial
import Soceteer.Sdhost.Dma

/-!
# Soceteer.Sdhost.DataPath — between the card and the memory

`sd_data_master`, `sd_data_serial_host`, the FIFO and the AXI master, as `sdc_controller` connects them.  The SD
side moves on the enabled edges of the clock only.

* `DataPath`, `DataPath.tick`: the blocks and a clock edge; `DataPath.seen`, `DataPath.shown`: the serial block and
  the lines.
* `EndStep`: the edge that ends a transfer without an error.
* `stored`, `byteAt`: the memory behind the slave, and its bytes.
-/

namespace Soceteer.Sdhost

open Lib Clocked

structure DataPath (n a : ℕ) where
  master : DataMaster
  serial : DataSerial
  bus : Bus n a

/-- What a clock edge reads: whether it is an enabled one, the lines, the registers of the controller, and the
slave. -/
structure CycleIn (a : ℕ) where
  clockPosedge : Bool
  datReg : BitVec 4
  reset : Bool
  cmdStart : Bool
  startTx : Bool
  startRx : Bool
  timeout : BitVec 28
  blksize : BitVec 12
  bus4bit : Bool
  blkcnt : BitVec 16
  dmaAddr : BitVec (a + 2)
  dataIntRst : Bool
  awready : Bool
  wready : Bool
  bvalid : Bool
  bresp : BitVec 2
  arready : Bool
  rvalid : Bool
  rdata : BitVec 32
  rlast : Bool
  rresp : BitVec 2

variable {n a : ℕ}

namespace DataPath

variable (p : DataPath n a) (c : CycleIn a)

def busy : Bool := p.serial.state ≠ .idle

def serialIn : DataSerialIn where
  dataIn := p.bus.dma.fifo.dout
  datReg := c.datReg
  blksize := c.blksize
  bus4bit := c.bus4bit
  blkcnt := c.blkcnt
  start := BitVec.ofBool p.master.dRead ++ BitVec.ofBool p.master.dWrite
  byteAlignment := c.dmaAddr.extractLsb' 0 2

def masterIn : DataMasterIn where
  startTx := c.startTx
  startRx := c.startRx
  timeout := c.timeout
  fifoEmpty := p.bus.dma.fifo.empty
  fifoReady := p.bus.dma.fifo.ready
  fifoFull := p.bus.dma.fifo.full
  busCycle := p.bus.dma.cyc || p.bus.dma.brespCnt ≠ 0#3
  xfrComplete := !p.busy
  crcError := !p.serial.crcOk
  busError := p.bus.dma.busError
  intStatusRst := c.dataIntRst

def busIn : DmaIn a where
  reset := c.reset
  cmdStart := c.cmdStart
  enRx := p.master.enRxFifo
  enTx := p.master.enTxFifo
  rxWe := p.serial.we && c.clockPosedge
  rxData := p.serial.dataOut
  txRe := p.serial.rd && c.clockPosedge
  dataBusy := p.busy
  dmaAddr := c.dmaAddr.extractLsb' 2 a
  awready := c.awready
  wready := c.wready
  bvalid := c.bvalid
  bresp := c.bresp
  arready := c.arready
  rvalid := c.rvalid
  rdata := c.rdata
  rlast := c.rlast
  rresp := c.rresp

def tick : DataPath n a where
  master := if c.reset then .reset else if c.clockPosedge then p.master.tick (p.masterIn c) else p.master
  serial := if c.reset then p.serial.reset else if c.clockPosedge then p.serial.tick (p.serialIn c) else p.serial
  bus := p.bus.tick (p.busIn c)

/-- What the serial block reads on the enabled edges. -/
def seen : DataPath n a → List (CycleIn a) → List DataSerialIn
  | _, [] => []
  | p, c :: cs => (if c.clockPosedge then [p.serialIn c] else []) ++ seen (p.tick c) cs

/-- What the lines carry after the enabled edges. -/
def shown : DataPath n a → List (CycleIn a) → List (Option (BitVec 4))
  | _, [] => []
  | p, c :: cs => (if c.clockPosedge then [(p.tick c).serial.lines] else []) ++ shown (p.tick c) cs

end DataPath

/-- An enabled edge that ends a transfer without an error. -/
structure EndStep (p : DataPath n a) (c : CycleIn a) : Prop where
  reset : c.reset = false
  dataIntRst : c.dataIntRst = false
  clockPosedge : c.clockPosedge = true
  ends : (p.tick c).master.state ≠ .dataTransfer
  noError : (p.tick c).master.intStatus.getLsbD intDataEi = false

variable {p : DataPath n a} {c : CycleIn a} {A : BitVec a}

/-- Such an edge has found the transfer complete. -/
theorem EndStep.complete (hc : EndStep p c) (hs : p.master.state = .dataTransfer) :
    p.serial.state = .idle ∧ p.serial.crcOk = true ∧ p.bus.dma.cyc = false ∧ p.bus.dma.brespCnt = 0#3 ∧
      (p.master.enTxFifo = true ∨ p.bus.dma.fifo.empty = true) ∧
        (p.tick c).master.intStatus.getLsbD intDataCc = true := by
  have hmaster : (p.tick c).master = p.master.tick (p.masterIn c) := by
    simp [DataPath.tick, hc.reset, hc.clockPosedge]
  have hends := hc.ends
  have hnoerr := hc.noError
  rw [hmaster] at hends hnoerr ⊢
  obtain ⟨hdone, hcyc, hempty, herr, -, hcc⟩ := DataMaster.ends (i := p.masterIn c) hs hc.dataIntRst hends hnoerr
  have hidle : p.serial.state = .idle := by simpa [DataPath.masterIn, DataPath.busy] using hdone
  have hcrc : p.serial.crcOk = true := by simpa [DataPath.masterIn] using herr
  have hquiet : p.bus.dma.cyc = false ∧ p.bus.dma.brespCnt = 0#3 := by simpa [DataPath.masterIn] using hcyc
  exact ⟨hidle, hcrc, hquiet.1, hquiet.2, hempty, hcc⟩

/-- A cycle of a transfer of two blocks of four bytes on four lines, with a slave that takes all it is offered. -/
def wordCycle : CycleIn 10 :=
  { clockPosedge := true, datReg := 0xf#4, reset := false, cmdStart := false, startTx := false, startRx := false,
    timeout := 0#28, blksize := 3#12, bus4bit := true, blkcnt := 1#16, dmaAddr := 0#12,
    dataIntRst := false, awready := true,
    wready := true, bvalid := true, bresp := 0#2, arready := true, rvalid := false, rdata := 0#32,
    rlast := false, rresp := 0#2 }

/-! ## The memory -/

/-- The memory after the writes. -/
def stored (m : BitVec a → BitVec 32) (ws : List (BitVec a × BitVec 32)) : BitVec a → BitVec 32 :=
  ws.foldl (fun m p => Function.update m p.1 p.2) m

/-- Byte `k` of the memory from word `A` on. -/
def byteAt (m : BitVec a → BitVec 32) (A : BitVec a) (k : ℕ) : BitVec 8 :=
  (m (A + BitVec.ofNat a (k / 4))).extractLsb' (8 * (k % 4)) 8

/-- Writes that go to one place after the other, and not round to the first one. -/
theorem stored_placed (m : BitVec a → BitVec 32) (l : List (BitVec 32)) (hl : l.length ≤ 2 ^ a) :
    ∀ k (hk : k < l.length), stored m (placed A l) (A + BitVec.ofNat a k) = l[k] := by
  induction l using List.reverseRecOn with
  | nil => exact fun k hk => absurd hk (Nat.not_lt_zero k)
  | append_singleton l w ih =>
    intro k hk
    rw [List.length_append, List.length_singleton] at hl hk
    rw [stored, placed_concat, List.foldl_append, List.foldl_cons, List.foldl_nil]
    rcases Nat.lt_succ_iff_lt_or_eq.1 hk with hlt | rfl
    · have hne : A + BitVec.ofNat a k ≠ A + BitVec.ofNat a l.length := fun heq => by
        have := Ring.add_ofNat_inj (by omega) (by omega) heq
        omega
      rw [Function.update_of_ne hne, List.getElem_append_left hlt]
      exact ih (by omega) k hlt
    · rw [Function.update_self, List.getElem_append_right (Nat.le_refl _)]
      simp

theorem extractLsb_swap (v : BitVec 32) {b : ℕ} (hb : b < 4) :
    (swap v).extractLsb' (8 * b) 8 = v.extractLsb' (24 - 8 * b) 8 := by
  match b with
  | 0 => exact BitVec.extractLsb'_append_eq_right
  | 1 => exact (BitVec.extractLsb'_append_eq_of_le (by omega)).trans BitVec.extractLsb'_append_eq_right
  | 2 =>
    exact (BitVec.extractLsb'_append_eq_of_le (by omega)).trans
      ((BitVec.extractLsb'_append_eq_of_le (by omega)).trans BitVec.extractLsb'_append_eq_right)
  | 3 =>
    exact (BitVec.extractLsb'_append_eq_of_le (by omega)).trans
      ((BitVec.extractLsb'_append_eq_of_le (by omega)).trans
        ((BitVec.extractLsb'_append_eq_of_le (by omega)).trans BitVec.extractLsb'_eq_self))

theorem getMsbD_extractLsb (v : BitVec 32) {b t : ℕ} (hb : b < 4) (ht : t < 8) :
    (v.extractLsb' (24 - 8 * b) 8).getMsbD t = v.getMsbD (8 * b + t) := by
  rw [BitVec.getMsbD_eq_getLsbD, BitVec.getMsbD_eq_getLsbD, BitVec.getLsbD_extractLsb',
    show 24 - 8 * b + (8 - 1 - t) = 32 - 1 - (8 * b + t) by omega]
  simp [ht, show 8 * b + t < 32 by omega, show 7 - t < 8 by omega]

theorem byte_swap (v : BitVec 32) {b t : ℕ} (hb : b < 4) (ht : t < 8) :
    ((swap v).extractLsb' (8 * b) 8).getMsbD t = v.getMsbD (8 * b + t) := by
  rw [extractLsb_swap v hb, getMsbD_extractLsb v hb ht]

theorem swap_byte (v : BitVec 32) {b t : ℕ} (hb : b < 4) (ht : t < 8) :
    (swap v).getMsbD (8 * b + t) = (v.extractLsb' (8 * b) 8).getMsbD t := by
  have hrev : 24 - 8 * b = 8 * (3 - b) := by omega
  have hback : 24 - 8 * (3 - b) = 8 * b := by omega
  rw [← getMsbD_extractLsb (swap v) hb ht, hrev, extractLsb_swap v (by omega), hback]

end Soceteer.Sdhost
