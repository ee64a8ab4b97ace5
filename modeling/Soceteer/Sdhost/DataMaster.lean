import Soceteer.Lib.Packer

/-!
# Soceteer.Sdhost.DataMaster — a data transfer from its start to its status

`sd_data_master` turns the FIFO on, starts `sd_data_serial_host`, watches both, and says how the transfer ended.

* `DataMaster`, `DataMaster.tick`: the block.
* `DataMaster.stays`, `DataMaster.ends`: what an edge that stays in a transfer has seen, and one that ends it
  without an error.
-/

namespace Soceteer.Sdhost

open Lib Packer

inductive DataMasterState
  | idle
  | startTxFifo
  | startRxFifo
  | dataTransfer
deriving DecidableEq, Inhabited

/-- The registers of `sd_data_master` -/
structure DataMaster where
  enTxFifo : Bool
  enRxFifo : Bool
  dWrite : Bool
  dRead : Bool
  intStatus : BitVec 6
  watchdog : BitVec 28
  watchdogEnable : Bool
  state : DataMasterState
deriving Inhabited

/-- What an enabled edge reads. -/
structure DataMasterIn where
  startTx : Bool
  startRx : Bool
  timeout : BitVec 28
  fifoEmpty : Bool
  fifoReady : Bool
  fifoFull : Bool
  busCycle : Bool
  xfrComplete : Bool
  crcError : Bool
  busError : Bool
  intStatusRst : Bool

/-! `INT_DATA_CC`, `INT_DATA_EI`, `INT_DATA_CTE`, `INT_DATA_CCRCE`, `INT_DATA_CFE`, `INT_DATA_CBE` -/

def intDataCc : ℕ := 0

def intDataEi : ℕ := 1

def intDataCte : ℕ := 2

def intDataCcrce : ℕ := 3

def intDataCfe : ℕ := 4

def intDataCbe : ℕ := 5

namespace DataMaster

variable (m : DataMaster) (i : DataMasterIn)

/-- `reset` -/
def reset : DataMaster where
  enTxFifo := false
  enRxFifo := false
  dWrite := false
  dRead := false
  intStatus := 0#6
  watchdog := 0#28
  watchdogEnable := false
  state := .idle

/-- A transfer is given up: `start` is `2'b11` from then on until the next edge. -/
def giveUp (cause : ℕ) : DataMaster :=
  { m with
    intStatus := setBit (setBit m.intStatus cause true) intDataEi true, state := .idle,
    dWrite := true, dRead := true }

/-- The status of a transfer that came to its end. -/
def endStatus : BitVec 6 :=
  let status := m.intStatus
  let status := if i.crcError then setBit (setBit status intDataCcrce true) intDataEi true else status
  let status := if i.busError then setBit (setBit status intDataCbe true) intDataEi true else status
  setBit status intDataCc true

/-- The case statement. -/
def next : DataMaster :=
  match m.state with
  | .idle =>
    { m with
      enTxFifo := false, enRxFifo := false, dWrite := false, dRead := false, watchdog := 0#28,
      watchdogEnable := i.timeout ≠ 0#28,
      state := if i.startTx then .startTxFifo else if i.startRx then .startRxFifo else .idle }
  | .startRxFifo =>
    { m with
      enRxFifo := true, enTxFifo := false, dRead := true, state := if i.xfrComplete then .startRxFifo
        else .dataTransfer }
  | .startTxFifo =>
    let m' := { m with enRxFifo := false, enTxFifo := true }
    if i.fifoReady then
      { m' with dWrite := true, state := if i.xfrComplete then .startTxFifo else .dataTransfer }
    else m'
  | .dataTransfer =>
    let m' := { m with dRead := false, dWrite := false }
    if m.enTxFifo ∧ i.fifoEmpty then m'.giveUp intDataCfe
    else if m.enRxFifo ∧ i.fifoFull then m'.giveUp intDataCfe
    else if m.watchdogEnable ∧ i.timeout ≤ m.watchdog then m'.giveUp intDataCte
    else if i.xfrComplete ∧ i.busCycle = false ∧ (m.enTxFifo ∨ i.fifoEmpty) then
      { m' with state := .idle, intStatus := m.endStatus i }
    else if m.watchdogEnable then { m' with watchdog := m.watchdog + 1#28 }
    else m'

/-- An enabled edge. -/
def tick : DataMaster :=
  let m' := m.next i
  if i.intStatusRst then { m' with intStatus := 0#6 } else m'

end DataMaster

variable {m : DataMaster} {i : DataMasterIn}

/-- An edge in a transfer: it is given up, with an error, it comes to its end, or it goes on. -/
theorem DataMaster.tick_transfer (hs : m.state = .dataTransfer) (hrst : i.intStatusRst = false) :
    ((m.tick i).state = .idle ∧ (m.tick i).intStatus.getLsbD intDataEi = true) ∨
      ((m.enTxFifo = true → i.fifoEmpty = false) ∧ (m.enRxFifo = true → i.fifoFull = false)) ∧
        ((i.xfrComplete = true ∧ i.busCycle = false ∧ (m.enTxFifo = true ∨ i.fifoEmpty = true) ∧
            (m.tick i).state = .idle ∧ (m.tick i).intStatus = m.endStatus i) ∨
          (m.tick i).state = .dataTransfer ∧ (m.tick i).enTxFifo = m.enTxFifo ∧ (m.tick i).enRxFifo = m.enRxFifo ∧
            (m.tick i).dRead = false ∧ (m.tick i).dWrite = false ∧ (m.tick i).intStatus = m.intStatus) := by
  have hei : ∀ (status : BitVec 6) (cause : ℕ),
      (setBit (setBit status cause true) intDataEi true).getLsbD intDataEi = true := by
    intro status cause
    simp [setBit, intDataEi]
  by_cases htx : m.enTxFifo = true ∧ i.fifoEmpty = true
  · left
    simp [tick, next, hs, hrst, htx, giveUp, hei]
  by_cases hrx : m.enRxFifo = true ∧ i.fifoFull = true
  · left
    simp [tick, next, hs, hrst, htx, hrx, giveUp, hei]
  by_cases htime : m.watchdogEnable = true ∧ i.timeout ≤ m.watchdog
  · left
    simp [tick, next, hs, hrst, htx, hrx, htime, giveUp, hei]
  right
  refine ⟨⟨fun h => by simpa [h] using htx, fun h => by simpa [h] using hrx⟩, ?_⟩
  by_cases hend : i.xfrComplete = true ∧ i.busCycle = false ∧ (m.enTxFifo = true ∨ i.fifoEmpty = true)
  · left
    have hnext :
        m.tick i = { m with dRead := false, dWrite := false, state := .idle, intStatus := m.endStatus i } := by
      rw [tick, hrst, if_neg Bool.false_ne_true, next, hs]
      simp only [if_neg htx, if_neg hrx, if_neg htime, if_pos hend]
    rw [hnext]
    exact ⟨hend.1, hend.2.1, hend.2.2, rfl, rfl⟩
  · right
    have hnext :
      m.tick i = if m.watchdogEnable then { m with dRead := false, dWrite := false, watchdog := m.watchdog + 1#28 }
        else { m with dRead := false, dWrite := false } := by
      rw [tick, hrst, if_neg Bool.false_ne_true, next, hs]
      simp only [if_neg htx, if_neg hrx, if_neg htime, if_neg hend]
    rw [hnext]
    split_ifs <;> exact ⟨hs, rfl, rfl, rfl, rfl, rfl⟩

/-- An edge that stays in a transfer has seen no reason to give it up. -/
theorem DataMaster.stays (hs : m.state = .dataTransfer) (hrst : i.intStatusRst = false)
    (hstay : (m.tick i).state = .dataTransfer) :
    (m.enTxFifo = true → i.fifoEmpty = false) ∧ (m.enRxFifo = true → i.fifoFull = false) ∧
      (m.tick i).enTxFifo = m.enTxFifo ∧ (m.tick i).enRxFifo = m.enRxFifo ∧ (m.tick i).dRead = false ∧
        (m.tick i).dWrite = false ∧ (m.tick i).intStatus = m.intStatus := by
  rcases tick_transfer hs hrst with hup | ⟨hfifo, hend | hgo⟩
  · exact absurd hstay (by simp [hup.1])
  · exact absurd hstay (by simp [hend.2.2.2.1])
  · exact ⟨hfifo.1, hfifo.2, hgo.2⟩

/-- An edge that ends a transfer without an error has seen the end of it. -/
theorem DataMaster.ends (hs : m.state = .dataTransfer) (hrst : i.intStatusRst = false)
    (hend : (m.tick i).state ≠ .dataTransfer) (hok : (m.tick i).intStatus.getLsbD intDataEi = false) :
    i.xfrComplete = true ∧ i.busCycle = false ∧ (m.enTxFifo = true ∨ i.fifoEmpty = true) ∧ i.crcError = false ∧
      i.busError = false ∧ (m.tick i).intStatus.getLsbD intDataCc = true := by
  rcases tick_transfer hs hrst with hup | ⟨-, ⟨hdone, hcyc, hempty, -, hstatus⟩ | hgo⟩
  · exact absurd hok (by simp [hup.2])
  · rw [hstatus] at hok ⊢
    refine ⟨hdone, hcyc, hempty, ?_, ?_, ?_⟩
    all_goals cases hc : i.crcError <;> cases hb : i.busError <;>
      simp_all [endStatus, setBit, intDataEi, intDataCc, intDataCcrce, intDataCbe]
  · exact absurd hgo.1 hend

end Soceteer.Sdhost
