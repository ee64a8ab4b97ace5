import Mathlib.Data.List.GetD
import Soceteer.Lib.Clocked
import Soceteer.Lib.Packer
import Soceteer.Sdhost.Crc

/-!
# Soceteer.Sdhost.CmdSerial — the command line

`sd_cmd_serial_host` puts a command on the command line and takes the response from it, one bit an SD clock.  What
follows is the block from one enabled edge (`clock_posedge`) to the next.

* `CmdSerial`, `CmdSerial.tick`: the registers and an enabled edge; `CmdSerial.reset`.
* `cmdFrame`: what a command looks like on the line; `Sending`, `sends`: the block puts it there.
* `Receiving`, `receives`: the response that the block takes, and its verdict on it.
-/

namespace Soceteer.Sdhost

open Lib Crc Clocked

/-! ## The source -/

inductive CmdSerialState
  | init
  | idle
  | setupCrc
  | write
  | readWait
  | read
  | finishWr
  | finishWo
deriving DecidableEq, Inhabited

/-- `INIT_DELAY` -/
def initDelay : ℕ := 4

/-- `BITS_TO_SEND` -/
def bitsToSend : ℕ := 48

/-- The registers of `sd_cmd_serial_host`, the one of `CRC_7` included; `cmd_dat_reg` is an input of the edge. -/
structure CmdSerial where
  respLen : ℕ
  withResponse : Bool
  cmdBuff : BitVec 40
  respBuff : BitVec 128
  respIdx : ℕ
  crcRst : Bool
  crcIn : BitVec 7
  crcVal : BitVec 7
  crcEnable : Bool
  crcBit : Bool
  crcMatch : Bool
  counter : ℕ
  state : CmdSerialState
  response : BitVec 120
  finish : Bool
  crcOk : Bool
  indexOk : Bool
  cmdOe : Bool
  cmdO : Bool
deriving Inhabited

/-- What an enabled edge reads. -/
structure CmdSerialIn where
  setting : BitVec 2
  cmd : BitVec 40
  start : Bool
  cmdDatReg : Bool

/-- `reset` -/
def CmdSerial.reset (h : CmdSerial) : CmdSerial :=
  { h with
    respLen := 0, withResponse := false, cmdBuff := 0#40, crcEnable := false, respIdx := 0,
    cmdOe := true, cmdO := true,
    respBuff := 0#128, finish := false, crcRst := true, crcBit := false, crcIn := 0#7, response := 0#120,
      indexOk := false,
    crcOk := false, crcMatch := false, counter := 0, state := .init, crcVal := 0#7 }

/-- The case statement, without `CRC_7`. -/
def CmdSerial.next (h : CmdSerial) (i : CmdSerialIn) : CmdSerial :=
  match h.state with
  | .init =>
    { h with
      counter := h.counter + 1, cmdOe := true, cmdO := true, state := if initDelay ≤ h.counter then .idle
        else .init }
  | .idle =>
    let h' := { h with
      cmdOe := false, counter := 0, crcRst := true, crcEnable := false, response := 0#120,
      respIdx := 0, crcOk := false,
      indexOk := false, finish := false }
    if i.start then
      { h' with
        respLen := if i.setting.getLsbD 1 then 127 else 39, withResponse := i.setting.getLsbD 0, cmdBuff := i.cmd,
        state := .setupCrc }
    else h'
  | .setupCrc =>
    { h with crcRst := false, crcEnable := true, crcBit := h.cmdBuff.getLsbD (39 - h.counter), state := .write }
  | .write =>
    let h' :=
      if h.counter < bitsToSend - 8 then
        let h' := { h with cmdOe := true, cmdO := h.cmdBuff.getLsbD (39 - h.counter) }
        if h.counter < bitsToSend - 9 then { h' with crcBit := h.cmdBuff.getLsbD (39 - h.counter - 1) }
        else { h' with crcEnable := false }
      else if h.counter < bitsToSend - 1 then
        { h with cmdOe := true, crcEnable := false, cmdO := h.crcVal.getLsbD (bitsToSend - h.counter - 2) }
      else if h.counter = bitsToSend - 1 then { h with cmdOe := true, cmdO := true }
      else { h with cmdOe := false, cmdO := true }
    { h' with
      counter := h.counter + 1
      state := if bitsToSend ≤ h.counter then if h.withResponse then .readWait else .finishWo else .write }
  | .readWait =>
    { h with
      crcEnable := false, crcRst := true, counter := 1, cmdOe := false,
      respBuff := setBit h.respBuff 127 i.cmdDatReg,
      state := if i.cmdDatReg then .readWait else .read }
  | .finishWo =>
    { h with finish := true, crcEnable := false, crcRst := true, counter := 0, cmdOe := false, state := .idle }
  | .read =>
    let h' := { h with crcRst := false, crcEnable := h.respLen ≠ 127 ∨ 7 < h.counter, cmdOe := false }
    let h' :=
      if h.counter ≤ h.respLen then
        let h' := { h' with crcBit := i.cmdDatReg }
        if h.counter < 8 then { h' with respBuff := setBit h.respBuff (127 - h.counter) i.cmdDatReg }
        else { h' with respIdx := h.respIdx + 1, respBuff := setBit h.respBuff (119 - h.respIdx) i.cmdDatReg }
      else if h.counter - h.respLen ≤ 7 then
        { h' with crcIn := setBit h.crcIn (h.respLen + 7 - h.counter) i.cmdDatReg, crcEnable := false }
      else { h' with crcEnable := false, crcMatch := h.crcIn = h.crcVal }
    { h' with counter := h.counter + 1, state := if h.respLen + 8 ≤ h.counter then .finishWr else .read }
  | .finishWr =>
    { h with
      indexOk := h.cmdBuff.extractLsb' 32 6 = h.respBuff.extractLsb' 120 6, crcOk := h.crcMatch, finish := true,
      crcEnable := false, crcRst := true, counter := 0, cmdOe := false, response := h.respBuff.extractLsb' 0 120,
      state := .idle }

/-- An enabled edge. `CRC_7` is cleared as long as `crc_rst` is up, and at once when it goes up. -/
def CmdSerial.tick (h : CmdSerial) (i : CmdSerialIn) : CmdSerial :=
  let h' := h.next i
  { h' with
    crcVal :=
      if h.crcRst ∨ h'.crcRst then 0#7 else if h.crcEnable then sdCrc7 h.crcVal h.crcBit else h.crcVal }

/-- What the line carries: a bit, or nothing when the block does not drive it. -/
def CmdSerial.line (h : CmdSerial) : Option Bool := if h.cmdOe then some h.cmdO else none

/-! ## A command on the line -/

/-- A command on the line: its 40 bits, their code and the end bit. -/
def cmdFrame (cmd : BitVec 40) : List Bool := bitsOf cmd ++ (bitsOf (crc poly7 0#7 (bitsOf cmd)) ++ [true])

@[simp] theorem length_cmdFrame (cmd : BitVec 40) : (cmdFrame cmd).length = 48 := by simp [cmdFrame]

theorem cmdFrame_cmd {cmd : BitVec 40} {c : ℕ} (hc : c < 40) : (cmdFrame cmd)[c]?.getD true = cmd.getMsbD c := by
  rw [cmdFrame, List.getElem?_append_left (by simpa using hc)]
  simp [bitsOf, hc]

theorem cmdFrame_crc {cmd : BitVec 40} {c : ℕ} (hlo : 40 ≤ c) (hc : c < 47) :
    (cmdFrame cmd)[c]?.getD true = (crc poly7 0#7 (bitsOf cmd)).getMsbD (c - 40) := by
  rw [cmdFrame, List.getElem?_append_right (by simpa using hlo), length_bitsOf,
    List.getElem?_append_left (by rw [length_bitsOf]; omega)]
  have hin : c - 40 < 7 := by omega
  simp [bitsOf, hin]

theorem cmdFrame_end (cmd : BitVec 40) : (cmdFrame cmd)[47]?.getD true = true := by
  rw [cmdFrame, List.getElem?_append_right (by simp), length_bitsOf, List.getElem?_append_right (by simp),
    length_bitsOf]
  rfl

theorem map_cmdFrame (cmd : BitVec 40) :
    (List.range' 0 48).map (fun c => some ((cmdFrame cmd)[c]?.getD true)) = (cmdFrame cmd).map some := by
  refine List.ext_getElem (by simp) fun c hc _ => ?_
  rw [List.getElem_map, List.getElem_map, List.getElem_range', List.getElem?_eq_getElem (by simpa using hc)]
  simp

/-- The registers that a command sets and that stay until its response has come. -/
structure Holds (setting : BitVec 2) (cmd : BitVec 40) (h : CmdSerial) : Prop where
  respLen : h.respLen = if setting.getLsbD 1 then 127 else 39
  withResponse : h.withResponse = setting.getLsbD 0
  cmdBuff : h.cmdBuff = cmd
  finish : h.finish = false

/-- About to put bit `c` of the frame on the line; the code of the bits before it has been reached. -/
structure Sending (setting : BitVec 2) (cmd : BitVec 40) (c : ℕ) (h : CmdSerial) :
    Prop extends Holds setting cmd h where
  state : h.state = .write
  counter : h.counter = c
  respIdx : h.respIdx = 0
  crcRst : h.crcRst = false
  crcEnable : h.crcEnable = decide (c < 40)
  crcBit : c < 40 → h.crcBit = cmd.getMsbD c
  crcVal : h.crcVal = crc poly7 0#7 ((bitsOf cmd).take c)

theorem take_bitsOf {w : ℕ} {v : BitVec w} {c : ℕ} (hc : c < w) :
    (bitsOf v).take (c + 1) = (bitsOf v).take c ++ [v.getMsbD c] := by
  rw [List.take_add_one]
  simp [bitsOf, hc]

theorem getLsbD_rev {w : ℕ} {v : BitVec w} {c : ℕ} (hc : c < w) : v.getLsbD (w - 1 - c) = v.getMsbD c := by
  rw [BitVec.getMsbD_eq_getLsbD]
  simp [hc]

variable {setting : BitVec 2} {cmd : BitVec 40} {c : ℕ} {h : CmdSerial} {i : CmdSerialIn}

theorem CmdSerial.tick_start (hs : h.state = .idle) (hi : i.start = true) :
    (h.tick i).state = .setupCrc ∧ (h.tick i).line = none ∧ Holds i.setting i.cmd (h.tick i) ∧
      (h.tick i).respIdx = 0 ∧
      (h.tick i).crcRst = true ∧ (h.tick i).counter = 0 ∧ (h.tick i).crcVal = 0#7 := by
  have hnext : h.tick i = { h with
      cmdOe := false, counter := 0, crcRst := true, crcEnable := false, response := 0#120,
      respIdx := 0, crcOk := false,
      indexOk := false, finish := false, respLen := if i.setting.getLsbD 1 then 127 else 39,
      withResponse := i.setting.getLsbD 0, cmdBuff := i.cmd, state := .setupCrc, crcVal := 0#7 } := by
    simp [CmdSerial.tick, CmdSerial.next, hs, hi]
  rw [hnext]
  exact ⟨rfl, rfl, ⟨rfl, rfl, rfl, rfl⟩, rfl, rfl, rfl, rfl⟩

theorem CmdSerial.tick_setup (hs : h.state = .setupCrc) (hh : Holds setting cmd h) (hidx : h.respIdx = 0)
    (hrst : h.crcRst = true) (hc : h.counter = 0) : Sending setting cmd 0 (h.tick i) := by
  have hnext : h.tick i = { h with
      crcRst := false, crcEnable := true, crcBit := h.cmdBuff.getLsbD 39, state := .write,
      crcVal := 0#7 } := by
    simp [CmdSerial.tick, CmdSerial.next, hs, hrst, hc]
  rw [hnext]
  exact ⟨⟨hh.respLen, hh.withResponse, hh.cmdBuff, hh.finish⟩, rfl, hc, hidx, rfl, rfl,
    fun _ => hh.cmdBuff ▸ getLsbD_rev (by omega), by simp⟩

theorem CmdSerial.line_tick_setup (hs : h.state = .setupCrc) : (h.tick i).line = h.line := by
  simp [CmdSerial.tick, CmdSerial.next, CmdSerial.line, hs]

/-- The code after one more bit: the edge that puts a bit on the line also takes it into the code. -/
theorem Sending.crcVal_next (hw : Sending setting cmd c h) :
    (if h.crcEnable then sdCrc7 h.crcVal h.crcBit else h.crcVal) = crc poly7 0#7 ((bitsOf cmd).take (c + 1)) := by
  rw [hw.crcEnable, hw.crcVal]
  by_cases hc : c < 40
  · rw [decide_eq_true hc, if_pos rfl, hw.crcBit hc, sdCrc7_eq_feed, take_bitsOf hc, crc_append]
    rfl
  · rw [decide_eq_false hc, if_neg Bool.false_ne_true, List.take_of_length_le (by simp; omega),
      List.take_of_length_le (by simp; omega)]

theorem Sending.tick_eq (hw : Sending setting cmd c h) (hc : c < 48) : h.tick i = { h with
    cmdOe := true, cmdO := (cmdFrame cmd)[c]?.getD true, counter := c + 1, crcEnable := decide (c < 39),
    crcBit := if c < 39 then cmd.getMsbD (c + 1) else h.crcBit,
    crcVal := crc poly7 0#7 ((bitsOf cmd).take (c + 1)) } := by
  have hval := hw.crcVal_next
  obtain ⟨⟨hlen, hwith, hbuff, hfin⟩, hstate, hcount, hidx, hrst, hen, hbit, hcrc⟩ := hw
  have hlast : ¬ 48 ≤ c := by omega
  by_cases hcmd : c < 40
  · rw [hen, decide_eq_true hcmd, if_pos rfl] at hval
    rw [decide_eq_true hcmd] at hen
    have hout : cmd.getLsbD (39 - c) = (cmdFrame cmd)[c]?.getD true :=
      (getLsbD_rev hcmd).trans (cmdFrame_cmd hcmd).symm
    by_cases h39 : c < 39
    · have hahead : cmd.getLsbD (39 - c - 1) = cmd.getMsbD (c + 1) := by
        rw [Nat.sub_sub]
        exact getLsbD_rev (by omega)
      simp [CmdSerial.tick, CmdSerial.next, bitsToSend, hstate, hcount, hbuff, hrst, hval, hlast, hcmd, h39,
        hout, hahead, hen]
    · simp [CmdSerial.tick, CmdSerial.next, bitsToSend, hstate, hcount, hbuff, hrst, hval, hen,
        hlast, hcmd, h39, hout]
  · rw [hen, decide_eq_false hcmd, if_neg Bool.false_ne_true] at hval
    rw [decide_eq_false hcmd] at hen
    have h39 : ¬ c < 39 := by omega
    by_cases h47 : c < 47
    · have hout :
          (crc poly7 0#7 ((bitsOf cmd).take (c + 1))).getLsbD (48 - c - 2) = (cmdFrame cmd)[c]?.getD true := by
        rw [cmdFrame_crc (by omega) h47, List.take_of_length_le (by simp; omega),
          ← getLsbD_rev (show c - 40 < 7 by omega)]
        congr 1
        omega
      simp [CmdSerial.tick, CmdSerial.next, bitsToSend, hstate, hcount, hrst, hval, hen, hlast,
        hcmd, h39, h47, hout]
    · obtain rfl : c = 47 := by omega
      rw [cmdFrame_end]
      simp [CmdSerial.tick, CmdSerial.next, bitsToSend, hstate, hcount, hrst, hval, hen]

theorem Sending.tick (hw : Sending setting cmd c h) (hc : c < 48) : Sending setting cmd (c + 1) (h.tick i) := by
  rw [hw.tick_eq hc]
  refine ⟨⟨hw.respLen, hw.withResponse, hw.cmdBuff, hw.finish⟩, hw.state, rfl, hw.respIdx, hw.crcRst, ?_,
    fun hc => ?_, rfl⟩
  · rw [decide_eq_decide]
    omega
  · exact if_pos (by omega)

theorem Sending.line_tick (hw : Sending setting cmd c h) (hc : c < 48) :
    (h.tick i).line = some ((cmdFrame cmd)[c]?.getD true) := by
  rw [hw.tick_eq hc]
  rfl

/-- Waiting for the start bit of a response. -/
structure Waiting (setting : BitVec 2) (cmd : BitVec 40) (h : CmdSerial) : Prop extends Holds setting cmd h where
  state : h.state = .readWait
  respIdx : h.respIdx = 0

theorem Sending.tick_end (hw : Sending setting cmd 48 h) : (h.tick i).line = none ∧
    if setting.getLsbD 0 then Waiting setting cmd (h.tick i) else (h.tick i).state = .finishWo ∧
      (h.tick i).finish = false := by
  obtain ⟨⟨hlen, hwith, hbuff, hfin⟩, hstate, hcount, hidx, -, -, -, -⟩ := hw
  cases hresp : setting.getLsbD 0 <;> rw [hresp] at hwith
  · simp [CmdSerial.tick, CmdSerial.next, CmdSerial.line, hstate, hcount, bitsToSend, hwith, hfin]
  · refine ⟨by simp [CmdSerial.tick, CmdSerial.next, CmdSerial.line, hstate, hcount, bitsToSend],
      ⟨⟨?_, ?_, ?_, ?_⟩, ?_, ?_⟩⟩ <;>
      simp [CmdSerial.tick, CmdSerial.next, hstate, hcount, bitsToSend, hlen, hwith, hbuff, hfin, hidx, hresp]

/-! ## A response from the line -/

/-- How long a response is, up to its code, and where the part starts that the code is about. -/
def Shape (setting : BitVec 2) (L s : ℕ) : Prop :=
  setting.getLsbD 1 = false ∧ L = 39 ∧ s = 0 ∨ setting.getLsbD 1 = true ∧ L = 127 ∧ s = 8

/-- The bits from `s` on, before `n`. -/
def covered (r : ℕ → Bool) (s n : ℕ) : List Bool := (List.range' s (n - s)).map r

theorem covered_succ {r : ℕ → Bool} {s n : ℕ} (hs : s ≤ n) : covered r s (n + 1) = covered r s n ++ [r n] := by
  have hlen : n + 1 - s = n - s + 1 := by omega
  rw [covered, hlen, List.range'_1_concat, List.map_append, Nat.add_sub_cancel' hs]
  rfl

theorem covered_of_le {r : ℕ → Bool} {s n : ℕ} (hs : n ≤ s) : covered r s n = [] := by
  rw [covered, Nat.sub_eq_zero_of_le hs]
  rfl

/-- In a response of bits `r`, with `c` of them taken. -/
structure Receiving (setting : BitVec 2) (cmd : BitVec 40) (r : ℕ → Bool) (L s c : ℕ) (h : CmdSerial) : Prop
    extends Holds setting cmd h where
  state : h.state = .read
  counter : h.counter = c
  respIdx : h.respIdx = min c (L + 1) - 8
  crcRst : h.crcRst = decide (c = 1)
  crcEnable : h.crcEnable = decide (1 < c ∧ c ≤ L + 1 ∧ s < c)
  crcBit : 1 < c → c ≤ L + 1 → h.crcBit = r (c - 1)
  crcVal : h.crcVal = crc poly7 0#7 (covered r s (min (c - 1) (L + 1)))
  respBuff : ∀ j < min c (L + 1), h.respBuff.getMsbD j = r j
  crcIn : ∀ j < 7, L + 1 + j < c → h.crcIn.getMsbD j = r (L + 1 + j)

variable {r : ℕ → Bool} {L s : ℕ}

theorem Waiting.tick (hw : Waiting setting cmd h) (hi : i.cmdDatReg = true) : Waiting setting cmd (h.tick i) := by
  obtain ⟨⟨hlen, hwith, hbuff, hfin⟩, hstate, hidx⟩ := hw
  refine ⟨⟨?_, ?_, ?_, ?_⟩, ?_, ?_⟩ <;> simp [CmdSerial.tick, CmdSerial.next, hstate, hlen, hwith,
    hbuff, hfin, hidx, hi]

theorem Waiting.tick_start (hw : Waiting setting cmd h) (hi : i.cmdDatReg = r 0) (hr : r 0 = false) :
    Receiving setting cmd r L s 1 (h.tick i) := by
  obtain ⟨⟨hlen, hwith, hbuff, hfin⟩, hstate, hidx⟩ := hw
  have hnext : h.tick i = { h with
      crcEnable := false, crcRst := true, counter := 1, cmdOe := false, respBuff := setBit h.respBuff 127 (r 0),
      state := .read, crcVal := 0#7 } := by
    simp [CmdSerial.tick, CmdSerial.next, hstate, hi, hr]
  rw [hnext]
  refine ⟨⟨hlen, hwith, hbuff, hfin⟩, rfl, rfl, ?_, rfl, rfl, fun h => absurd h (by omega), ?_, fun j hj => ?_,
    fun j _ hj => absurd hj (by omega)⟩
  · simp only
    omega
  · simp [covered]
  · obtain rfl : j = 0 := by omega
    exact (getMsbD_setBit h.respBuff 0 (r 0) (by omega) (by omega)).trans (if_pos rfl)

/-- The code after one more bit: a bit goes into the code one edge after it has been taken. -/
theorem Receiving.crcVal_next (hw : Receiving setting cmd r L s c h) (hr : r 0 = false) (hc : 1 ≤ c)
    (hs : s = 0 ∨ 1 < s)
    (hsL : s ≤ L) :
    (if h.crcRst then 0#7 else if h.crcEnable then sdCrc7 h.crcVal h.crcBit else h.crcVal)
      = crc poly7 0#7 (covered r s (min c (L + 1))) := by
  rw [hw.crcRst, hw.crcEnable, hw.crcVal]
  by_cases h1 : c = 1
  · subst h1
    rw [decide_eq_true rfl, if_pos rfl, Nat.min_eq_left (by omega)]
    rcases hs with rfl | hs
    · simp [covered, hr, feed_zero]
    · simp [covered_of_le hs.le]
  rw [decide_eq_false h1, if_neg Bool.false_ne_true]
  by_cases hen : 1 < c ∧ c ≤ L + 1 ∧ s < c
  · obtain ⟨n, rfl⟩ : ∃ n, c = n + 1 := ⟨c - 1, by omega⟩
    rw [decide_eq_true hen, if_pos rfl, hw.crcBit hen.1 hen.2.1, sdCrc7_eq_feed, Nat.add_sub_cancel,
      Nat.min_eq_left (by omega), Nat.min_eq_left hen.2.1, covered_succ (by omega), crc_append]
    rfl
  · rw [decide_eq_false hen, if_neg Bool.false_ne_true]
    by_cases hlong : c ≤ L + 1
    · rw [covered_of_le (by omega), covered_of_le (by omega)]
    · rw [Nat.min_eq_right (by omega), Nat.min_eq_right (by omega)]

theorem Receiving.tick (hw : Receiving setting cmd r L s c h) (hshape : Shape setting L s)
    (hr : r 0 = false) (h1 : 1 ≤ c)
    (hc : c < L + 8) (hi : i.cmdDatReg = r c) : Receiving setting cmd r L s (c + 1) (h.tick i) := by
  have hlen : h.respLen = L := by
    rcases hshape with ⟨hset, rfl, -⟩ | ⟨hset, rfl, -⟩ <;> rw [hw.respLen, hset] <;> rfl
  have hs : s = 0 ∨ 1 < s := by
    rcases hshape with ⟨-, -, rfl⟩ | ⟨-, -, rfl⟩ <;> simp
  have hlen127 : (L = 39 ∧ s = 0) ∨ (L = 127 ∧ s = 8) := by
    rcases hshape with ⟨-, h, h'⟩ | ⟨-, h, h'⟩ <;> simp [h, h']
  have hval := hw.crcVal_next hr h1 hs (by omega)
  have hend : ¬ L + 8 ≤ c := by omega
  by_cases hL : c ≤ L
  · -- a bit of the response
    have hpos : setBit h.respBuff (if c < 8 then 127 - c else 119 - h.respIdx) (r c) =
        setBit h.respBuff (127 - c) (r c) := by
      rw [hw.respIdx]
      congr 1
      split_ifs <;> omega
    have hnext : h.tick i = { h with
        crcRst := false, crcEnable := L ≠ 127 ∨ 7 < c, cmdOe := false, crcBit := r c, counter := c + 1,
        respBuff := setBit h.respBuff (127 - c) (r c), respIdx := if c < 8 then h.respIdx else h.respIdx + 1,
        crcVal := crc poly7 0#7 (covered r s (min c (L + 1))) } := by
      by_cases h8 : c < 8
      · simp [CmdSerial.tick, CmdSerial.next, hw.state, hw.counter, hlen, hL, h8, hend, hi, hval]
      · rw [if_neg h8] at hpos
        simp [CmdSerial.tick, CmdSerial.next, hw.state, hw.counter, hlen, hL, h8, hend, hi, hval, hpos]
    rw [hnext]
    refine ⟨⟨hw.respLen, hw.withResponse, hw.cmdBuff, hw.finish⟩, hw.state, rfl, ?_, ?_, ?_, fun _ _ => rfl, rfl,
      fun j hj => ?_, fun j _ hj => absurd hj (by omega)⟩
    · simp only [hw.respIdx]
      split_ifs <;> omega
    · simp
      omega
    · rw [decide_eq_decide]
      omega
    · have hset := getMsbD_setBit h.respBuff c (r c) (j := j) (by omega) (by omega)
      refine hset.trans ?_
      split_ifs with hjc
      · rw [hjc]
      · exact hw.respBuff j (by omega)
  · -- a bit of the code
    have hnext : h.tick i = { h with
        crcRst := false, crcEnable := false, cmdOe := false, counter := c + 1,
        crcIn := setBit h.crcIn (L + 7 - c) (r c), crcVal := crc poly7 0#7 (covered r s (min c (L + 1))) } := by
      have h7 : c - L ≤ 7 := by omega
      simp [CmdSerial.tick, CmdSerial.next, hw.state, hw.counter, hlen, hL, h7, hend, hi, hval]
    rw [hnext]
    refine ⟨⟨hw.respLen, hw.withResponse, hw.cmdBuff, hw.finish⟩, hw.state, rfl, ?_, ?_, ?_, fun _ _ => ?_, rfl,
      fun j hj => ?_, fun j hj hjc => ?_⟩
    · simp only [hw.respIdx]
      omega
    · simp
      omega
    · symm
      rw [decide_eq_false_iff_not]
      omega
    · omega
    · exact hw.respBuff j (by omega)
    · have hpos : L + 7 - c = 7 - 1 - (c - (L + 1)) := by omega
      simp only [hpos]
      rw [getMsbD_setBit _ _ _ (by omega) hj]
      split_ifs with hjc
      · rw [hjc, Nat.add_sub_cancel' (by omega)]
      · exact hw.crcIn j hj (by omega)

/-- The seven bits behind a response are the code of the part it is about. -/
def CodeOk (r : ℕ → Bool) (L s : ℕ) : Prop :=
  (List.range' (L + 1) 7).map r = bitsOf (crc poly7 0#7 (covered r s (L + 1)))

/-- The index that the response carries is the one of the command. -/
def IndexOk (cmd : BitVec 40) (r : ℕ → Bool) : Prop := ∀ j < 6, cmd.getMsbD (2 + j) = r (2 + j)

instance : Decidable (CodeOk r L s) := inferInstanceAs (Decidable (_ = _))

instance : Decidable (IndexOk cmd r) := inferInstanceAs (Decidable (∀ j < 6, _))

/-- With the response taken and its code compared. -/
structure Taken (setting : BitVec 2) (cmd : BitVec 40) (r : ℕ → Bool) (L s : ℕ) (h : CmdSerial) : Prop
    extends Holds setting cmd h where
  state : h.state = .finishWr
  crcMatch : h.crcMatch = decide (CodeOk r L s)
  respBuff : ∀ j ≤ L, h.respBuff.getMsbD j = r j

/-- With the response handed over. -/
structure Answered (cmd : BitVec 40) (r : ℕ → Bool) (L s : ℕ) (h : CmdSerial) : Prop where
  state : h.state = .idle
  finish : h.finish = true
  crcOk : h.crcOk = decide (CodeOk r L s)
  indexOk : h.indexOk = decide (IndexOk cmd r)
  response : ∀ j, j + 8 ≤ L → h.response.getMsbD j = r (j + 8)

theorem Receiving.tick_match (hw : Receiving setting cmd r L s (L + 8) h) (hshape : Shape setting L s) :
    Taken setting cmd r L s (h.tick i) := by
  have hlen : h.respLen = L := by
    rcases hshape with ⟨hset, rfl, -⟩ | ⟨hset, rfl, -⟩ <;> rw [hw.respLen, hset] <;> rfl
  have hnext : h.next i = { h with
      crcRst := false, crcEnable := false, cmdOe := false, crcMatch := h.crcIn = h.crcVal, counter := L + 9,
      state := .finishWr } := by
    simp [CmdSerial.next, hw.state, hw.counter, hlen]
  have hcode : h.crcIn = h.crcVal ↔ CodeOk r L s := by
    have hin : bitsOf h.crcIn = (List.range' (L + 1) 7).map r := by
      rw [bitsOf, List.range'_eq_map_range, List.map_map]
      refine List.map_congr_left fun j hj => ?_
      have hj := List.mem_range.1 hj
      exact hw.crcIn j hj (by omega)
    have hval := hw.crcVal
    rw [Nat.min_eq_right (by omega)] at hval
    rw [CodeOk, ← hin, ← hval]
    refine ⟨congrArg bitsOf, fun h' => ?_⟩
    rw [← placed_bitsOf h.crcIn, h', placed_bitsOf]
  rw [CmdSerial.tick, hnext]
  exact ⟨⟨hw.respLen, hw.withResponse, hw.cmdBuff, hw.finish⟩, rfl, decide_eq_decide.2 hcode,
    fun j hj => hw.respBuff j (by omega)⟩

theorem getMsbD_slice {w lo len j : ℕ} (v : BitVec w) (hj : j < len) (hw : lo + len ≤ w) :
    (v.extractLsb' lo len).getMsbD j = v.getMsbD (w - (lo + len) + j) := by
  have hpos : w - (lo + len - j) = w - (lo + len) + j := by omega
  have hin : lo + len - j ≤ w := by omega
  rw [BitVec.getMsbD_extractLsb', decide_eq_true hj, decide_eq_true hin, hpos]
  simp

theorem Taken.tick (hw : Taken setting cmd r L s h) (hmin : 8 ≤ L) (hmax : L ≤ 127) :
    Answered cmd r L s (h.tick i) := by
  have hnext : h.tick i = { h with
      indexOk := cmd.extractLsb' 32 6 = h.respBuff.extractLsb' 120 6, crcOk := h.crcMatch, finish := true,
      crcEnable := false, crcRst := true, counter := 0, cmdOe := false, response := h.respBuff.extractLsb' 0 120,
      state := .idle, crcVal := 0#7 } := by
    simp [CmdSerial.tick, CmdSerial.next, hw.state, hw.cmdBuff]
  rw [hnext]
  refine ⟨rfl, rfl, hw.crcMatch, decide_eq_decide.2 ⟨fun h j hj => ?_, fun h => ?_⟩, fun j hj => ?_⟩
  · have hbit := congrArg (BitVec.getMsbD · j) h
    simp only [getMsbD_slice _ hj, Nat.reduceAdd, Nat.reduceLeDiff, Nat.reduceSub] at hbit
    rw [hbit, hw.respBuff _ (by omega)]
  · refine BitVec.eq_of_getMsbD_eq fun j hj => ?_
    rw [getMsbD_slice _ hj (by omega), getMsbD_slice _ hj (by omega), hw.respBuff _ (by omega)]
    exact h j hj
  · simp only
    rw [getMsbD_slice _ (by omega) (by omega), hw.respBuff _ (by omega), Nat.add_comm]

/-! ## Runs -/

/-- What goes over the line once a command has been started: nothing for two edges, then its frame, whatever comes
in. -/
theorem sends (hs : h.state = .idle) (hi : i.start = true) {is : List CmdSerialIn} (hlen : is.length = 50) :
    outputs CmdSerial.tick CmdSerial.line h (i :: is) = none :: none :: (cmdFrame i.cmd).map some ++ [none] ∧
      ((i :: is).foldl CmdSerial.tick h).state = if i.setting.getLsbD 0 then .readWait else .finishWo := by
  obtain ⟨i₁, body, i₂, rfl, hbody⟩ := exists_ends hlen
  obtain ⟨hstate, hline, hholds, hidx, hrst, hcount, hval⟩ := CmdSerial.tick_start hs hi
  have hsend := CmdSerial.tick_setup (i := i₁) hstate hholds hidx hrst hcount
  have hstep : ∀ c h (i' : CmdSerialIn), c < 48 → Sending i.setting i.cmd c h → True →
      Sending i.setting i.cmd (c + 1) (h.tick i') := fun _ _ _ hc hw _ => hw.tick hc
  have hout : ∀ c h (i' : CmdSerialIn), c < 48 → Sending i.setting i.cmd c h → True →
      (h.tick i').line = some ((cmdFrame i.cmd)[c]?.getD true) := fun _ _ _ hc hw _ => hw.line_tick hc
  have hbits := outputs_phase hstep hout (by omega) hsend fun j (hj : j < body.length) => trivial
  have hlast := foldl_phase hstep body (by omega) hsend fun j (hj : j < body.length) => trivial
  rw [hbody] at hbits hlast
  obtain ⟨hline₂, hend⟩ := hlast.tick_end (i := i₂)
  constructor
  · rw [outputs, hline, outputs, CmdSerial.line_tick_setup hstate, hline, outputs_append, hbits,
      map_cmdFrame, outputs,
      hline₂]
    rfl
  · rw [List.foldl_cons, List.foldl_cons, List.foldl_append, List.foldl_cons, List.foldl_nil]
    split_ifs at hend ⊢
    · exact hend.state
    · exact hend.1

/-- The first command of all, `GO_IDLE_STATE`, from reset on. -/
theorem sends_go_idle :
    let quiet : CmdSerialIn := ⟨0b00#2, 0x4000000000#40, false, true⟩
    let h := (List.replicate 5 quiet).foldl CmdSerial.tick (default : CmdSerial).reset
    outputs CmdSerial.tick CmdSerial.line h ({ quiet with start := true } :: List.replicate 50 quiet)
        = none :: none :: (cmdFrame 0x4000000000#40).map some ++ [none] ∧
      (({ quiet with start := true } :: List.replicate 50 quiet).foldl CmdSerial.tick h).state = .finishWo :=
  sends (i := ⟨0b00#2, 0x4000000000#40, true, true⟩) rfl rfl (List.length_replicate ..)

/-- What a response leads to, however long it takes to come. -/
theorem receives (hw : Waiting setting cmd h) (hshape : Shape setting L s) (hr : r 0 = false)
    {quiet frame : List CmdSerialIn} (hquiet : ∀ i ∈ quiet, i.cmdDatReg = true) (hlen : frame.length = L + 9)
    (hframe : ∀ j (hj : j < frame.length), frame[j].cmdDatReg = r j) (last : CmdSerialIn) :
    Answered cmd r L s ((quiet ++ (frame ++ [last])).foldl CmdSerial.tick h) := by
  have hL : 8 ≤ L ∧ L ≤ 127 := by
    rcases hshape with ⟨-, rfl, -⟩ | ⟨-, rfl, -⟩ <;> omega
  have hwait : ∀ is : List CmdSerialIn, ∀ h, Waiting setting cmd h → (∀ i ∈ is, i.cmdDatReg = true) →
      Waiting setting cmd (is.foldl CmdSerial.tick h) := by
    intro is
    induction is with
    | nil => exact fun h hw _ => hw
    | cons i is ih =>
      exact fun h hw hi => ih _ (hw.tick (hi i List.mem_cons_self)) fun i' hi' =>
        hi i' (List.mem_cons_of_mem i hi')
  have hw := hwait quiet h hw hquiet
  obtain ⟨i₀, body, i₁, rfl, hbody⟩ := exists_ends hlen
  have hstart : Receiving setting cmd r L s 1 ((quiet.foldl CmdSerial.tick h).tick i₀) :=
    hw.tick_start (hframe 0 (by simp)) hr
  have hstep : ∀ c h (i : CmdSerialIn), c < L + 8 → (1 ≤ c ∧ Receiving setting cmd r L s c h) → i.cmdDatReg = r c →
      1 ≤ c + 1 ∧ Receiving setting cmd r L s (c + 1) (h.tick i) :=
    fun _ _ _ hc hw hi => ⟨by omega, hw.2.tick hshape hr hw.1 hc hi⟩
  have hrun := foldl_phase hstep body (by omega) ⟨by omega, hstart⟩ fun j hj => by
    have hbit := hframe (j + 1) (by simp; omega)
    rw [List.getElem_cons_succ, List.getElem_append_left hj] at hbit
    rw [hbit, Nat.add_comm]
  rw [hbody, show 1 + (L + 7) = L + 8 by omega] at hrun
  simp only [List.foldl_append, List.foldl_cons, List.foldl_nil]
  exact (hrun.2.tick_match hshape).tick hL.1 hL.2

/-- Bits that differ from those of a response with its code, in at most seven places next to each other. -/
theorem codeOk_burst {q : ℕ → Bool} {a n : ℕ} (hq : CodeOk q L s) (hs : s ≤ L + 1) (hn : n ≤ 7) (ha : s ≤ a)
    (hend : a + n ≤ L + 8) (hsame : ∀ j, ¬ (a ≤ j ∧ j < a + n) → r j = q j) : CodeOk r L s ↔ ∀ j, r j = q j := by
  have hlen : s + (L + 1 - s) = L + 1 := Nat.add_sub_cancel' hs
  rw [CodeOk, covered, ← hlen, Nat.add_sub_cancel_left] at hq ⊢
  exact frame_window (by decide) hq hsame hn ha (by omega)

/-- The verdict on a response that comes in with other bits in at most seven places next to each other. -/
theorem response_checked (hw : Waiting setting cmd h) (hshape : Shape setting L s) {q : ℕ → Bool}
    (hcode : CodeOk q L s)
    (hstart : q 0 = false) {a n : ℕ} (hn : n ≤ 7) (ha : 1 ≤ a) (hsa : s ≤ a) (hend : a + n ≤ L + 8)
    (hsame : ∀ j, ¬ (a ≤ j ∧ j < a + n) → r j = q j) {quiet frame : List CmdSerialIn} {last : CmdSerialIn}
    (hquiet : ∀ i ∈ quiet, i.cmdDatReg = true) (hlen : frame.length = L + 9)
    (hframe : ∀ j (hj : j < frame.length), frame[j].cmdDatReg = r j) :
    ((quiet ++ (frame ++ [last])).foldl CmdSerial.tick h).finish = true ∧
      (((quiet ++ (frame ++ [last])).foldl CmdSerial.tick h).crcOk = true ↔ ∀ j, r j = q j) := by
  have hr : r 0 = false := (hsame 0 (by omega)).trans hstart
  have hs : s ≤ L + 1 := by
    rcases hshape with ⟨-, rfl, rfl⟩ | ⟨-, rfl, rfl⟩ <;> omega
  have hans := receives hw hshape hr hquiet hlen hframe last
  refine ⟨hans.finish, ?_⟩
  rw [hans.crcOk, decide_eq_true_iff]
  exact codeOk_burst hcode hs hn hsa hend hsame

/-- A response to `SEND_RELATIVE_ADDR` with a bit of the address turned over. -/
theorem response_checked_address :
    let q : ℕ → Bool := fun j => (cmdFrame 0x0312340500#40)[j]?.getD true
    let r : ℕ → Bool := fun j => if j = 11 then !q j else q j
    let h : CmdSerial := { (default : CmdSerial) with
      state := .readWait, respLen := 39, withResponse := true, cmdBuff := 0x4300000000#40,
      finish := false, respIdx := 0 }
    let frame := (List.range 48).map fun j => (⟨0b01#2, 0x4300000000#40, false, r j⟩ : CmdSerialIn)
    let edges := [] ++ (frame ++ [⟨0b01#2, 0x4300000000#40, false, true⟩])
    (edges.foldl CmdSerial.tick h).finish = true ∧ ((edges.foldl CmdSerial.tick h).crcOk = true ↔
      ∀ j, r j = q j) := by
  intro q r h frame edges
  have hw : Waiting 0b01#2 0x4300000000#40 h := ⟨⟨rfl, rfl, rfl, rfl⟩, rfl, rfl⟩
  have hsame : ∀ j, ¬ (11 ≤ j ∧ j < 11 + 1) → r j = q j := by
    intro j hj
    exact if_neg (by omega)
  exact response_checked hw (.inl ⟨rfl, rfl, rfl⟩) (by decide +kernel) rfl (by omega) (by omega)
    (Nat.zero_le _) (by omega)
    hsame (List.forall_mem_nil _) rfl fun j hj => by simp [frame]

end Soceteer.Sdhost
