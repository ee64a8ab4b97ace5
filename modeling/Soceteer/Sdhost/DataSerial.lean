import Soceteer.Sdhost.CmdSerial

/-!
# Soceteer.Sdhost.DataSerial — the data lines

`sd_data_serial_host` moves blocks over one or four data lines, each with a code of its own behind a block.  What
follows is the block of registers from one enabled edge to the next.

* `DataSerial`, `DataSerial.tick`: the registers and an enabled edge.
* `lanes`, `unitBits`: the lines in use, and the bits they carry in one edge, in the order of the bytes.
-/

namespace Soceteer.Sdhost

open Lib Crc

inductive DataSerialState
  | idle
  | writeDat
  | writeWait
  | writeDrt
  | writeBusy
  | readWait
  | readDat
deriving DecidableEq, Inhabited

/-- The registers of `sd_data_serial_host`, those of the four `sd_crc_16` included; `DAT_dat_reg` is an input of
the edge. -/
structure DataSerial where
  bus4bitReg : Bool
  crcEn : Bool
  crcRst : Bool
  crcOut : Fin 4 → BitVec 16
  dataCycles : ℕ
  transfCnt : ℕ
  drtBit : BitVec 4
  drtReg : BitVec 4
  blkcntReg : BitVec 16
  byteAlignmentReg : BitVec 2
  crcBit : BitVec 4
  lastDin : BitVec 4
  dataIndex : BitVec 5
  state : DataSerialState
  rd : Bool
  we : Bool
  dataOut : BitVec 32
  datOe : Bool
  datO : BitVec 4
  crcOk : Bool
deriving Inhabited

/-- What an enabled edge reads. -/
structure DataSerialIn where
  dataIn : BitVec 32
  datReg : BitVec 4
  blksize : BitVec 12
  bus4bit : Bool
  blkcnt : BitVec 16
  start : BitVec 2
  byteAlignment : BitVec 2

/-- `reset` -/
def DataSerial.reset (h : DataSerial) : DataSerial :=
  { h with
    state := .idle, datOe := false, crcEn := false, crcRst := true, transfCnt := 0, rd := false, lastDin := 0#4,
    crcBit := 0#4, datO := 0xf#4, drtBit := 0#4, drtReg := 0#4, we := false, dataOut := 0#32, crcOk := false,
    dataIndex := 0#5, blkcntReg := 0#16, byteAlignmentReg := 0#2, dataCycles := 0, bus4bitReg := false }

/-- `data_cycles`: the edges a block takes on the lines, its code apart. `blksize` is one less than the length in
bytes. -/
def dataCyclesOf (bus4bit : Bool) (blksize : BitVec 12) : ℕ :=
  if bus4bit then 2 * blksize.toNat + 2 else 8 * blksize.toNat + 8

/-- `byte_alignment_reg << 1` or `<< 3` -/
def indexOf (bus4bit : Bool) (byteAlignment : BitVec 2) : BitVec 5 :=
  BitVec.ofNat 5 (if bus4bit then 2 * byteAlignment.toNat else 8 * byteAlignment.toNat)

/-- There is a lowest line. -/
scoped instance neZero_lines : NeZero 4 := ⟨by decide⟩

/-- Four lines, the highest first. -/
def quad (f : Fin 4 → Bool) : BitVec 4 := BitVec.ofBoolListBE [f 3, f 2, f 1, f 0]

theorem getLsbD_quad (f : Fin 4 → Bool) (j : Fin 4) : (quad f).getLsbD j = f j := by
  have hpos : (j : ℕ) = 4 - 1 - (3 - j) := by omega
  rw [hpos, getLsbD_rev (by omega), quad, BitVec.getMsbD_ofBoolListBE]
  match j with
  | 0 => rfl
  | 1 => rfl
  | 2 => rfl
  | 3 => rfl

/-- One bit, with the other lines high. -/
def single (b : Bool) : BitVec 4 := quad fun j => if j = 0 then b else true

theorem getLsbD_single (b : Bool) : (single b).getLsbD 0 = b := getLsbD_quad (fun j => if j = 0 then b else true) 0

/-- The four bits of a word from bit `hi` down, or one bit of it. -/
def unitAt (bus4bit : Bool) (word : BitVec 32) (hi : ℕ) : BitVec 4 :=
  if bus4bit then quad fun j => word.getLsbD (hi - (3 - j)) else single (word.getLsbD hi)

/-- The lines in use. -/
def lanes (bus4bit : Bool) : List (Fin 4) := if bus4bit then [3, 2, 1, 0] else [0]

/-- `WRITE_DAT` -/
def DataSerial.writeDat (h : DataSerial) (i : DataSerialIn) : DataSerial :=
  let h' := { h with rd := false, transfCnt := h.transfCnt + 1 }
  if h.transfCnt = 0 then { h' with crcOk := false, crcBit := 15#4 }
  else if h.transfCnt = 1 then
    { h' with
      crcRst := false, crcEn := true, lastDin := unitAt h.bus4bitReg i.dataIn (31 - 8 * h.byteAlignmentReg.toNat),
      datOe := true, datO := if h.bus4bitReg then 0x0#4 else 0xe#4,
      dataIndex := indexOf h.bus4bitReg h.byteAlignmentReg + 1 }
  else if h.transfCnt ≤ h.dataCycles + 1 then
    let h' :=
      if h.bus4bitReg then
        { h' with
          lastDin := unitAt true i.dataIn (31 - 4 * (h.dataIndex.toNat % 8)),
          rd := h.dataIndex.toNat % 8 = 6 ∧ h.transfCnt ≤ h.dataCycles - 1 }
      else { h' with lastDin := unitAt false i.dataIn (31 - h.dataIndex.toNat), rd := h.dataIndex = 30#5 }
    let h' := { h' with dataIndex := h.dataIndex + 1, datO := h.lastDin }
    if h.transfCnt = h.dataCycles + 1 then { h' with crcEn := false } else h'
  else if h.transfCnt ≤ h.dataCycles + 17 then
    let bit := fun i : Fin 4 => (h.crcOut i).getLsbD h.crcBit.toNat
    { h' with
      crcEn := false, crcBit := h.crcBit - 1,
      datO :=
        if h.bus4bitReg then quad bit else quad fun j => if j = 0 then bit 0 else h.datO.getLsbD j }
  else if h.transfCnt = h.dataCycles + 18 then { h' with datO := 0xf#4 }
  else if h.transfCnt = h.dataCycles + 19 then { h' with datOe := false }
  else { h' with state := .writeWait }

/-- `READ_DAT` -/
def DataSerial.readDat (h : DataSerial) (i : DataSerialIn) : DataSerial :=
  let h' := { h with lastDin := i.datReg, transfCnt := h.transfCnt + 1 }
  if h.transfCnt < h.dataCycles then
    let last := h.transfCnt = h.dataCycles - 1 ∧ h.blkcntReg = 0#16
    let h' :=
      if h.bus4bitReg then
        let hi := 31 - 4 * (h.dataIndex.toNat % 8)
        { h' with
          we := h.dataIndex.toNat % 8 = 7 ∨ last
          dataOut := setBit (setBit (setBit (setBit h.dataOut hi (i.datReg.getLsbD 3))
            (hi - 1) (i.datReg.getLsbD 2)) (hi - 2) (i.datReg.getLsbD 1)) (hi - 3) (i.datReg.getLsbD 0) }
      else
        { h' with
          we := h.dataIndex = 31#5 ∨ last
          dataOut := setBit h.dataOut (31 - h.dataIndex.toNat) (i.datReg.getLsbD 0) }
    { h' with dataIndex := h.dataIndex + 1, crcOk := true }
  else if h.transfCnt = h.dataCycles then { h' with crcEn := false, we := false }
  else if h.transfCnt ≤ h.dataCycles + 16 then
    let h' :=
      if ∃ j ∈ lanes h.bus4bitReg,
        (h.crcOut j).getLsbD h.crcBit.toNat ≠ h.lastDin.getLsbD j then { h' with crcOk := false }
      else h'
    if h.crcBit = 0#4 then
      { h' with byteAlignmentReg := h.byteAlignmentReg + i.blksize.extractLsb' 0 2 + 1#2, crcRst := true }
    else { h' with crcBit := h.crcBit - 1 }
  else if h.blkcntReg ≠ 0#16 ∧ h.crcOk then { h' with blkcntReg := h.blkcntReg - 1, state := .readWait }
  else { h' with state := .idle }

/-- The case statement, without the codes. -/
def DataSerial.next (h : DataSerial) (i : DataSerialIn) : DataSerial :=
  match h.state with
  | .idle =>
    { h with
      datOe := false, datO := 0xf#4, transfCnt := 0, crcEn := false, crcRst := true, crcBit := 15#4,
      we := false, rd := false,
      dataIndex := 0#5, blkcntReg := i.blkcnt, byteAlignmentReg := i.byteAlignment,
      dataCycles := dataCyclesOf i.bus4bit i.blksize, bus4bitReg := i.bus4bit,
      state := if i.start = 0b01#2 then .writeDat else if i.start = 0b10#2 then .readWait else .idle }
  | .writeDat => h.writeDat i
  | .writeWait => { h with drtBit := 0#4, state := if i.datReg.getLsbD 0 then .writeWait else .writeDrt }
  | .writeDrt =>
    let h' :=
      if h.drtBit ≤ 3#4 then { h with drtReg := setBit h.drtReg h.drtBit.toNat (i.datReg.getLsbD 0) }
      else if h.drtBit = 15#4 then { h with crcOk := h.drtReg = 0b1010#4, state := .writeBusy }
      else h
    { h' with drtBit := h.drtBit + 1 }
  | .writeBusy =>
    if i.datReg.getLsbD 0 then
      if h.blkcntReg ≠ 0#16 ∧ h.crcOk then
        { h with
          transfCnt := 0, blkcntReg := h.blkcntReg - 1, crcRst := true, state := .writeDat,
          byteAlignmentReg := h.byteAlignmentReg + i.blksize.extractLsb' 0 2 + 1#2 }
      else { h with state := .idle }
    else h
  | .readWait =>
    let h' := { h with
      datOe := false, crcBit := 15#4, lastDin := 0#4, transfCnt := 0,
      dataIndex := indexOf h.bus4bitReg h.byteAlignmentReg }
    if i.datReg.getLsbD 0 then h' else { h' with crcRst := false, crcEn := true, state := .readDat }
  | .readDat => h.readDat i

/-- An enabled edge. `start = 2'b11` aborts; the codes are cleared on an edge that finds `crc_rst` up. -/
def DataSerial.tick (h : DataSerial) (i : DataSerialIn) : DataSerial :=
  let h' := h.next i
  { h' with
    crcOut := fun j =>
      if h.crcRst then 0#16 else if h.crcEn then sdCrc16 (h.crcOut j) (h.lastDin.getLsbD j) else h.crcOut j
    state := if i.start = 0b11#2 then .idle else h'.state }

/-- What the lines carry: a bit each, or nothing when the block does not drive them. -/
def DataSerial.lines (h : DataSerial) : Option (BitVec 4) := if h.datOe then some h.datO else none

end Soceteer.Sdhost
