import Soceteer.Fesvr.DebugModule

/-!
# Soceteer.Fesvr.Dtm — target memory through the debug module

The memory half of `fesvr/dtm.cpp` and the parts of `dtm.hpp` it stands on: halting and resuming a hart, running an
abstract command, saving and restoring a register, and the three chunk transfers that `read` and `write` are made
of. The information the host thread has gathered about the target when it enters `run` (`rv_info_t`) is the
target's own.

* `CArray`: a C array of words, whose unassigned elements and bounds matter.
* `halt`, `resume`, `runAbstractCommand`, `saveReg`, `restoreReg`.
* `readChunk`, `writeChunk`, `clearChunk`, `read`, `write`.
-/

namespace Soceteer.Fesvr

open Soceteer.Lib

/-! ## C arrays -/

/-- An array of words; an element that has not been assigned has no value. -/
abbrev CArray := List (Option (BitVec 32))

namespace CArray

/-- `uint32_t a[n]`. -/
def declare (n : ℕ) : CArray := List.replicate n none

/-- `a[i]`. -/
def read (a : CArray) (i : ℕ) : Option (BitVec 32) := (a[i]?).join

/-- `a[i] = v`. -/
def store (a : CArray) (i : ℕ) (v : BitVec 32) : Option CArray :=
  if i < a.length then some (a.set i (some v)) else none

/-- `a[0] = ws[0]; a[1] = ws[1]; …`. -/
def assign (a : CArray) (ws : List (BitVec 32)) : Option CArray :=
  if ws.length ≤ a.length then some (ws.map some ++ a.drop ws.length) else none

/-- The bytes `memcpy(…, a, 4 * k)` copies. -/
def bytes (a : CArray) (k : ℕ) : Option (List UInt8) :=
  ((List.range k).mapM a.read).map fun ws => ws.flatMap fun w => leBytes 4 w.toNat

/-- `memcpy(a, src + off, 4 * k)`. -/
def fill (a : CArray) (src : List UInt8) (off k : ℕ) : Option CArray :=
  if off + 4 * k ≤ src.length then
    a.assign ((List.range k).map fun i => BitVec.ofNat 32 (leNat ((src.drop (off + 4 * i)).take 4)))
  else none

end CArray

/-- `memcpy(dst + dstOff, src + srcOff, n)`. -/
def memcpy (dst : List UInt8) (dstOff : ℕ) (src : List UInt8) (srcOff n : ℕ) : Option (List UInt8) :=
  if dstOff + n ≤ dst.length ∧ srcOff + n ≤ src.length then
    some (dst.take dstOff ++ (src.drop srcOff).take n ++ dst.drop (dstOff + n))
  else none

/-! ## `dtm.hpp` -/

variable {T : Target}

/-- Read `addr` until `done` holds of it. -/
def poll (addr : ℕ) (done : BitVec 32 → Bool) : Prog (Dm T) (BitVec 32) :=
  Prog.loop (fun _ => do
    let v ← readDtm addr
    pure (if done v then .inr v else .inl ())) ()

/-- `abstractcs` once the command has completed. -/
def waitAbstractcs : Prog (Dm T) (BitVec 32) := poll dmAbstractcs fun v => v &&& dmAbstractcsBusy = 0

def halt (hartsel : ℕ) : Prog (Dm T) Unit := do
  writeDtm dmDmcontrol dmDmcontrolDmactive
  let _ ← readDtm dmDmstatus
  let dmcontrol := setField (dmDmcontrolHaltreq ||| dmDmcontrolDmactive) dmDmcontrolHasel (BitVec.ofNat 32 hartsel)
  writeDtm dmDmcontrol dmcontrol
  let _ ← poll dmDmstatus fun v => getField v dmDmstatusAllhalted ≠ 0
  writeDtm dmDmcontrol (dmcontrol &&& ~~~dmDmcontrolHaltreq)
  let _ ← readDtm dmDmstatus
  pure ()

def resume (hartsel : ℕ) : Prog (Dm T) Unit := do
  let dmcontrol := setField (dmDmcontrolResumereq ||| dmDmcontrolDmactive) dmDmcontrolHasel
    (BitVec.ofNat 32 hartsel)
  writeDtm dmDmcontrol dmcontrol
  let _ ← poll dmDmstatus fun v => getField v dmDmstatusAllresumeack ≠ 0
  writeDtm dmDmcontrol (dmcontrol &&& ~~~dmDmcontrolResumereq)
  let _ ← readDtm dmDmstatus
  writeDtm dmDmcontrol dmDmcontrolDmactive
  let _ ← readDtm dmDmstatus
  pure ()

/-- `die`: the error is logged and cleared. -/
def die : Prog (Dm T) Unit := writeDtm dmAbstractcs dmAbstractcsCmderr

/-- `run_abstract_command`: the error, and the data array after the command. -/
def runAbstractCommand (command : BitVec 32) (program : CArray) (programN : ℕ) (data : CArray) (dataN : ℕ)
    (logError : Bool) : Prog (Dm T) (BitVec 32 × CArray) := do
  Prog.guard (programN ≤ T.progbufsize)
  Prog.guard (dataN ≤ T.datacount)
  Prog.forFrom (fun i _ => do
    let w ← Prog.lift (program.read i)
    writeDtm (dmProgbuf0 + i) w) 0 programN ()
  let write := getField command acAccessRegisterWrite
  let transfer := getField command acAccessRegisterTransfer
  Prog.forFrom (fun i _ => do
    let w ← Prog.lift (data.read i)
    writeDtm (dmData0 + i) w) 0 (if write ≠ 0 ∧ transfer ≠ 0 then dataN else 0) ()
  writeDtm dmCommand command
  let abstractcs ← waitAbstractcs
  let data ← Prog.forFrom (fun i (data : CArray) => do
    let w ← readDtm (dmData0 + i)
    Prog.lift (data.store i w)) 0 (if write = 0 ∧ transfer ≠ 0 then dataN else 0) data
  let err := getField abstractcs dmAbstractcsCmderr
  if err ≠ 0 ∧ logError then die else pure ()
  pure (err, data)

/-- The two halves of a value, as many as a register has. -/
def halves (X : Xlen) (v : BitVec 64) : List (BitVec 32) :=
  if X.bits > 32 then [v.setWidth 32, (v >>> 32).setWidth 32] else [v.setWidth 32]

def saveReg (regno : BitVec 32) : Prog (Dm T) (BitVec 64) := do
  let xlen := T.xlen.bits
  let command := acAccessRegisterTransfer ||| rvAcArSize xlen ||| rvAcArRegno regno
  let (_, data) ← runAbstractCommand command [] 0 (CArray.declare (xlen / (8 * 4))) (xlen / (8 * 4)) true
  let lo ← Prog.lift (data.read 0)
  if xlen > 32 then do
    let hi ← Prog.lift (data.read 1)
    pure (lo.setWidth 64 ||| (hi.setWidth 64 <<< 32))
  else pure (lo.setWidth 64)

def restoreReg (regno : BitVec 32) (val : BitVec 64) : Prog (Dm T) Unit := do
  let xlen := T.xlen.bits
  let data ← Prog.lift ((CArray.declare (xlen / (8 * 4))).assign (halves T.xlen val))
  let command := acAccessRegisterTransfer ||| acAccessRegisterWrite ||| rvAcArSize xlen ||| rvAcArRegno regno
  let _ ← runAbstractCommand command [] 0 data (xlen / (8 * 4)) true
  pure ()

/-! ## `dtm.cpp`: chunks -/

/-- The number of registers' worth of words in a chunk, in the arithmetic of `size_t`. -/
def chunkWords (X : Xlen) (len : ℕ) : ℕ := len * 8 % 2 ^ 64 / X.bits

/-- `read_chunk`: the bytes it copies to its destination. -/
def readChunk (hart : ℕ) (taddr : BitVec 64) (len : ℕ) : Prog (Dm T) (List UInt8) := do
  let xlen := T.xlen.bits
  let xlenWords := xlen / 32
  halt hart
  let s0 ← saveReg rvS0
  let s1 ← saveReg rvS1
  let prog ← Prog.lift ((CArray.declare T.progbufsize).assign
    [rvLoad xlen rvS1 rvS0 0, rvAddi rvS0 rvS0 (xlen / 8 : ℕ), matchEbreak])
  let data ← Prog.lift ((CArray.declare T.datacount).assign (halves T.xlen taddr))
  let (_, data) ← runAbstractCommand (acAccessRegisterTransfer ||| acAccessRegisterWrite |||
    acAccessRegisterPostexec |||
    rvAcArSize xlen ||| rvAcArRegno rvS0) prog 3 data xlenWords true
  let n := chunkWords T.xlen len
  let (_, dst) ← Prog.forFrom (fun i (st : CArray × List UInt8) => do
    let command := acAccessRegisterTransfer ||| rvAcArSize xlen ||| rvAcArRegno rvS1
    let command := if i + 1 < n then command ||| acAccessRegisterPostexec else command
    let (_, data) ← runAbstractCommand command [] 0 st.1 xlenWords true
    let word ← Prog.lift (data.bytes xlenWords)
    pure (data, st.2 ++ word)) 0 n (data, [])
  restoreReg rvS0 s0
  restoreReg rvS1 s1
  resume hart
  pure dst

/-- Hand a word to the armed command of `write_chunk` and wait for it. -/
def autoexecWord (data : CArray) : Prog (Dm T) Unit := do
  if T.xlen.bits = 64 then do
    let hi ← Prog.lift (data.read 1)
    writeDtm (dmData0 + 1) hi
  else pure ()
  let lo ← Prog.lift (data.read 0)
  writeDtm dmData0 lo
  let abstractcs ← waitAbstractcs
  if getField abstractcs dmAbstractcsCmderr ≠ 0 then die else pure ()

/-- One word of `write_chunk` after the first. -/
def writeChunkWord (src : List UInt8) (i : ℕ) (data : CArray) : Prog (Dm T) CArray := do
  if i = 1 then writeDtm dmAbstractauto 1 else pure ()
  let data ← Prog.lift (data.fill src (i * (T.xlen.bits / 8)) (T.xlen.bits / 32))
  autoexecWord data
  pure data

/-- `write_chunk`. -/
def writeChunk (hart : ℕ) (taddr : BitVec 64) (len : ℕ) (src : List UInt8) : Prog (Dm T) Unit := do
  let xlen := T.xlen.bits
  let xlenWords := xlen / 32
  halt hart
  let s0 ← saveReg rvS0
  let s1 ← saveReg rvS1
  let prog ← Prog.lift ((CArray.declare T.progbufsize).assign
    [rvStore xlen rvS1 rvS0 0, rvAddi rvS0 rvS0 (xlen / 8 : ℕ), matchEbreak])
  let data ← Prog.lift ((CArray.declare T.datacount).assign (halves T.xlen taddr))
  let (_, data) ← runAbstractCommand (acAccessRegisterTransfer ||| acAccessRegisterWrite ||| rvAcArSize xlen |||
    rvAcArRegno rvS0) prog 3 data xlenWords true
  let data ← Prog.lift (data.fill src 0 xlenWords)
  let (_, data) ← runAbstractCommand (acAccessRegisterTransfer ||| acAccessRegisterPostexec |||
    acAccessRegisterWrite |||
    rvAcArSize xlen ||| rvAcArRegno rvS1) [] 0 data xlenWords true
  let n := chunkWords T.xlen len
  let _ ← Prog.forFrom (writeChunkWord src) 1 (n - 1) data
  if n > 1 then writeDtm dmAbstractauto 0 else pure ()
  restoreReg rvS0 s0
  restoreReg rvS1 s1
  resume hart
  pure ()

/-- `clear_chunk`.  Both halves of an address are assigned at either register width. -/
def clearChunk (hart : ℕ) (taddr : BitVec 64) (len : ℕ) : Prog (Dm T) Unit := do
  let xlen := T.xlen.bits
  let xlenWords := xlen / 32
  halt hart
  let s0 ← saveReg rvS0
  let s1 ← saveReg rvS1
  let data ← Prog.lift ((CArray.declare T.datacount).assign [taddr.setWidth 32, (taddr >>> 32).setWidth 32])
  let (_, data) ← runAbstractCommand (acAccessRegisterTransfer ||| acAccessRegisterWrite ||| rvAcArSize xlen |||
    rvAcArRegno rvS0) [] 0 data xlenWords true
  let prog ← Prog.lift ((CArray.declare T.progbufsize).assign
    [rvStore xlen rvX0 rvS0 0, rvAddi rvS0 rvS0 (xlen / 8 : ℕ), rvBne rvS0 rvS1 (0 * 4) (2 * 4), matchEbreak])
  let stop := taddr + BitVec.ofNat 64 len
  let data ← Prog.lift (data.assign [stop.setWidth 32, (stop >>> 32).setWidth 32])
  let _ ← runAbstractCommand (acAccessRegisterTransfer ||| acAccessRegisterWrite ||| rvAcArSize xlen |||
    rvAcArRegno rvS1 ||| acAccessRegisterPostexec) prog 4 data xlenWords true
  restoreReg rvS0 s0
  restoreReg rvS1 s1
  resume hart
  pure ()

/-! ## `dtm.cpp`: `read` and `write` -/

/-- What is left of a transfer: the offset of the buffer pointer, the target address, and the length. -/
structure Rest where
  off : ℕ
  addr : BitVec 64
  len : ℕ

/-- `chunk_align() - 1`. -/
def alignMask (X : Xlen) : BitVec 64 := BitVec.ofNat 64 (X.bits / 8 - 1)

/-- The partly covered first word of `read`. -/
def readHead (hart : ℕ) (addr : BitVec 64) (len : ℕ) (bytes : List UInt8) : Prog (Dm T) (List UInt8 × Rest) :=
  let align := T.xlen.bits / 8
  let mask := alignMask T.xlen
  if len ≠ 0 ∧ addr &&& mask ≠ 0 then do
    let thisLen := min len ((BitVec.ofNat 64 align - addr) &&& mask).toNat
    let chunk ← readChunk hart (addr &&& ~~~mask) align
    let bytes ← Prog.lift (memcpy bytes 0 chunk (addr &&& mask).toNat thisLen)
    pure (bytes, ⟨thisLen, addr + BitVec.ofNat 64 thisLen, len - thisLen⟩)
  else pure (bytes, ⟨0, addr, len⟩)

/-- The partly covered last word of `read`. -/
def readTail (hart : ℕ) (r : Rest) (bytes : List UInt8) : Prog (Dm T) (List UInt8 × Rest) :=
  let align := T.xlen.bits / 8
  if r.len &&& (align - 1) ≠ 0 then do
    let thisLen := r.len &&& (align - 1)
    let start := r.len - thisLen
    let chunk ← readChunk hart (r.addr + BitVec.ofNat 64 start) align
    let bytes ← Prog.lift (memcpy bytes (r.off + start) chunk 0 thisLen)
    pure (bytes, { r with len := r.len - thisLen })
  else pure (bytes, r)

/-- The whole words of `read`, a chunk at a time. -/
def readMiddle (hart chunkMaxSize : ℕ) (r : Rest) (bytes : List UInt8) : Prog (Dm T) (List UInt8) :=
  Prog.loop (fun (st : ℕ × List UInt8) =>
    if st.1 < r.len then do
      let chunk ← readChunk hart (r.addr + BitVec.ofNat 64 st.1) (min chunkMaxSize (r.len - st.1))
      let bytes ← Prog.lift (memcpy st.2 (r.off + st.1) chunk 0 chunk.length)
      pure (.inl ((st.1 + chunkMaxSize) % 2 ^ 64, bytes))
    else pure (.inr st.2)) (0, bytes)

/-- `read`: the destination buffer after it. -/
def read (hart chunkMaxSize : ℕ) (addr : BitVec 64) (len : ℕ) (bytes : List UInt8) : Prog (Dm T) (List UInt8) := do
  let (bytes, r) ← readHead hart addr len bytes
  let (bytes, r) ← readTail hart r bytes
  readMiddle hart chunkMaxSize r bytes

/-- The partly covered first word of `write`. -/
def writeHead (hart : ℕ) (addr : BitVec 64) (len : ℕ) (bytes : List UInt8) : Prog (Dm T) Rest :=
  let align := T.xlen.bits / 8
  let mask := alignMask T.xlen
  if len ≠ 0 ∧ addr &&& mask ≠ 0 then do
    let thisLen := min len (align - (addr &&& mask).toNat)
    let chunk ← readChunk hart (addr &&& ~~~mask) align
    let chunk ← Prog.lift (memcpy chunk (addr &&& mask).toNat bytes 0 thisLen)
    writeChunk hart (addr &&& ~~~mask) align chunk
    pure ⟨thisLen, addr + BitVec.ofNat 64 thisLen, len - thisLen⟩
  else pure ⟨0, addr, len⟩

/-- The partly covered last word of `write`. -/
def writeTail (hart : ℕ) (r : Rest) (bytes : List UInt8) : Prog (Dm T) Rest :=
  let align := T.xlen.bits / 8
  if r.len &&& (align - 1) ≠ 0 then do
    let thisLen := r.len &&& (align - 1)
    let start := r.len - thisLen
    let chunk ← readChunk hart (r.addr + BitVec.ofNat 64 start) align
    let chunk ← Prog.lift (memcpy chunk 0 bytes (r.off + start) thisLen)
    writeChunk hart (r.addr + BitVec.ofNat 64 start) align chunk
    pure { r with len := r.len - thisLen }
  else pure r

/-- `all_zero`. -/
def allZero (r : Rest) (bytes : List UInt8) : Bool := r.len ≠ 0 && ((bytes.drop r.off).take r.len).all (· == 0)

/-- The whole words of `write`, a chunk at a time. -/
def writeMiddle (hart chunkMaxSize : ℕ) (r : Rest) (bytes : List UInt8) : Prog (Dm T) Unit :=
  Prog.loop (fun (pos : ℕ) =>
    if pos < r.len then do
      writeChunk hart (r.addr + BitVec.ofNat 64 pos) (min chunkMaxSize (r.len - pos)) (bytes.drop (r.off + pos))
      pure (.inl ((pos + chunkMaxSize) % 2 ^ 64))
    else pure (.inr ())) 0

/-- `write`. -/
def write (hart chunkMaxSize : ℕ) (addr : BitVec 64) (len : ℕ) (bytes : List UInt8) : Prog (Dm T) Unit := do
  let r ← writeHead hart addr len bytes
  let r ← writeTail hart r bytes
  if allZero r bytes then clearChunk hart r.addr r.len
  else writeMiddle hart chunkMaxSize r bytes

end Soceteer.Fesvr
