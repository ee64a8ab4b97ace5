import Soceteer.Lib.Jvm
import Soceteer.Lib.Rtl

/-!
# Soceteer.MemGen.Emit — the memories `SOCTMemGen` emits

`SOCTMemGen.emit` re-emits every extracted SRAM as sub-arrays of at most four mask lanes.  The emitted text is the
module `emit m` of `Lib.Rtl`, item by item; `Memory` is what the text stands for, one `depth × width` memory.

* `MemDesc`: a memory description.
* `emit`: sub-arrays, registered reads and lane writes of the module.
* `Memory.step`: one clock edge of a plain memory with per-lane masked or whole-word writes and registered reads.
-/

namespace Soceteer.MemGen

open Bits Jvm Rtl

/-! ## Memory descriptions -/

/-- The port kinds of a ReplSeqMem conf. -/
inductive PortKind
  | rw
  | mrw
  | read
  | write
  | mwrite
deriving DecidableEq

/-- `writingKinds`. -/
def PortKind.writing : PortKind → Bool
  | .read => false
  | _ => true

/-- The kinds that declare a mask. -/
def PortKind.masked : PortKind → Bool
  | .mrw | .mwrite => true
  | _ => false

/-- `MemDesc`; `depth` is a `BigInt`, `width` and `maskGran` are `Int`s. -/
structure MemDesc where
  name : List Char
  depth : ℤ
  width : ℤ
  ports : List PortKind
  maskGran : Option ℤ
deriving DecidableEq

namespace MemDesc

/-- Bits per independently written lane. -/
def gran (m : MemDesc) : ℤ := m.maskGran.getD m.width

/-- Number of lanes, an `Int` quotient. -/
def lanes (m : MemDesc) : ℤ := toInt32 (m.width.tdiv m.gran)

end MemDesc

/-- `addrBits`: enough bits to index `depth` entries, at least one. -/
def addrBits (depth : ℤ) : ℤ := max (bitLength (depth - 1)) 1

/-! ## The emitted module -/

/-- Port name families of firtool's extern memories. -/
inductive Family
  | R
  | W
  | RW
deriving DecidableEq

/-- A port prefix, `R0`, `W0`, `RW0`. -/
structure Prefix where
  family : Family
  idx : ℕ
deriving DecidableEq

inductive Field
  | addr
  | en
  | clk
  | data
  | mask
  | wmode
  | wdata
  | rdata
  | wmask
deriving DecidableEq

/-- The names of an emitted module. -/
inductive Name
  /-- `<p>_<f>` -/
  | port (p : Prefix) (f : Field)
  /-- `mem_<gi>` -/
  | mem (gi : ℕ)
  /-- `<p>_<f>_<gi>` -/
  | lane (p : Prefix) (f : Field) (gi : ℕ)
deriving DecidableEq

/-- Every port gets its firtool prefix, counted per family. -/
def assignPrefixes : ℕ → ℕ → ℕ → List PortKind → List (PortKind × Prefix)
  | _, _, _, [] => []
  | r, wr, rw, .read :: ks => (.read, ⟨.R, r⟩) :: assignPrefixes (r + 1) wr rw ks
  | r, wr, rw, .write :: ks => (.write, ⟨.W, wr⟩) :: assignPrefixes r (wr + 1) rw ks
  | r, wr, rw, .mwrite :: ks => (.mwrite, ⟨.W, wr⟩) :: assignPrefixes r (wr + 1) rw ks
  | r, wr, rw, .rw :: ks => (.rw, ⟨.RW, rw⟩) :: assignPrefixes r wr (rw + 1) ks
  | r, wr, rw, .mrw :: ks => (.mrw, ⟨.RW, rw⟩) :: assignPrefixes r wr (rw + 1) ks

def prefixed (m : MemDesc) : List (PortKind × Prefix) := assignPrefixes 0 0 0 m.ports

def maxLanesPerArray : ℕ := 4

/-- Contiguous lane groups with their sub-array index. -/
def groups (m : MemDesc) : List (List ℕ × ℕ) := (grouped maxLanesPerArray (List.range m.lanes.toNat)).zipIdx

section

variable (m : MemDesc)

/-- The declarations of one port. -/
def portDecls : PortKind × Prefix → List (PortDecl Name)
  | (kind, p) =>
    let a := addrBits m.depth - 1
    let w := m.width - 1
    let common : List (PortDecl Name) :=
      [⟨.input, some a, .port p .addr⟩, ⟨.input, none, .port p .en⟩, ⟨.input, none, .port p .clk⟩]
    match kind with
    | .read => common ++ [⟨.output, some w, .port p .data⟩]
    | .write => common ++ [⟨.input, some w, .port p .data⟩]
    | .mwrite => common ++ [⟨.input, some w, .port p .data⟩, ⟨.input, some (m.lanes - 1), .port p .mask⟩]
    | .rw => common ++ [⟨.input, none, .port p .wmode⟩, ⟨.input, some w, .port p .wdata⟩,
        ⟨.output, some w, .port p .rdata⟩]
    | .mrw => common ++ [⟨.input, none, .port p .wmode⟩, ⟨.input, some w, .port p .wdata⟩,
        ⟨.output, some w, .port p .rdata⟩, ⟨.input, some (m.lanes - 1), .port p .wmask⟩]

def gwHi (grp : List ℕ) : ℤ := grp.length * m.gran - 1

/-- The group's slice of the data word. -/
def wordSlice (grp : List ℕ) : Select := .bits ((grp.getLastD 0 + 1) * m.gran - 1) (grp.headD 0 * m.gran)

/-- Lane `l`'s slice within its sub-array. -/
def laneLocal (l : ℕ) (grp : List ℕ) : Select := .part ((l - grp.headD 0) * m.gran) m.gran

/-- Lane `l`'s slice of the data word. -/
def laneWord (l : ℕ) : Select := .part (l * m.gran) m.gran

/-- Per-lane masked writes, or one whole-array write when the memory is unmasked. -/
def writeBody (p : Prefix) (grp : List ℕ) (gi : ℕ) (dataSig maskSig : Field) : Stmt Name :=
  if m.maskGran.isNone then .store (.mem gi) (.port p .addr) none (.port p dataSig) (wordSlice m grp)
  else Stmt.block (grp.map fun l => .cond (.port p maskSig) l
    (.store (.mem gi) (.port p .addr) (some (laneLocal m l grp)) (.port p dataSig) (laneWord m l)) .skip)

/-- The logic of one port on one sub-array. -/
def portLogic : PortKind × Prefix → List ℕ × ℕ → List (Item Name)
  | (.read, p), (grp, gi) =>
    [.reg (.lane p .data gi) (gwHi m grp),
      .always (.port p .clk)
        (.cond (.port p .en) 0 (.load (.lane p .data gi) (.mem gi) (.port p .addr)) .skip),
      .assign (.port p .data) (wordSlice m grp) (.lane p .data gi)]
  | (.write, p), (grp, gi) | (.mwrite, p), (grp, gi) =>
    [.always (.port p .clk) (.cond (.port p .en) 0 (writeBody m p grp gi .data .mask) .skip)]
  | (.rw, p), (grp, gi) | (.mrw, p), (grp, gi) =>
    [.reg (.lane p .rdata gi) (gwHi m grp),
      .always (.port p .clk)
        (.cond (.port p .en) 0
          (.cond (.port p .wmode) 0 (writeBody m p grp gi .wdata .wmask)
            (.load (.lane p .rdata gi) (.mem gi) (.port p .addr)))
          .skip),
      .assign (.port p .rdata) (wordSlice m grp) (.lane p .rdata gi)]

/-- `SOCTMemGen.emit`. -/
def emit : Module Name where
  ports := (prefixed m).flatMap (portDecls m)
  arrays := (groups m).map fun g => ⟨.mem g.2, gwHi m g.1, m.depth - 1⟩
  items := (prefixed m).flatMap fun kp => (groups m).flatMap (portLogic m kp)

end

/-! ## The plain memory -/

/-- One memory of words; `rdata` holds the word of every read port. -/
structure Memory where
  cells : ℕ → ℕ
  rdata : Name → ℕ

/-- A word with every lane of the mask replaced by the new data's. -/
def writeLanes (gran lanes : ℕ) (mask old data : ℕ) : ℕ :=
  (List.range lanes).foldl
    (fun w l => if mask.testBit l then setSlice w (l * gran) gran (slice data (l * gran) gran) else w) old

namespace Memory

/-- The port's clock rises and the port is enabled. -/
def active (e : Edge Name) (p : Prefix) : Bool := e.posedge (.port p .clk) && (e.input (.port p .en)).testBit 0

/-- A read-write port is in write mode. -/
def writeMode (e : Edge Name) (p : Prefix) : Bool := (e.input (.port p .wmode)).testBit 0

/-- The word a port writes at the addressed cell, `none` if it does not write on this edge. -/
def written (gran lanes : ℕ) (e : Edge Name) (old : ℕ) : PortKind × Prefix → Option ℕ
  | (kind, p) =>
    if active e p then
      match kind with
      | .read => none
      | .write => some (slice (e.input (.port p .data)) 0 (lanes * gran))
      | .mwrite => some (writeLanes gran lanes (e.input (.port p .mask)) old (e.input (.port p .data)))
      | .rw => if writeMode e p then some (slice (e.input (.port p .wdata)) 0 (lanes * gran)) else none
      | .mrw => if writeMode e p
          then some (writeLanes gran lanes (e.input (.port p .wmask)) old (e.input (.port p .wdata))) else none
    else none

/-- The output a port loads on this edge. -/
def reads (e : Edge Name) : PortKind × Prefix → Option Name
  | (kind, p) =>
    if active e p then
      match kind with
      | .read => some (.port p .data)
      | .write | .mwrite => none
      | .rw | .mrw => if writeMode e p then none else some (.port p .rdata)
    else none

/-- The write of one port. -/
def writePort (gran lanes : ℕ) (e : Edge Name) (cells : ℕ → ℕ) (kp : PortKind × Prefix) : ℕ → ℕ :=
  let a := e.input (.port kp.2 .addr)
  match written gran lanes e (cells a) kp with
  | some v => Function.update cells a v
  | none => cells

/-- The registered read of one port, out of the cells before the edge. -/
def readPort (e : Edge Name) (cells : ℕ → ℕ) (rdata : Name → ℕ) (kp : PortKind × Prefix) : Name → ℕ :=
  match reads e kp with
  | some out => Function.update rdata out (cells (e.input (.port kp.2 .addr)))
  | none => rdata

/-- One clock edge: enabled ports in read mode register the addressed word, enabled writing ports write it. -/
def step (ports : List (PortKind × Prefix)) (gran lanes : ℕ) (μ : Memory) (e : Edge Name) : Memory where
  cells := ports.foldl (writePort gran lanes e) μ.cells
  rdata := ports.foldl (readPort e μ.cells) μ.rdata

def run (ports : List (PortKind × Prefix)) (gran lanes : ℕ) (μ : Memory) (es : List (Edge Name)) : Memory :=
  es.foldl (step ports gran lanes) μ

end Memory

end Soceteer.MemGen
