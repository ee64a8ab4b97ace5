import Mathlib.Data.Int.Notation
import Mathlib.Data.Nat.Notation
import Mathlib.Order.Basic

/-!
# Soceteer.Glue.Dtb — the device tree as `soctglue` reads it

The tree that `smoldtb` has parsed, and the readers that `soct_ram_end` and `soct_n_harts` call.

* `DtbProp`, `DtbNode`: the tree; the lists are in the order of the links, which is not the order of the blob.
* `dtbFind`, `dtbFindProp`, `dtbReadPropString`, `dtbReadProp1`, `dtbReadProp2`: the readers.
* `memoryRanges`, `nHarts`: the scans of `soctglue.c` over the tree.
-/

namespace Soceteer.Glue

/-- A C string, without its final zero. -/
abbrev CStr := List UInt8

def ascii (s : String) : CStr := s.toList.map fun c => UInt8.ofNat c.toNat

/-- A property: `length` of the bytes at `data` are its own. -/
structure DtbProp where
  name : CStr
  length : BitVec 32
  data : ℕ → UInt8

inductive DtbNode
  | mk (name : CStr) (props : List DtbProp) (children : List DtbNode)

namespace DtbNode

def name : DtbNode → CStr
  | mk name _ _ => name

def props : DtbNode → List DtbProp
  | mk _ props _ => props

def children : DtbNode → List DtbNode
  | mk _ _ children => children

end DtbNode

/-- The shifts of a `uintmax_t` by 64 and more are not defined. -/
structure Target where
  shl : BitVec 64 → ℕ → BitVec 64
  shl_of_lt : ∀ x n, n < 64 → shl x n = x <<< n

variable (T : Target)

/-! ## Nodes -/

/-- A name is compared up to its `@`. -/
def findChildInternal (start : DtbNode) (name : CStr) : Option DtbNode :=
  start.children.find? fun scan => scan.name.takeWhile (· ≠ 64) = name

/-- `dtb_find`, with the segments of the path. -/
def dtbFind : Option DtbNode → List CStr → Option DtbNode
  | scan, [] => scan
  | scan, seg :: path => dtbFind (scan.bind fun node => findChildInternal node seg) path

def dtbFindProp (node : DtbNode) (name : CStr) : Option DtbProp := node.props.find? fun prop => prop.name = name

/-! ## Properties -/

/-- The scan of `dtb_read_prop_string` over the `k` bytes from `scan` on. -/
def stringFrom (prop : DtbProp) (index : ℕ) : ℕ → ℕ → ℕ → Option ℕ
  | 0, _, _ => none
  | k + 1, scan, currIndex =>
    if prop.data scan = 0 then stringFrom prop index k (scan + 1) (currIndex + 1)
    else if currIndex = index then some scan
    else stringFrom prop index k (scan + 1) currIndex

/-- Where the string of an index starts.  The length is multiplied as a `uint32_t`. -/
def dtbReadPropString (prop : DtbProp) (index : ℕ) : Option ℕ := stringFrom prop index (prop.length * 4).toNat 0 0

/-- `strcmp(&data[ofs], text) == 0`. -/
def strEq (prop : DtbProp) (ofs : ℕ) (text : CStr) : Bool :=
  (List.range (text.length + 1)).map (fun i => prop.data (ofs + i)) = text ++ [0]

def be32 (prop : DtbProp) (cell : ℕ) : BitVec 32 :=
  (prop.data (4 * cell)).toBitVec ++ (prop.data (4 * cell + 1)).toBitVec ++ (prop.data (4 * cell + 2)).toBitVec ++
    (prop.data (4 * cell + 3)).toBitVec

/-- `count` cells from `base` on, the first one the highest. -/
def extractCells (prop : DtbProp) (base count : ℕ) : BitVec 64 :=
  (List.range count).foldl
    (fun value i => value ||| T.shl ((be32 prop (base + i)).setWidth 64) ((count - 1 - i) * 32)) 0

def dtbReadProp1 (prop : DtbProp) (cellCount : ℕ) : List (BitVec 64) :=
  if cellCount = 0 then []
  else (List.range (prop.length.toNat / (cellCount * 4))).map fun i =>
    extractCells T prop (i * cellCount) cellCount

def dtbReadProp2 (prop : DtbProp) (layout : ℕ × ℕ) : List (BitVec 64 × BitVec 64) :=
  if layout.1 = 0 ∨ layout.2 = 0 then []
  else (List.range (prop.length.toNat / ((layout.1 + layout.2) * 4))).map fun i =>
    (extractCells T prop (i * (layout.1 + layout.2)) layout.1,
      extractCells T prop (i * (layout.1 + layout.2) + layout.1) layout.2)

def getCellsHelper (node : DtbNode) (propName : CStr) (orDefault : ℕ) : ℕ :=
  match dtbFindProp node propName with
  | none => orDefault
  | some prop =>
    match dtbReadProp1 T prop 1 with
    | [value] => value.toNat
    | _ => orDefault

/-- The cells for a node are given by its parent. -/
def dtbGetAddrCellsFor (parent : DtbNode) : ℕ := getCellsHelper T parent (ascii "#address-cells") 2

def dtbGetSizeCellsFor (parent : DtbNode) : ℕ := getCellsHelper T parent (ascii "#size-cells") 1

/-! ## The scans -/

/-- The node's `device_type` is `text`. -/
def isDevice (node : DtbNode) (text : CStr) : Bool :=
  match dtbFindProp node (ascii "device_type") with
  | none => false
  | some prop =>
    match dtbReadPropString prop 0 with
    | none => false
    | some ofs => strEq prop ofs text

/-- The pairs that `soct_ram_end` looks at: of each memory node those that its array holds.  The pairs of a node
with more than eight are stored past the end of the array, and what becomes of the program then is not said here;
`ramEndScan` has the stores. -/
def memoryRanges (root : DtbNode) : List (BitVec 64 × BitVec 64) :=
  root.children.flatMap fun node =>
    if isDevice node (ascii "memory") then
      match dtbFindProp node (ascii "reg") with
      | none => []
      | some reg => (dtbReadProp2 T reg (dtbGetAddrCellsFor T root, dtbGetSizeCellsFor T root)).take 8
    else []

/-- `soct_n_harts`; the count becomes an `int`. -/
def nHarts (root : Option DtbNode) : ℤ :=
  match dtbFind root [ascii "cpus"] with
  | none => 1
  | some cpus =>
    let count := (cpus.children.filter fun child => isDevice child (ascii "cpu")).length
    if 0 < count then (BitVec.ofNat 32 count).toInt else -1

end Soceteer.Glue
