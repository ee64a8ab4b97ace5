import Soceteer.Lib.Bytes
import Soceteer.Lib.Wp

/-!
# Soceteer.Boot.Rom — the boot ROM loads `BOOT.ELF` from the SD card

`download` (`sd-boot/bootrom.c`) reads the program headers of the file, loads each `PT_LOAD` segment in pieces,
copies the device tree of the ROM to the top of RAM and jumps.  The ROM's own data is at the start of RAM, so what
belongs there goes to a staging area first and is copied down just before the jump.

* `Layout`: the addresses the ROM is built for, and its device tree.
* `Fs`: the file, and what FatFs makes of each call.
* `segment`, `loadFrom`, `elfHeader`, `deviceTree`, `copyDown`, `download`: the ROM's functions, over a state with
  a log of the places they read and write to.
-/

namespace Soceteer.Boot

open Soceteer.Lib

/-! ## Build -/

/-- The FDT's `totalsize`, big-endian at byte offset 4. -/
def totalsize (h : List UInt8) : ℕ :=
  (h.getD 4 0).toNat * 2 ^ 24 + (h.getD 5 0).toNat * 2 ^ 16 + (h.getD 6 0).toNat * 2 ^ 8 + (h.getD 7 0).toNat

/-- The ROM is built for RAM of `size` bytes at `base`.  It uses RAM below `memEnd` itself and stages what belongs
there at `memAlt`, at the top.  RAM has room for the device tree, and more, in between. -/
structure Layout where
  xlen : ℕ
  base : ℕ
  size : ℕ
  memEnd : ℕ
  memAlt : ℕ
  dtb : List UInt8
  xlen_eq : xlen = 32 ∨ xlen = 64
  addressable : base + size ≤ 2 ^ xlen ∧ base + size < 2 ^ 64
  own : base < memEnd
  words : 8 ∣ memEnd - base
  top : memAlt + (memEnd - base) ≤ base + size
  room : memEnd + dtb.length + 0x10000 ≤ memAlt
  header : 8 ≤ totalsize dtb
  packed : totalsize dtb ≤ dtb.length

namespace Layout

variable (L : Layout)

/-- Where the copy of the device tree goes. -/
def dst : ℕ := (L.memAlt - L.dtb.length - 0x1000) / 0x1000 * 0x1000

end Layout

/-! ## State -/

/-- The fields of a program header that are used. -/
structure Seg where
  offset : ℕ
  vaddr : ℕ
  filesz : ℕ
  memsz : ℕ
  deriving DecidableEq

/-- What `download` comes to: a segment to load, a read from the file into memory, a fill with zeros, and a store
into the copy of the device tree. -/
inductive Access
  | segment (seg : Seg)
  | read (mem size : ℕ)
  | zero (mem size : ℕ)
  | tree (mem size : ℕ)
  deriving DecidableEq

structure St (w : ℕ) where
  mem : Mem w
  pos : ℕ
  calls : ℕ
  altMem : Bool
  log : List Access

inductive Err
  | fatfs (code : ℕ)
  | eof
  | notElf
  | elfBits
  | elfEndianness
  | segmentAddr
  deriving DecidableEq

/-- `errno` ends the download as soon as it is set. -/
abbrev Rom (w : ℕ) := EStateM Err (St w)

variable {w : ℕ}

def access (x : Access) : Rom w Unit := modify fun s => { s with log := s.log ++ [x] }

/-- `bs` at address `a`. -/
def store (a : ℕ) (bs : List UInt8) : Rom w Unit :=
  modify fun s => { s with mem := splice s.mem (BitVec.ofNat w a) bs }

/-! ## FatFs -/

/-- The file, the calls that fail, and how many bytes each read comes back with at most. -/
structure Fs where
  file : List UInt8
  fail : ℕ → Option ℕ
  count : ℕ → ℕ

variable (fs : Fs)

/-- The number of the next call, unless it fails. -/
def call : Rom w ℕ := do
  let s ← get
  set { s with calls := s.calls + 1 }
  match fs.fail s.calls with
  | some code => throw (.fatfs code)
  | none => return s.calls

def fOpen : Rom w Unit := do
  let _ ← call fs
  modify fun s => { s with pos := 0 }

def fClose : Rom w Unit := do
  let _ ← call fs

def fTell : Rom w ℕ := return (← get).pos

/-- A file that is open for reading is not left. -/
def fLseek (ofs : ℕ) : Rom w Unit := do
  let _ ← call fs
  modify fun s => { s with pos := min ofs fs.file.length }

def fRead (size : ℕ) : Rom w (List UInt8) := do
  let k ← call fs
  let s ← get
  let data := (fs.file.drop s.pos).take (min size (fs.count k))
  set { s with pos := s.pos + data.length }
  return data

def readNum (size : ℕ) : Rom w ℕ := do
  let buf ← fRead fs size
  if buf.length < size then throw .eof
  return leNat buf

/-! ## Segments -/

variable (L : Layout)

/-- A piece of a segment: where it goes, its size, and whether it is staged. -/
structure Piece where
  mem : ℕ
  size : ℕ
  alt : Bool

def piece (addr size : ℕ) : Piece :=
  if L.base < (addr + size) % 2 ^ L.xlen ∧ addr < L.memEnd then
    { mem := (addr + (2 ^ L.xlen - L.base) + L.memAlt) % 2 ^ L.xlen
      size := if L.memEnd < (addr + size) % 2 ^ L.xlen then L.memEnd - addr else size
      alt := true }
  else { mem := addr, size, alt := false }

def setAlt (alt : Bool) : Rom w Unit := modify fun s => { s with altMem := s.altMem || alt }

/-- The loop over the pieces that come from the file.  Each round reads at least one byte. -/
def readLoop (seg : Seg) : ℕ → ℕ → ℕ → Rom w (ℕ × ℕ)
  | 0, addr, pos => return (addr, pos)
  | fuel + 1, addr, pos =>
    if pos < seg.filesz ∧ pos < seg.memsz then do
      let p := piece L addr (min (min 0x10000 (seg.filesz - pos)) (seg.memsz - pos))
      setAlt p.alt
      access (.read p.mem p.size)
      let data ← fRead fs p.size
      if data.length = 0 then throw .eof
      store p.mem data
      readLoop seg fuel ((addr + data.length) % 2 ^ L.xlen) (pos + data.length)
    else return (addr, pos)

/-- The loop over the pieces that are filled with zeros. -/
def zeroLoop (seg : Seg) : ℕ → ℕ → ℕ → Rom w Unit
  | 0, _, _ => return ()
  | fuel + 1, addr, pos =>
    if pos < seg.memsz then do
      let p := piece L addr (min 0x10000 (seg.memsz - pos))
      setAlt p.alt
      access (.zero p.mem p.size)
      store p.mem (List.replicate p.size 0)
      zeroLoop seg fuel ((addr + p.size) % 2 ^ L.xlen) (pos + p.size)
    else return ()

/-- The end of a segment, in 64 bits. -/
def Seg.end64 (seg : Seg) : ℕ := (seg.vaddr + seg.memsz) % 2 ^ 64

/-- The check that a segment is in RAM. -/
def Accepts (seg : Seg) : Prop := L.base ≤ seg.vaddr ∧ seg.end64 ≤ (L.base + L.size) % 2 ^ 64

instance (seg : Seg) : Decidable (Accepts L seg) := inferInstanceAs (Decidable (_ ∧ _))

/-- The body of the loop over the program headers for a `PT_LOAD` segment. -/
def segment (seg : Seg) (loadEnd : ℕ) : Rom w ℕ := do
  access (.segment seg)
  if ¬ Accepts L seg then throw .segmentAddr
  fLseek fs seg.offset
  let (addr, pos) ← readLoop fs L seg (min seg.filesz seg.memsz) seg.vaddr 0
  zeroLoop L seg seg.memsz addr pos
  return if loadEnd < seg.end64 then seg.end64 % 2 ^ L.xlen else loadEnd

def readAddr : Rom w ℕ := readNum fs (L.xlen / 8)

/-- The `i`-th program header, if it is of type `PT_LOAD`. -/
def programHeader (phoff phentsize i : ℕ) : Rom w (Option Seg) := do
  fLseek fs ((phoff + i * phentsize) % 2 ^ 64)
  let pType ← readNum fs 4
  if pType ≠ 1 then return none
  fLseek fs ((← fTell) + if L.xlen = 32 then 0 else 4)
  let offset ← readAddr fs L
  let vaddr ← readAddr fs L
  let _ ← readAddr fs L
  let filesz ← readAddr fs L
  let memsz ← readAddr fs L
  return some { offset, vaddr, filesz, memsz }

/-- The loop over the program headers, from the `i`-th on. -/
def loadFrom (phoff phentsize : ℕ) : ℕ → ℕ → ℕ → Rom w ℕ
  | _, 0, loadEnd => return loadEnd
  | i, k + 1, loadEnd => do
    match ← programHeader fs L phoff phentsize i with
    | none => loadFrom phoff phentsize (i + 1) k loadEnd
    | some seg =>
      let loadEnd ← segment fs L seg loadEnd
      loadFrom phoff phentsize (i + 1) k loadEnd

/-! ## The device tree and the jump -/

/-- The `n` low bytes of a number, most significant first. -/
def beBytes (n v : ℕ) : List UInt8 := (leBytes n v).reverse

/-- The copy of the device tree, with headroom. -/
def deviceTree (loadEnd : ℕ) : Rom w ℕ := do
  let dst := L.dst
  if loadEnd < L.base ∨ dst < loadEnd then throw .segmentAddr
  access (.tree dst L.dtb.length)
  store dst L.dtb
  let total := totalsize (bytesAt (← get).mem (BitVec.ofNat w dst) 8)
  access (.tree (dst + total) 0x1000)
  store (dst + total) (List.replicate 0x1000 0)
  access (.tree (dst + 4) 4)
  store (dst + 4) (beBytes 4 (total + 0x1000))
  return dst

/-- `boot_rom_memcpy`: `t0` and `t2` go up by eight until `t0` is `BOOTROM_MEM_END`. -/
def copyDown : ℕ → ℕ → ℕ → Mem w → Mem w
  | 0, _, _, m => m
  | fuel + 1, t0, t2, m =>
    let m' := splice m (BitVec.ofNat w t0) (bytesAt m (BitVec.ofNat w t2) 8)
    if t0 + 8 = L.memEnd then m' else copyDown fuel (t0 + 8) (t2 + 8) m'

/-- `download` up to the program headers: the entry point, and where and how many they are. -/
def elfHeader : Rom w (ℕ × ℕ × ℕ × ℕ) := do
  fOpen fs
  let buf ← fRead fs 6
  if buf.length < 6 then throw .eof
  if buf.take 4 ≠ [0x7f, 0x45, 0x4c, 0x46] then throw .notElf
  if buf.getD 4 0 ≠ (if L.xlen = 32 then 1 else 2) then throw .elfBits
  if buf.getD 5 0 ≠ 1 then throw .elfEndianness
  fLseek fs 24
  let entry ← readAddr fs L
  let phoff ← readAddr fs L
  fLseek fs ((← fTell) + L.xlen / 8 + 6)
  let phentsize ← readNum fs 2
  let phnum ← readNum fs 2
  return (entry, phoff, phentsize, phnum)

/-- `download` up to its jump: the entry point and the device tree's address. -/
def download : Rom L.xlen (ℕ × ℕ) := do
  let (entry, phoff, phentsize, phnum) ← elfHeader fs L
  let loadEnd ← loadFrom fs L phoff phentsize 0 phnum 0
  fClose fs
  let dtb ← deviceTree L loadEnd
  if (← get).altMem then modify fun s =>
    { s with mem := copyDown L ((L.memEnd - L.base) / 8) L.base L.memAlt s.mem }
  return (entry, dtb)

/-- What `download` finds: memory, and `alt_mem` as an earlier attempt may have left it. -/
def start (mem : Mem w) (altMem : Bool) : St w := { mem, pos := 0, calls := 0, altMem, log := [] }

end Soceteer.Boot
