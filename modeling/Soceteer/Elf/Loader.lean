import Soceteer.Lib.Bytes
import Soceteer.Lib.Wp
import Mathlib.Logic.Function.Basic

/-!
# Soceteer.Elf.Loader — `load_elf` of the front-end server

`load_elf` (`fesvr/elfloader.hpp`) reads the whole file into a buffer, takes pointers into it for the headers,
writes the segments to the target and returns the symbols.

* `Cls`, `Field`: the layouts of `elf.hpp`, for both classes.
* `File`, `Memif`, `Host`: the buffer, the access to the target's memory and the memory of the host.
* `peek`: a read through a pointer into the buffer; outside of it the program is undefined.
* `processProgramHeaders`, `processSymbolTable`, `processSymbolTable32`, `loadElf`: the loader.
-/

namespace Soceteer.Elf

open Soceteer.Lib

/-! ## Layouts -/

inductive Cls
  | elf32
  | elf64
  deriving DecidableEq

/-- The place of a field in its structure, and its size. -/
structure Field where
  ofs : ℕ
  size : ℕ

namespace Cls

/-- The size of a pointer-sized field, in bits. -/
def bits : Cls → ℕ
  | elf32 => 32
  | elf64 => 64

/-! `Elf32_Ehdr`, `Elf64_Ehdr` -/

def eEntry : Cls → Field
  | elf32 => ⟨24, 4⟩
  | elf64 => ⟨24, 8⟩

def ePhoff : Cls → Field
  | elf32 => ⟨28, 4⟩
  | elf64 => ⟨32, 8⟩

def eShoff : Cls → Field
  | elf32 => ⟨32, 4⟩
  | elf64 => ⟨40, 8⟩

def ePhnum : Cls → Field
  | elf32 => ⟨44, 2⟩
  | elf64 => ⟨56, 2⟩

def eShnum : Cls → Field
  | elf32 => ⟨48, 2⟩
  | elf64 => ⟨60, 2⟩

def eShstrndx : Cls → Field
  | elf32 => ⟨50, 2⟩
  | elf64 => ⟨62, 2⟩

def ehdrSize : Cls → ℕ
  | elf32 => 52
  | elf64 => 64

/-! `Elf32_Phdr`, `Elf64_Phdr` -/

def pType : Cls → Field := fun _ => ⟨0, 4⟩

def pOffset : Cls → Field
  | elf32 => ⟨4, 4⟩
  | elf64 => ⟨8, 8⟩

def pPaddr : Cls → Field
  | elf32 => ⟨12, 4⟩
  | elf64 => ⟨24, 8⟩

def pFilesz : Cls → Field
  | elf32 => ⟨16, 4⟩
  | elf64 => ⟨32, 8⟩

def pMemsz : Cls → Field
  | elf32 => ⟨20, 4⟩
  | elf64 => ⟨40, 8⟩

def phdrSize : Cls → ℕ
  | elf32 => 32
  | elf64 => 56

/-! `Elf32_Shdr`, `Elf64_Shdr` -/

def shName : Cls → Field := fun _ => ⟨0, 4⟩

def shType : Cls → Field := fun _ => ⟨4, 4⟩

def shOffset : Cls → Field
  | elf32 => ⟨16, 4⟩
  | elf64 => ⟨24, 8⟩

def shSize : Cls → Field
  | elf32 => ⟨20, 4⟩
  | elf64 => ⟨32, 8⟩

def shdrSize : Cls → ℕ
  | elf32 => 40
  | elf64 => 64

/-! `Elf32_Sym`, `Elf64_Sym` -/

def stName : Cls → Field := fun _ => ⟨0, 4⟩

def stValue : Cls → Field
  | elf32 => ⟨4, 4⟩
  | elf64 => ⟨8, 8⟩

def symSize : Cls → ℕ
  | elf32 => 16
  | elf64 => 24

end Cls

/-! ## What the loader works on -/

/-- The file in the buffer: `file_size` comes from an `off_t`. -/
structure File where
  bytes : List UInt8
  small : bytes.length < 2 ^ 63

/-- How the file was found. -/
inductive Source
  | missing
  | closed
  | unread
  | buffer (file : File)

/-- `memif_t`: what it writes is what is in the target's memory afterwards. -/
structure Memif (σ : Type) where
  view : σ → Mem 64
  write : BitVec 64 → List UInt8 → σ → σ
  view_write : ∀ addr bytes s, bytes.length ≤ 2 ^ 64 → view (write addr bytes s) = splice (view s) addr bytes

/-- Whether a vector of bytes can be resized to a length, which is at most `max_size`. -/
structure Host where
  room : ℕ → Bool
  bound : ∀ n, room n = true → n < 2 ^ 63

/-- What ends a run early: an exception, a read outside of the buffer, and a loop that goes on. -/
inductive Stop
  | invalidArgument (what : String)
  | runtimeError (what : String)
  | resize
  | outside
  | running
  deriving DecidableEq

/-- The exceptions. -/
def Stop.Thrown : Stop → Prop
  | .invalidArgument _ => True
  | .runtimeError _ => True
  | .resize => True
  | .outside => False
  | .running => False

/-- The target, the ranges that were written, and the output argument. -/
structure St (σ : Type) where
  target : σ
  writes : List (BitVec 64 × ℕ)
  entryPoint : BitVec 64

abbrev Load (σ : Type) := EStateM Stop (St σ)

/-- `std::map<std::string, uint64_t>`. -/
abbrev Symbols := List UInt8 → Option (BitVec 64)

variable {σ : Type} (M : Memif σ) (host : Host) (file : File)

/-- The number in `n` bytes of the file. -/
def num (file : File) (ofs n : ℕ) : ℕ := leNat ((file.bytes.drop ofs).take n)

/-- A place in the buffer, `ofs` from its start; pointers wrap. -/
def Inside (file : File) (ofs n : ℕ) : Prop := ofs % 2 ^ 64 + n ≤ file.bytes.length

instance (ofs n : ℕ) : Decidable (Inside file ofs n) := inferInstanceAs (Decidable (_ ≤ _))

/-- `n` bytes of the buffer. -/
def bytesOf (ofs n : ℕ) : Load σ (List UInt8) :=
  if Inside file ofs n then return (file.bytes.drop (ofs % 2 ^ 64)).take n else throw .outside

/-- A number in `n` bytes of the buffer. -/
def peek (ofs n : ℕ) : Load σ ℕ := if Inside file ofs n then return num file (ofs % 2 ^ 64) n else throw .outside

/-- A field of the structure at `ofs`. -/
def field (ofs : ℕ) (f : Field) : Load σ ℕ := peek file (ofs + f.ofs) f.size

/-! ## The checks -/

def ident (i v : ℕ) : Load σ Bool := return (← peek file i 1) == v

def isElf : Load σ Bool := ident file 0 0x7f <&&> ident file 1 0x45 <&&> ident file 2 0x4c <&&> ident file 3 0x46

def isElf32 : Load σ Bool := isElf file <&&> ident file 4 1

def isElf64 : Load σ Bool := isElf file <&&> ident file 4 2

/-- `matches_host`, on a little-endian host: `is_elf_le`. -/
def matchesHost : Load σ Bool := isElf file <&&> ident file 5 1

def isElfExec : Load σ Bool := isElf file <&&> return (← peek file 16 2) == 2

def isElfDyn : Load σ Bool := isElf file <&&> return (← peek file 16 2) == 3

def isElfRiscv : Load σ Bool := isElf file <&&> return (← peek file 18 2) == 243

def isElfEmNone : Load σ Bool := isElf file <&&> return (← peek file 18 2) == 0

def isElfVcurrent : Load σ Bool := isElf file <&&> return (← peek file 20 4) == 1

/-! ## Segments -/

def memifWrite (addr : BitVec 64) (bytes : List UInt8) : Load σ Unit :=
  modify fun s => { s with target := M.write addr bytes s.target, writes := s.writes ++ [(addr, bytes.length)] }

variable (c : Cls) (loadOffset : BitVec 64)

/-- The program header at `ph`.  The lengths are subtracted in their own width. -/
def programHeader (ph : ℕ) : Load σ Unit := do
  if (← field file ph c.pType) = 1 then
    let memsz ← field file ph c.pMemsz
    if 0 < memsz then
      let addr := BitVec.ofNat 64 (← field file ph c.pPaddr) + loadOffset
      let filesz ← field file ph c.pFilesz
      if 0 < filesz then
        memifWrite M addr (← bytesOf file (← field file ph c.pOffset) filesz)
      let padding := (memsz + (2 ^ c.bits - filesz)) % 2 ^ c.bits
      if 0 < padding then
        if ¬ host.room padding then throw .resize
        memifWrite M (addr + BitVec.ofNat 64 filesz) (List.replicate padding 0)

/-- `k` program headers, from the `i`-th on. -/
def processProgramHeaders (phoff : ℕ) : ℕ → ℕ → Load σ Unit
  | _, 0 => return ()
  | i, k + 1 => do
    programHeader M host file c loadOffset (phoff + i * c.phdrSize)
    processProgramHeaders phoff (i + 1) k

/-! ## Symbols -/

/-- `strcmp(p, text) == 0`, where `text` is given with its final zero: bytes are read up to the first that
differs. -/
def strcmp (p : ℕ) : List UInt8 → Load σ Bool
  | [] => return true
  | b :: text => do
    if (← peek file p 1) = b.toNat then strcmp (p + 1) text else return false

def strtabName : List UInt8 := [0x2e, 0x73, 0x74, 0x72, 0x74, 0x61, 0x62, 0]

def symtabName : List UInt8 := [0x2e, 0x73, 0x79, 0x6d, 0x74, 0x61, 0x62, 0]

/-- `std::string(p)`: the bytes up to a zero.  There are at most `fuel` in the buffer. -/
def cstr : ℕ → ℕ → Load σ (List UInt8)
  | 0, _ => throw .outside
  | fuel + 1, p => do
    let b ← peek file p 1
    if b = 0 then return [] else return UInt8.ofNat b :: (← cstr fuel (p + 1))

/-- The loop over `k` section headers, from the `i`-th on: the indices of `.strtab` and `.symtab`. -/
def findTables (shoff strtab : ℕ) : ℕ → ℕ → ℕ × ℕ → Load σ (ℕ × ℕ)
  | _, 0, found => return found
  | i, k + 1, found => do
    let sh := shoff + i * c.shdrSize
    if (← field file sh c.shType) &&& 8 ≠ 0 then findTables shoff strtab (i + 1) k found
    else
      let name ← field file sh c.shName
      let isStr ← strcmp file (strtab + name) strtabName
      let isSym ← strcmp file (strtab + name) symtabName
      findTables shoff strtab (i + 1) k (if isStr then i else found.1, if isSym then i else found.2)

/-- The loop over the symbols, with an `unsigned` index. -/
def insertSymbols (strtab symtab n : ℕ) : ℕ → ℕ → Symbols → Load σ Symbols
  | 0, _, _ => throw .running
  | fuel + 1, i, symbols =>
    if i < n then do
      let sym := symtab + i * c.symSize
      let name ← cstr file (file.bytes.length + 1) (strtab + (← field file sym c.stName))
      let value ← field file sym c.stValue
      insertSymbols strtab symtab n fuel ((i + 1) % 2 ^ 32)
        (Function.update symbols name (some (BitVec.ofNat 64 value + loadOffset)))
    else return symbols

/-- The symbol table of either class, with the section names at `names`. -/
def symbolTable (fuel shoff names : ℕ) : Load σ Symbols := do
  let shnum ← field file 0 c.eShnum
  let (strtabIdx, symtabIdx) ← findTables file c shoff names 0 shnum (0, 0)
  if strtabIdx ≠ 0 ∧ symtabIdx ≠ 0 then
    let strtab ← field file (shoff + strtabIdx * c.shdrSize) c.shOffset
    let symtab ← field file (shoff + symtabIdx * c.shdrSize) c.shOffset
    let size ← field file (shoff + symtabIdx * c.shdrSize) c.shSize
    insertSymbols file c loadOffset strtab symtab (size / c.symSize) fuel 0 fun _ => none
  else return fun _ => none

def processSymbolTable (fuel shoff names : ℕ) : Load σ Symbols :=
  symbolTable file .elf64 loadOffset fuel shoff names

def processSymbolTable32 (fuel shoff names : ℕ) : Load σ Symbols :=
  symbolTable file .elf32 loadOffset fuel shoff names

/-! ## The loader -/

/-- What is common to the two branches on the class: the tables, the segments and then the symbols. -/
def loadTables (symbols : ℕ → ℕ → Load σ Symbols) : Load σ Symbols := do
  let phoff ← field file 0 c.ePhoff
  let shoff ← field file 0 c.eShoff
  let shstrndx ← field file 0 c.eShstrndx
  let names ← field file (shoff + shstrndx * c.shdrSize) c.shOffset
  let phnum ← field file 0 c.ePhnum
  processProgramHeaders M host file c loadOffset phoff 0 phnum
  symbols shoff names

/-- The checks of the header, in their order. -/
def checkHeader : Load σ Unit := do
  if ¬ (← isElf32 file <||> isElf64 file) then throw (.runtimeError "Invalid ELF format.")
  if ¬ (← matchesHost file) then throw (.runtimeError "ELF file endianness does not match host.")
  if ¬ (← isElfExec file <||> isElfDyn file) then
    throw (.runtimeError "ELF file is not executable or shared object.")
  if ¬ (← isElfRiscv file <||> isElfEmNone file) then throw (.runtimeError "ELF file is not RISC-V or generic.")
  if ¬ (← isElfVcurrent file) then throw (.runtimeError "Unsupported ELF version.")

/-- `load_elf` after the file is in the buffer.  The entry point is read through the 64-bit header. -/
def loadBuffer (fuel : ℕ) : Load σ Symbols := do
  checkHeader file
  let loadOffset := if ← isElfExec file then 0 else loadOffset
  let entry ← field file 0 Cls.elf64.eEntry
  modify fun s => { s with entryPoint := BitVec.ofNat 64 entry + loadOffset }
  if ← isElf32 file then loadTables M host file .elf32 loadOffset (processSymbolTable32 file loadOffset fuel)
  else loadTables M host file .elf64 loadOffset (processSymbolTable file loadOffset fuel)

def loadElf (filename : String) (source : Source) (fuel : ℕ) : Load σ Symbols :=
  match source with
  | .missing => throw (.invalidArgument ("ELF file does not exist: " ++ filename))
  | .closed => throw (.runtimeError ("Failed to open ELF file: " ++ filename))
  | .unread => throw (.runtimeError ("Failed to read ELF file: " ++ filename))
  | .buffer file => loadBuffer M host file loadOffset fuel

end Soceteer.Elf
