import Soceteer.Elf.Parts

/-!
# Soceteer.Elf.Correct — `load_elf` on well-formed files

* `WellFormed`: an executable or shared object for RISC-V, with every reference inside the file.
* `image`, `IsSymbols`, `entry`: what loading such a file should do.
* `Loads`: `load_elf` returns, and that is what it has done.
* `loads_iff`: it does so exactly when the 64-bit header has the right entry point, the host has room for the zeros
  and the symbols can be counted.
-/

namespace Soceteer.Elf

open Soceteer.Lib

variable {σ : Type} {M : Memif σ} {host : Host} {file : File} {c : Cls} {off : BitVec 64}

/-! ## What a file says -/

/-- A field of the file. -/
def val (file : File) (ofs : ℕ) (f : Field) : ℕ := num file (ofs + f.ofs) f.size

/-- `e_phentsize` and `e_shentsize`. -/
def Cls.ePhentsize : Cls → Field
  | elf32 => ⟨42, 2⟩
  | elf64 => ⟨54, 2⟩

def Cls.eShentsize : Cls → Field
  | elf32 => ⟨46, 2⟩
  | elf64 => ⟨58, 2⟩

/-- Where the `i`-th program header is. -/
def phAt (c : Cls) (file : File) (i : ℕ) : ℕ := val file 0 c.ePhoff + i * val file 0 c.ePhentsize

/-- Where the `i`-th section header is. -/
def shAt (c : Cls) (file : File) (i : ℕ) : ℕ := val file 0 c.eShoff + i * val file 0 c.eShentsize

structure Segment where
  paddr : ℕ
  offset : ℕ
  filesz : ℕ
  memsz : ℕ
  deriving DecidableEq

/-- The segment of a program header. -/
def segmentAt (c : Cls) (file : File) (i : ℕ) : Segment :=
  { paddr := val file (phAt c file i) c.pPaddr
    offset := val file (phAt c file i) c.pOffset
    filesz := val file (phAt c file i) c.pFilesz
    memsz := val file (phAt c file i) c.pMemsz }

/-- The `PT_LOAD` segments, in order. -/
def segments (c : Cls) (file : File) : List Segment :=
  (List.range (val file 0 c.ePhnum)).filterMap fun i =>
    if val file (phAt c file i) c.pType = 1 then some (segmentAt c file i) else none

/-- A segment in memory: its bytes of the file, then zeros. -/
def Segment.bytes (file : File) (seg : Segment) : List UInt8 :=
  (file.bytes.drop seg.offset).take seg.filesz ++ List.replicate (seg.memsz - seg.filesz) 0

/-- The memory after the segments, with the given offset. -/
def image (c : Cls) (file : File) (off : BitVec 64) (m : Mem 64) : Mem 64 :=
  (segments c file).foldl (fun m seg => splice m (BitVec.ofNat 64 seg.paddr + off) (seg.bytes file)) m

/-- The string at a place of the file. -/
def text (file : File) (p : ℕ) : List UInt8 := (file.bytes.drop p).takeWhile (· ≠ 0)

/-- A section's name. -/
def secName (c : Cls) (file : File) (i : ℕ) : List UInt8 :=
  text file (val file (shAt c file (val file 0 c.eShstrndx)) c.shOffset + val file (shAt c file i) c.shName)

/-- A section that has this name and takes up space in the file; the first header is none. -/
def IsNamed (c : Cls) (file : File) (name : List UInt8) (i : ℕ) : Prop :=
  0 < i ∧ i < val file 0 c.eShnum ∧ val file (shAt c file i) c.shType &&& 8 = 0 ∧ secName c file i = name

/-- The section with this name, the last one if there are several. -/
def IsSection (c : Cls) (file : File) (name : List UInt8) (i : ℕ) : Prop :=
  IsNamed c file name i ∧ ∀ j, IsNamed c file name j → j ≤ i

/-- The two tables of symbols. -/
structure IsTables (c : Cls) (file : File) (str sym : ℕ) : Prop where
  str : IsSection c file (strtabName.dropLast) str
  sym : IsSection c file (symtabName.dropLast) sym

/-- The number of symbols in a section. -/
def count (c : Cls) (file : File) (sec : ℕ) : ℕ := val file (shAt c file sec) c.shSize / c.symSize

/-- Where the `i`-th symbol of a section is. -/
def symAt (c : Cls) (file : File) (sec i : ℕ) : ℕ := val file (shAt c file sec) c.shOffset + i * c.symSize

/-- The name of the `i`-th symbol. -/
def nameAt (c : Cls) (file : File) (str sec i : ℕ) : List UInt8 :=
  text file (val file (shAt c file str) c.shOffset + val file (symAt c file sec i) c.stName)

/-- The map has the value of the last symbol of each name, and nothing else. -/
def IsSymbols (c : Cls) (file : File) (off : BitVec 64) (symbols : Symbols) : Prop :=
  ∀ name v, symbols name = some v ↔ ∃ str sec, IsTables c file str sec ∧
    ∃ i < count c file sec, nameAt c file str sec i = name ∧
      v = BitVec.ofNat 64 (val file (symAt c file sec i) c.stValue) + off ∧
      ∀ j, i < j → j < count c file sec → nameAt c file str sec j ≠ name

/-- A well-formed little-endian executable or shared object for RISC-V. -/
structure WellFormed (c : Cls) (file : File) : Prop where
  long : c.ehdrSize ≤ file.bytes.length
  magic : file.bytes.take 4 = [0x7f, 0x45, 0x4c, 0x46]
  cls : num file 4 1 = if c = .elf32 then 1 else 2
  data : num file 5 1 = 1
  type : num file 16 2 = 2 ∨ num file 16 2 = 3
  machine : num file 18 2 = 243
  version : num file 20 4 = 1
  phentsize : val file 0 c.ePhnum ≠ 0 → val file 0 c.ePhentsize = c.phdrSize
  phdrs : val file 0 c.ePhoff + val file 0 c.ePhnum * c.phdrSize ≤ file.bytes.length
  segments : ∀ seg ∈ segments c file, seg.offset + seg.filesz ≤ file.bytes.length ∧ seg.filesz ≤ seg.memsz
  shentsize : val file 0 c.eShnum ≠ 0 → val file 0 c.eShentsize = c.shdrSize
  shdrs : val file 0 c.eShoff + val file 0 c.eShnum * c.shdrSize ≤ file.bytes.length
  shstrndx : val file 0 c.eShoff + (val file 0 c.eShstrndx + 1) * c.shdrSize ≤ file.bytes.length
  secNames : ∀ i < val file 0 c.eShnum,
    0 ∈ file.bytes.drop (val file (shAt c file (val file 0 c.eShstrndx)) c.shOffset +
      val file (shAt c file i) c.shName)
  symtab : ∀ str sec, IsTables c file str sec →
    val file (shAt c file sec) c.shOffset + val file (shAt c file sec) c.shSize ≤ file.bytes.length
  symNames : ∀ str sec, IsTables c file str sec → ∀ i < count c file sec,
    0 ∈ file.bytes.drop (val file (shAt c file str) c.shOffset + val file (symAt c file sec i) c.stName)

/-! ## Places in the file -/

theorem get_eq_val {ofs : ℕ} {f : Field} (h : ofs + f.ofs < 2 ^ 64) : get file ofs f = val file ofs f := by
  rw [get, Nat.mod_eq_of_lt h]
  rfl

theorem has_of_le {ofs : ℕ} {f : Field} (h : ofs + f.ofs + f.size ≤ file.bytes.length) : Has file ofs f := by
  have hsmall := file.small
  rw [Has, Inside, Nat.mod_eq_of_lt (by omega)]
  exact h

theorem lt_of_zero_mem {p : ℕ} (h : 0 ∈ file.bytes.drop p) : p < file.bytes.length := by
  by_contra hc
  rw [List.drop_of_length_le (by omega)] at h
  exact nomatch h

theorem terminated_of_mem {p : ℕ} (h : 0 ∈ file.bytes.drop p) :
    Terminated file p ∧ strOf file p = text file p := by
  have hsmall := file.small
  have hp := lt_of_zero_mem h
  have hmod : p % 2 ^ 64 = p := Nat.mod_eq_of_lt (by omega)
  rw [Terminated, strOf, hmod]
  exact ⟨h, rfl⟩

/-- `strcmp` on a string that ends in the file. -/
theorem strcmp_of_mem : ∀ (t : List UInt8) (p : ℕ), 0 ∉ t → 0 ∈ file.bytes.drop p →
    StrIn file p (t ++ [0]) ∧ (matchesAt file p (t ++ [0]) = true ↔ text file p = t) := by
  have hsmall := file.small
  intro t
  induction t with
  | nil =>
    intro p _ hz
    have hp := lt_of_zero_mem hz
    have hmod : p % 2 ^ 64 = p := Nat.mod_eq_of_lt (by omega)
    obtain ⟨b, hdrop, hnum⟩ := exists_byte hp
    refine ⟨⟨by rw [Inside, hmod]; omega, fun _ => trivial⟩, ?_⟩
    rw [List.nil_append, matchesAt, matchesAt, Bool.and_true, beq_iff_eq, hmod, hnum, UInt8.toNat_inj, text, hdrop,
      List.takeWhile_cons]
    by_cases hb : b = 0 <;> simp [hb]
  | cons a t ih =>
    intro p ht hz
    rw [List.mem_cons, not_or] at ht
    have hp := lt_of_zero_mem hz
    have hmod : p % 2 ^ 64 = p := Nat.mod_eq_of_lt (by omega)
    obtain ⟨b, hdrop, hnum⟩ := exists_byte hp
    -- a byte that is like the text's is not the string's last
    have hnext : b = a → 0 ∈ file.bytes.drop (p + 1) := by
      rintro rfl
      rw [hdrop, List.mem_cons] at hz
      exact hz.resolve_left ht.1
    refine ⟨⟨by rw [Inside, hmod]; omega, fun hb => ?_⟩, ?_⟩
    · rw [hmod, hnum] at hb
      exact (ih (p + 1) ht.2 (hnext (UInt8.toNat_inj.mp hb))).1
    · rw [List.cons_append, matchesAt, Bool.and_eq_true, beq_iff_eq, hmod, hnum, UInt8.toNat_inj, text, hdrop,
        List.takeWhile_cons]
      by_cases hb : b = a
      · have hrest := (ih (p + 1) ht.2 (hnext hb)).2
        rw [text] at hrest
        have hne : ¬ a = 0 := fun hc => ht.1 hc.symm
        simp [hb, hne, hrest]
      · have hne : ¬ (0 : UInt8) = a := ht.1
        by_cases hzero : b = 0 <;> simp [hb, hzero, hne]

/-! ## The tables -/

/-- The last of `k` indices with a property, from the `i`-th on. -/
def lastFrom (p : ℕ → Bool) : ℕ → ℕ → ℕ → ℕ
  | _, 0, d => d
  | i, k + 1, d => lastFrom p (i + 1) k (if p i then i else d)

theorem lastFrom_spec {p : ℕ → Bool} : ∀ k i d : ℕ,
    (lastFrom p i k d = d ∧ ∀ j, i ≤ j → j < i + k → p j = false) ∨
      (i ≤ lastFrom p i k d ∧ lastFrom p i k d < i + k ∧ p (lastFrom p i k d) = true ∧
        ∀ j, i ≤ j → j < i + k → p j = true → j ≤ lastFrom p i k d)
  | 0, i, d => Or.inl ⟨rfl, fun j _ _ => by omega⟩
  | k + 1, i, d => by
    rw [lastFrom]
    rcases lastFrom_spec (p := p) k (i + 1) (if p i then i else d) with ⟨heq, hno⟩ | ⟨hle, hlt, hp, hmax⟩
    · rw [heq]
      cases hpi : p i with
      | true =>
        refine Or.inr ⟨le_rfl, ?_, hpi, fun j hj hjk hpj => ?_⟩
        · rw [if_pos rfl]
          omega
        · by_contra hc
          rw [if_pos rfl] at hc
          rw [hno j (by omega) (by omega)] at hpj
          exact Bool.false_ne_true hpj
      | false =>
        refine Or.inl ⟨rfl, fun j hj hjk => ?_⟩
        rcases Nat.eq_or_lt_of_le hj with rfl | hlt
        · exact hpi
        · exact hno j hlt (by omega)
    · refine Or.inr ⟨by omega, by omega, hp, fun j hj hjk hpj => ?_⟩
      rcases Nat.eq_or_lt_of_le hj with rfl | hlt'
      · omega
      · exact hmax j hlt' (by omega) hpj

theorem tablesFrom_eq {shoff names : ℕ} : ∀ (k i : ℕ) (found : ℕ × ℕ),
    tablesFrom c file shoff names i k found =
      (lastFrom (fun j => named c file names (shoff + j * c.shdrSize) strtabName) i k found.1,
        lastFrom (fun j => named c file names (shoff + j * c.shdrSize) symtabName) i k found.2)
  | 0, _, _ => rfl
  | k + 1, i, _ => tablesFrom_eq k (i + 1) _

/-- The fields of a section header that are read lie in it. -/
theorem Cls.shdr_fields (c : Cls) : c.shName.ofs + c.shName.size ≤ c.shdrSize ∧
    c.shType.ofs + c.shType.size ≤ c.shdrSize ∧ c.shOffset.ofs + c.shOffset.size ≤ c.shdrSize ∧
    c.shSize.ofs + c.shSize.size ≤ c.shdrSize := by
  cases c <;> decide

/-- The fields of a program header that are read lie in it. -/
theorem Cls.phdr_fields (c : Cls) : c.pType.ofs + c.pType.size ≤ c.phdrSize ∧
    c.pOffset.ofs + c.pOffset.size ≤ c.phdrSize ∧ c.pPaddr.ofs + c.pPaddr.size ≤ c.phdrSize ∧
    c.pFilesz.ofs + c.pFilesz.size ≤ c.phdrSize ∧ c.pMemsz.ofs + c.pMemsz.size ≤ c.phdrSize := by
  cases c <;> decide

section WellFormed

variable (h : WellFormed c file)
include h

/-- The number of sections that is read. -/
theorem WellFormed.counts : phnum c file = val file 0 c.ePhnum ∧ shnum c file = val file 0 c.eShnum ∧
    get file 0 c.eShstrndx = val file 0 c.eShstrndx := by
  refine ⟨get_eq_val ?_, get_eq_val ?_, get_eq_val ?_⟩ <;> cases c <;>
    simp only [Cls.ePhnum, Cls.eShnum, Cls.eShstrndx] <;> omega

/-- A program header is in the file. -/
theorem WellFormed.phdr {i : ℕ} (hi : i < phnum c file) :
    phdr c file i = phAt c file i ∧ phAt c file i + c.phdrSize ≤ file.bytes.length := by
  have hin := h.phdrs
  rw [h.counts.1] at hi
  have hmul : (i + 1) * c.phdrSize ≤ val file 0 c.ePhnum * c.phdrSize := Nat.mul_le_mul_right _ hi
  have hoff : get file 0 c.ePhoff = val file 0 c.ePhoff :=
    get_eq_val (by cases c <;> simp only [Cls.ePhoff] <;> omega)
  have heq : Elf.phdr c file i = phAt c file i := by
    rw [Elf.phdr, phAt, hoff, h.phentsize (by omega)]
  rw [phAt, h.phentsize (by omega)] at heq ⊢
  rw [Nat.succ_mul] at hmul
  exact ⟨heq, by omega⟩

/-- The headers that are used are in the file. -/
theorem WellFormed.shdr {i : ℕ} (hi : i < shnum c file ∨ i = get file 0 c.eShstrndx) :
    shdr c file i + c.shdrSize ≤ file.bytes.length ∧ (shnum c file ≠ 0 → shdr c file i = shAt c file i) := by
  obtain ⟨-, hnum, hndx⟩ := h.counts
  have hoff : get file 0 c.eShoff = val file 0 c.eShoff :=
    get_eq_val (by cases c <;> simp only [Cls.eShoff] <;> omega)
  refine ⟨?_, fun hne => ?_⟩
  · rw [Elf.shdr, hoff]
    rcases hi with hi | rfl
    · have hin := h.shdrs
      rw [hnum] at hi
      have hmul : (i + 1) * c.shdrSize ≤ val file 0 c.eShnum * c.shdrSize := Nat.mul_le_mul_right _ hi
      rw [Nat.succ_mul] at hmul
      omega
    · have hin := h.shstrndx
      rw [hndx]
      rw [Nat.succ_mul] at hin
      omega
  · rw [Elf.shdr, shAt, hoff, h.shentsize (by rwa [← hnum])]

/-- A field of a section header. -/
theorem WellFormed.get_shdr {i : ℕ} {f : Field} (hi : i < shnum c file ∨ i = get file 0 c.eShstrndx)
    (hne : shnum c file ≠ 0) (hf : f.ofs + f.size ≤ c.shdrSize) :
    get file (Elf.shdr c file i) f = val file (shAt c file i) f := by
  have hsmall := file.small
  obtain ⟨hin, heq⟩ := h.shdr hi
  rw [heq hne] at hin ⊢
  exact get_eq_val (by omega)

theorem WellFormed.names_eq (hne : shnum c file ≠ 0) :
    names c file = val file (shAt c file (val file 0 c.eShstrndx)) c.shOffset := by
  rw [names, h.get_shdr (Or.inr rfl) hne c.shdr_fields.2.2.1, h.counts.2.2]

/-- The name of a section. -/
theorem WellFormed.named_iff {i : ℕ} (hi : i < shnum c file) {t : List UInt8} (ht : 0 ∉ t) :
    ShOk c file (names c file) (Elf.shdr c file i) ∧
      (named c file (names c file) (Elf.shdr c file i) (t ++ [0]) = true ↔
      val file (shAt c file i) c.shType &&& 8 = 0 ∧ secName c file i = t) := by
  have hne : shnum c file ≠ 0 := by omega
  have hz := h.secNames i (by rwa [← h.counts.2.1])
  have hin := (h.shdr (Or.inl hi)).1
  rw [← h.names_eq hne] at hz
  obtain ⟨hnameIn, htypeIn, -, -⟩ := c.shdr_fields
  have hname := h.get_shdr (Or.inl hi) hne hnameIn
  have htype := h.get_shdr (Or.inl hi) hne htypeIn
  rw [← hname] at hz
  refine ⟨⟨has_of_le (by omega), fun _ => ⟨has_of_le (by omega), ?_, ?_⟩⟩, ?_⟩
  · exact (strcmp_of_mem strtabName.dropLast _ (by decide) hz).1
  · exact (strcmp_of_mem symtabName.dropLast _ (by decide) hz).1
  · rw [named, Bool.and_eq_true, beq_iff_eq, (strcmp_of_mem t _ ht hz).2, htype, hname, secName, ← h.names_eq hne]

/-- The table found is the section of that name. -/
theorem WellFormed.lastFrom_iff {t : List UInt8} (ht : 0 ∉ t) {r : ℕ}
    (hr : lastFrom (fun j => named c file (names c file) (get file 0 c.eShoff + j * c.shdrSize) (t ++ [0])) 0
      (shnum c file) 0 = r) :
    (r ≠ 0 → IsSection c file t r) ∧ ∀ i, IsSection c file t i → i = r ∧ r ≠ 0 := by
  have hnum := h.counts.2.1
  have hnamed : ∀ j < shnum c file, 0 < j →
      (named c file (names c file) (get file 0 c.eShoff + j * c.shdrSize) (t ++ [0]) = true ↔
        IsNamed c file t j) := by
    intro j hj hpos
    refine (h.named_iff hj ht).2.trans ⟨fun ⟨h₁, h₂⟩ => ⟨hpos, by rwa [← hnum], h₁, h₂⟩, fun hn => hn.2.2⟩
  rcases @lastFrom_spec (fun j => named c file (names c file) (get file 0 c.eShoff + j * c.shdrSize) (t ++ [0]))
    (shnum c file) 0 0 with ⟨heq, hno⟩ | ⟨-, hlt, hp, hmax⟩
  · rw [hr] at heq
    refine ⟨fun hne => absurd heq hne, fun i hi => ?_⟩
    have hi' : i < shnum c file := by rw [hnum]; exact hi.1.2.1
    have htrue := (hnamed i hi' hi.1.1).mpr hi.1
    rw [hno i (Nat.zero_le _) (by omega)] at htrue
    exact absurd htrue Bool.false_ne_true
  · rw [hr] at hlt hp hmax
    have hsec : r ≠ 0 → IsSection c file t r := fun hne =>
      ⟨(hnamed r (by omega) (by omega)).mp hp, fun j hj =>
        hmax j (Nat.zero_le _) (by rw [Nat.zero_add, hnum]; exact hj.2.1)
          ((hnamed j (by rw [hnum]; exact hj.2.1) hj.1).mpr hj)⟩
    refine ⟨hsec, fun i hi => ?_⟩
    have hi' : i < shnum c file := by rw [hnum]; exact hi.1.2.1
    have hle := hmax i (Nat.zero_le _) (by omega) ((hnamed i hi' hi.1.1).mpr hi.1)
    have hpos := hi.1.1
    have hge := hi.2 r ((hnamed r (by omega) (by omega)).mp hp)
    omega

/-- The tables found are the two sections. -/
theorem WellFormed.tables_iff : (HasTables c file → IsTables c file (tables c file).1 (tables c file).2) ∧
    ∀ str sec, IsTables c file str sec → HasTables c file ∧ str = (tables c file).1 ∧ sec = (tables c file).2 := by
  have heq := @tablesFrom_eq file c (get file 0 c.eShoff) (names c file) (shnum c file) 0 (0, 0)
  obtain ⟨hstr, hstr'⟩ := h.lastFrom_iff (t := strtabName.dropLast) (by decide) (congrArg Prod.fst heq).symm
  obtain ⟨hsym, hsym'⟩ := h.lastFrom_iff (t := symtabName.dropLast) (by decide) (congrArg Prod.snd heq).symm
  refine ⟨fun ht => ⟨hstr ht.1, hsym ht.2⟩, fun str sec ht => ?_⟩
  obtain ⟨h₁, h₁'⟩ := hstr' str ht.str
  obtain ⟨h₂, h₂'⟩ := hsym' sec ht.sym
  exact ⟨⟨h₁', h₂'⟩, h₁, h₂⟩

theorem WellFormed.lt_shnum (ht : HasTables c file) :
    (tables c file).1 < shnum c file ∧ (tables c file).2 < shnum c file := by
  have hsec := h.tables_iff.1 ht
  rw [h.counts.2.1]
  exact ⟨hsec.str.1.2.1, hsec.sym.1.2.1⟩

theorem WellFormed.headerOk : HeaderOk c file := by
  have hin := (h.shdr (Or.inr rfl)).1
  have hsize := c.shdr_fields.2.2.1
  exact ⟨h.long, has_of_le (by omega)⟩

theorem WellFormed.sectionsOk : SectionsOk c file := by
  refine ⟨fun i hi => (h.named_iff hi (t := []) (by simp)).1, fun ht => ?_⟩
  obtain ⟨hstr, hsym⟩ := h.lt_shnum ht
  have hin := (h.shdr (Or.inl hstr)).1
  have hin' := (h.shdr (Or.inl hsym)).1
  obtain ⟨-, -, hoffset, hsize⟩ := c.shdr_fields
  exact ⟨has_of_le (by omega), has_of_le (by omega), has_of_le (by omega)⟩

/-- The fields of the two tables. -/
theorem WellFormed.table_fields (ht : HasTables c file) :
    strtab c file = val file (shAt c file (tables c file).1) c.shOffset ∧
      symCount c file = count c file (tables c file).2 ∧ ∀ i, sym c file i = symAt c file (tables c file).2 i := by
  obtain ⟨hstr, hsym⟩ := h.lt_shnum ht
  have hne : shnum c file ≠ 0 := by omega
  obtain ⟨-, -, hoffset, hsize⟩ := c.shdr_fields
  refine ⟨h.get_shdr (Or.inl hstr) hne hoffset, ?_, fun i => ?_⟩
  · rw [symCount, count, h.get_shdr (Or.inl hsym) hne hsize]
  · rw [sym, symAt, h.get_shdr (Or.inl hsym) hne hoffset]

/-- A symbol is in the file, and so is its name. -/
theorem WellFormed.symbol (ht : HasTables c file) {i : ℕ} (hi : i < symCount c file) :
    SymOk c file (strtab c file) (sym c file i) ∧
      symName c file (strtab c file) (sym c file i) = nameAt c file (tables c file).1 (tables c file).2 i ∧
      ∀ off, symValue c file off (sym c file i) =
        BitVec.ofNat 64 (val file (symAt c file (tables c file).2 i) c.stValue) + off := by
  have hsmall := file.small
  have htabs := h.tables_iff.1 ht
  obtain ⟨hstr, hcount, hsym⟩ := h.table_fields ht
  have hin := h.symtab _ _ htabs
  have hz := h.symNames _ _ htabs i (by rwa [← hcount])
  have hmul : (i + 1) * c.symSize ≤ val file (shAt c file (tables c file).2) c.shSize := by
    rw [hcount] at hi
    exact (Nat.mul_le_mul_right _ hi).trans (Nat.div_mul_le_self _ _)
  rw [Nat.succ_mul] at hmul
  have hlast : symAt c file (tables c file).2 i + c.symSize ≤ file.bytes.length := by
    rw [symAt]
    omega
  have hsize : c.stName.ofs + c.stName.size ≤ c.symSize ∧ c.stValue.ofs + c.stValue.size ≤ c.symSize := by
    cases c <;> decide
  have hname : get file (symAt c file (tables c file).2 i) c.stName =
      val file (symAt c file (tables c file).2 i) c.stName :=
    get_eq_val (by omega)
  have hvalue : get file (symAt c file (tables c file).2 i) c.stValue =
      val file (symAt c file (tables c file).2 i) c.stValue :=
    get_eq_val (by omega)
  rw [← hstr, ← hname] at hz
  obtain ⟨hterm, htext⟩ := terminated_of_mem hz
  rw [hsym]
  refine ⟨⟨has_of_le (by omega), hterm, has_of_le (by omega)⟩, ?_, fun off => ?_⟩
  · rw [symName, htext, nameAt, ← hstr, hname]
  · rw [symValue, hvalue]

/-- The fields of a program header. -/
theorem WellFormed.get_phdr {i : ℕ} {f : Field} (hi : i < phnum c file) (hf : f.ofs + f.size ≤ c.phdrSize) :
    get file (Elf.phdr c file i) f = val file (phAt c file i) f := by
  have hsmall := file.small
  obtain ⟨heq, hin⟩ := h.phdr hi
  rw [heq]
  exact get_eq_val (by omega)

end WellFormed

section Segments

variable (h : WellFormed c file)
include h

theorem WellFormed.segmentAt_in {i : ℕ} (hi : i < phnum c file) (hload : val file (phAt c file i) c.pType = 1) :
    segmentAt c file i ∈ Elf.segments c file ∧
      (segmentAt c file i).offset + (segmentAt c file i).filesz ≤ file.bytes.length ∧
      (segmentAt c file i).filesz ≤ (segmentAt c file i).memsz := by
  have hmem : segmentAt c file i ∈ Elf.segments c file := by
    rw [Elf.segments, List.mem_filterMap]
    exact ⟨i, List.mem_range.mpr (by rwa [← h.counts.1]), if_pos hload⟩
  exact ⟨hmem, h.segments _ hmem⟩

/-- What is read for a program header. -/
theorem WellFormed.phOk {i : ℕ} (hi : i < phnum c file) : PhOk c file (Elf.phdr c file i) := by
  have hsmall := file.small
  obtain ⟨heq, hin⟩ := h.phdr hi
  obtain ⟨htype, hoffset, hpaddr, hfilesz, hmemsz⟩ := c.phdr_fields
  refine ⟨has_of_le (by omega), fun hload =>
    ⟨has_of_le (by omega), fun _ => ⟨has_of_le (by omega), has_of_le (by omega),
    fun _ => ⟨has_of_le (by omega), ?_⟩⟩⟩⟩
  rw [h.get_phdr hi htype] at hload
  have hseg := (h.segmentAt_in hi hload).2.1
  rw [h.get_phdr hi hoffset, h.get_phdr hi hfilesz]
  have hlt : val file (phAt c file i) c.pOffset < 2 ^ 64 := by
    change (segmentAt c file i).offset < _
    omega
  rw [Inside, Nat.mod_eq_of_lt hlt]
  exact hseg

/-- A segment is loaded if it is of that type and takes memory. -/
theorem WellFormed.loadable_iff {i : ℕ} (hi : i < phnum c file) : Loadable c file (Elf.phdr c file i) ↔
    val file (phAt c file i) c.pType = 1 ∧ 0 < (segmentAt c file i).memsz := by
  obtain ⟨htype, -, -, -, hmemsz⟩ := c.phdr_fields
  rw [Loadable, h.get_phdr hi htype, h.get_phdr hi hmemsz]
  rfl

/-- The bytes and the zeros of a segment, in numbers of the file. -/
theorem WellFormed.padding_eq {i : ℕ} (hi : i < phnum c file) (hload : Loadable c file (Elf.phdr c file i)) :
    padding c file (Elf.phdr c file i) = (segmentAt c file i).memsz - (segmentAt c file i).filesz := by
  obtain ⟨-, -, -, hfilesz, hmemsz⟩ := c.phdr_fields
  have hle := (h.segmentAt_in hi ((h.loadable_iff hi).mp hload).1).2.2
  have hlt : (segmentAt c file i).memsz < 2 ^ c.bits := by
    have := num_lt file (phAt c file i + c.pMemsz.ofs) c.pMemsz.size
    cases c <;> exact this
  rw [padding, h.get_phdr hi hmemsz, h.get_phdr hi hfilesz]
  change ((segmentAt c file i).memsz + (2 ^ c.bits - (segmentAt c file i).filesz)) % 2 ^ c.bits = _
  rw [show (segmentAt c file i).memsz + (2 ^ c.bits - (segmentAt c file i).filesz) =
    (segmentAt c file i).memsz - (segmentAt c file i).filesz + 2 ^ c.bits by omega, Nat.add_mod_right,
    Nat.mod_eq_of_lt (by omega)]

omit h in
/-- A call that is made only if there is something to write. -/
theorem view_call (M : Memif σ) {n : ℕ} {a : BitVec 64} {bs : List UInt8} (t : σ) (hlen : bs.length = n)
    (hn : n ≤ 2 ^ 64) :
    M.view ((if 0 < n then [(a, bs)] else []).foldl (fun t x => M.write x.1 x.2 t) t) =
      splice (M.view t) a bs := by
  split_ifs with hpos
  · exact M.view_write a bs t (by omega)
  · rw [List.eq_nil_of_length_eq_zero (show bs.length = 0 by omega)]
    rfl

/-- The target's memory after the calls for one program header. -/
theorem WellFormed.view_calls {i : ℕ} (hi : i < phnum c file) (t : σ) :
    M.view ((calls c file off (Elf.phdr c file i)).foldl (fun t x => M.write x.1 x.2 t) t) =
      ((if val file (phAt c file i) c.pType = 1 then some (segmentAt c file i) else none).toList.foldl
        (fun m seg => splice m (BitVec.ofNat 64 seg.paddr + off) (seg.bytes file)) (M.view t)) := by
  have hsmall := file.small
  obtain ⟨htype, hoffset, hpaddr, hfilesz, hmemsz⟩ := c.phdr_fields
  have hiff := h.loadable_iff hi
  by_cases htype' : val file (phAt c file i) c.pType = 1
  swap
  · rw [calls, if_neg fun hl => htype' (hiff.mp hl).1, if_neg htype']
    rfl
  rw [if_pos htype']
  obtain ⟨-, hin, hle⟩ := h.segmentAt_in hi htype'
  have hmlt : (segmentAt c file i).memsz < 2 ^ 64 := by
    have := num_lt file (phAt c file i + c.pMemsz.ofs) c.pMemsz.size
    cases c
    · exact this.trans (by decide)
    · exact this
  change _ = splice (M.view t) _ ((segmentAt c file i).bytes file)
  by_cases hpos : 0 < (segmentAt c file i).memsz
  swap
  · have hnil : (segmentAt c file i).bytes file = [] := by
      rw [Segment.bytes, show (segmentAt c file i).filesz = 0 by omega,
        show (segmentAt c file i).memsz = 0 by omega]
      rfl
    rw [calls, if_neg fun hl => hpos (hiff.mp hl).2, hnil]
    rfl
  have hload := hiff.mpr ⟨htype', hpos⟩
  have hbytes : segBytes c file (Elf.phdr c file i) =
      (file.bytes.drop (segmentAt c file i).offset).take (segmentAt c file i).filesz := by
    rw [segBytes, h.get_phdr hi hoffset, h.get_phdr hi hfilesz]
    change (file.bytes.drop ((segmentAt c file i).offset % 2 ^ 64)).take _ = _
    rw [Nat.mod_eq_of_lt (by omega)]
    rfl
  have hlen : (segBytes c file (Elf.phdr c file i)).length = get file (Elf.phdr c file i) c.pFilesz := by
    rw [hbytes, h.get_phdr hi hfilesz]
    exact List.length_take_of_le (by rw [List.length_drop]; omega)
  have haddr : segAddr c file off (Elf.phdr c file i) = BitVec.ofNat 64 (segmentAt c file i).paddr + off := by
    rw [segAddr, h.get_phdr hi hpaddr]
    rfl
  have hfsz : get file (Elf.phdr c file i) c.pFilesz = (segmentAt c file i).filesz := h.get_phdr hi hfilesz
  have hpad := h.padding_eq hi hload
  rw [calls, if_pos hload, List.foldl_append, view_call M _ (List.length_replicate ..) (by omega),
    view_call M _ hlen (by omega), ← hlen, splice_append (by rw [hlen, List.length_replicate]; omega),
      haddr, hbytes, hpad]
  rfl

/-- The target's memory after the calls for `k` program headers, from the `i`-th on. -/
theorem WellFormed.view_callsFrom : ∀ (k i : ℕ) (t : σ), i + k ≤ phnum c file →
    M.view ((callsFrom c file off (get file 0 c.ePhoff) i k).foldl (fun t x => M.write x.1 x.2 t) t) =
      ((List.range' i k).filterMap fun i =>
        if val file (phAt c file i) c.pType = 1 then some (segmentAt c file i) else none).foldl
          (fun m seg => splice m (BitVec.ofNat 64 seg.paddr + off) (seg.bytes file)) (M.view t)
  | 0, _, _, _ => rfl
  | k + 1, i, t, hk => by
    have hone := @WellFormed.view_calls σ M file c off h i (by omega) t
    have hrest := WellFormed.view_callsFrom k (i + 1)
      ((calls c file off (Elf.phdr c file i)).foldl (fun t x => M.write x.1 x.2 t) t) (by omega)
    rw [callsFrom, List.foldl_append]
    refine hrest.trans ?_
    rw [hone, List.range'_succ, List.filterMap_cons]
    split_ifs <;> rfl

theorem WellFormed.view_image (t : σ) :
    M.view ((callsFrom c file off (get file 0 c.ePhoff) 0 (phnum c file)).foldl (fun t x => M.write x.1 x.2 t) t) =
      image c file off (M.view t) := by
  rw [h.view_callsFrom _ _ _ (by omega), image, Elf.segments, List.range_eq_range', h.counts.1]

end Segments

/-! ## Symbols -/

theorem insertFrom_iff {strtab symtab : ℕ} {name : List UInt8} {v : BitVec 64} : ∀ (k i : ℕ) (symbols : Symbols),
    insertFrom c file off strtab symtab i k symbols name = some v ↔
      (∃ j, i ≤ j ∧ j < i + k ∧ symName c file strtab (symtab + j * c.symSize) = name ∧
        v = symValue c file off (symtab + j * c.symSize) ∧
        ∀ l, j < l → l < i + k → symName c file strtab (symtab + l * c.symSize) ≠ name) ∨
      symbols name = some v ∧ ∀ j, i ≤ j → j < i + k → symName c file strtab (symtab + j * c.symSize) ≠ name
  | 0, i, symbols => by
    refine ⟨fun h => Or.inr ⟨h, fun j _ _ => by omega⟩, fun h => ?_⟩
    rcases h with ⟨j, h₁, h₂, -⟩ | h
    · omega
    · exact h.1
  | k + 1, i, symbols => by
    rw [insertFrom, insertFrom_iff k (i + 1)]
    by_cases hname : symName c file strtab (symtab + i * c.symSize) = name
    · rw [hname, Function.update_self]
      constructor
      · rintro (⟨j, h₁, h₂, h₃, h₄, h₅⟩ | ⟨hv, hno⟩)
        · exact Or.inl ⟨j, by omega, by omega, h₃, h₄, fun l hl hl' => h₅ l hl (by omega)⟩
        · refine Or.inl ⟨i, le_rfl, by omega, hname, (Option.some.inj hv).symm, fun l hl hl' =>
            hno l hl (by omega)⟩
      · rintro (⟨j, h₁, h₂, h₃, h₄, h₅⟩ | ⟨-, hno⟩)
        · rcases Nat.eq_or_lt_of_le h₁ with rfl | hlt
          · exact Or.inr ⟨by rw [h₄], fun l hl hl' => h₅ l (by omega) (by omega)⟩
          · exact Or.inl ⟨j, hlt, by omega, h₃, h₄, fun l hl hl' => h₅ l hl (by omega)⟩
        · exact absurd hname (hno i le_rfl (by omega))
    · rw [Function.update_of_ne (Ne.symm hname)]
      constructor
      · rintro (⟨j, h₁, h₂, h₃, h₄, h₅⟩ | ⟨hv, hno⟩)
        · exact Or.inl ⟨j, by omega, by omega, h₃, h₄, fun l hl hl' => h₅ l hl (by omega)⟩
        · refine Or.inr ⟨hv, fun j hj hj' => ?_⟩
          rcases Nat.eq_or_lt_of_le hj with rfl | hlt
          · exact hname
          · exact hno j hlt (by omega)
      · rintro (⟨j, h₁, h₂, h₃, h₄, h₅⟩ | ⟨hv, hno⟩)
        · rcases Nat.eq_or_lt_of_le h₁ with rfl | hlt
          · exact absurd h₃ hname
          · exact Or.inl ⟨j, hlt, by omega, h₃, h₄, fun l hl hl' => h₅ l hl (by omega)⟩
        · exact Or.inr ⟨hv, fun j hj hj' => hno j (by omega) (by omega)⟩

/-- The map of all symbols. -/
theorem WellFormed.isSymbols (h : WellFormed c file) (ht : HasTables c file) :
    IsSymbols c file off
      (insertFrom c file off (strtab c file) (get file (Elf.shdr c file (tables c file).2) c.shOffset) 0
      (symCount c file) fun _ => none) := by
  intro name v
  have hcount := (h.table_fields ht).2.1
  rw [insertFrom_iff, or_iff_left fun hc => absurd hc.1 (by simp)]
  constructor
  · rintro ⟨j, -, hj, hname, rfl, hlast⟩
    rw [Nat.zero_add] at hj hlast
    refine ⟨_, _, h.tables_iff.1 ht, j, by rwa [← hcount], ?_, (h.symbol ht hj).2.2 off, fun l hl hl' => ?_⟩
    · rw [← (h.symbol ht hj).2.1]
      exact hname
    · rw [← hcount] at hl'
      rw [← (h.symbol ht hl').2.1]
      exact hlast l hl hl'
  · rintro ⟨str, sec, htabs, j, hj, hname, rfl, hlast⟩
    obtain ⟨-, rfl, rfl⟩ := h.tables_iff.2 _ _ htabs
    rw [← hcount] at hj hlast
    refine ⟨j, Nat.zero_le _, by rwa [Nat.zero_add], ?_, ((h.symbol ht hj).2.2 off).symm, fun l hl hl' => ?_⟩
    · rw [← hname]
      exact (h.symbol ht hj).2.1
    · rw [Nat.zero_add] at hl'
      have hne := hlast l hl hl'
      rw [← (h.symbol ht hl').2.1] at hne
      exact hne

theorem WellFormed.isSymbols_none (h : WellFormed c file) (ht : ¬ HasTables c file) :
    IsSymbols c file off fun _ => none := by
  intro name v
  refine ⟨nofun, ?_⟩
  rintro ⟨str, sec, htabs, -⟩
  exact absurd (h.tables_iff.2 _ _ htabs).1 ht

/-! ## The whole file -/

section Whole

variable (h : WellFormed c file)
include h

theorem WellFormed.passes : Passes file checks := by
  have hlong : 52 ≤ file.bytes.length := by
    have := h.long
    cases c <;> simp only [Cls.ehdrSize] at this <;> omega
  have hbytes : file.bytes = [0x7f, 0x45, 0x4c, 0x46] ++ file.bytes.drop 4 := by
    rw [← h.magic, List.take_append_drop]
  have hin : ∀ ofs n, ofs < 2 ^ 64 → ofs + n ≤ 52 → Inside file ofs n := by
    intro ofs n hofs hn
    rw [Inside, Nat.mod_eq_of_lt hofs]
    omega
  have hnum : num file 0 1 = 0x7f ∧ num file 1 1 = 0x45 ∧ num file 2 1 = 0x4c ∧ num file 3 1 = 0x46 := by
    unfold num
    rw [hbytes]
    exact ⟨rfl, rfl, rfl, rfl⟩
  obtain ⟨h0, h1, h2, h3⟩ := hnum
  have hone : ∀ {x v : ℕ}, x = v → x ∈ [v] := fun h => List.mem_singleton.mpr h
  have hcls : num file 4 1 ∈ [1, 2] := by
    rw [h.cls]
    split_ifs <;> simp
  refine ⟨hin _ _ (by omega) (by omega), hone h0, hin _ _ (by omega) (by omega), hone h1,
    hin _ _ (by omega) (by omega),
    hone h2, hin _ _ (by omega) (by omega), hone h3, hin _ _ (by omega) (by omega), hcls,
      hin _ _ (by omega) (by omega),
    hone h.data, hin _ _ (by omega) (by omega), ?_, hin _ _ (by omega) (by omega), ?_,
      hin _ _ (by omega) (by omega),
    hone h.version, trivial⟩
  · rw [List.mem_pair]
    exact h.type
  · rw [List.mem_pair]
    exact Or.inl h.machine

theorem WellFormed.cls_eq : Elf.cls file = c := by
  rw [Elf.cls, h.cls]
  cases c <;> rfl

/-- The entry point is read right exactly where the 64-bit header is. -/
theorem WellFormed.entry_iff : entryOf file off = BitVec.ofNat 64 (val file 0 c.eEntry) + offsetOf file off ↔
    c = .elf64 ∨ val file 0 c.ePhoff = 0 := by
  have hlong := h.long
  rw [entryOf, add_left_inj]
  cases c with
  | elf64 => exact ⟨fun _ => Or.inl rfl, fun _ => rfl⟩
  | elf32 =>
    -- the eight bytes are those of `e_entry` and of `e_phoff`
    have hsplit : (file.bytes.drop 24).take 8 = (file.bytes.drop 24).take 4 ++ (file.bytes.drop 28).take 4 := by
      rw [show (8 : ℕ) = 4 + 4 from rfl, List.take_add, List.drop_drop]
    have hlen : ((file.bytes.drop 24).take 4).length = 4 := by
      rw [List.length_take, List.length_drop]
      simp only [Cls.ehdrSize] at hlong
      omega
    have hget :
        get file 0 Cls.elf64.eEntry = val file 0 Cls.elf32.eEntry + 256 ^ 4 * val file 0 Cls.elf32.ePhoff := by
      change leNat ((file.bytes.drop 24).take 8) = _
      rw [hsplit, leNat_append, hlen]
      rfl
    have he : val file 0 Cls.elf32.eEntry < 256 ^ 4 := num_lt file 24 4
    have hp : val file 0 Cls.elf32.ePhoff < 256 ^ 4 := num_lt file 28 4
    rw [hget]
    constructor
    · intro heq
      have hnat := congrArg BitVec.toNat heq
      rw [BitVec.toNat_ofNat, BitVec.toNat_ofNat, Nat.mod_eq_of_lt (by omega), Nat.mod_eq_of_lt (by omega)] at hnat
      exact Or.inr (by omega)
    · rintro (hc | hz)
      · cases hc
      · rw [hz, Nat.mul_zero, Nat.add_zero]

/-- The host has room for the zeros of all segments. -/
theorem WellFormed.rooms_iff : (∀ i < phnum c file, RoomFor host c file (Elf.phdr c file i)) ↔
    ∀ seg ∈ Elf.segments c file, 0 < seg.memsz - seg.filesz → host.room (seg.memsz - seg.filesz) = true := by
  constructor
  · intro hroom seg hseg hpos
    rw [Elf.segments, List.mem_filterMap] at hseg
    obtain ⟨i, hi, hsome⟩ := hseg
    rw [List.mem_range, ← h.counts.1] at hi
    split_ifs at hsome with htype
    obtain rfl := Option.some.inj hsome
    have hl := (h.loadable_iff hi).mpr ⟨htype, by omega⟩
    have hfits := hroom i hi hl
    rw [h.padding_eq hi hl] at hfits
    exact hfits hpos
  · intro hroom i hi hl
    rw [h.padding_eq hi hl]
    exact hroom _ (h.segmentAt_in hi ((h.loadable_iff hi).mp hl).1).1

/-- The loader on a well-formed file, down to its loops. -/
theorem WellFormed.loadBuffer_eq {fuel : ℕ} {s : St σ} : loadBuffer M host file off fuel s =
    (do
      processProgramHeaders M host file c (offsetOf file off) (get file 0 c.ePhoff) 0 (phnum c file)
      symbolTable file c (offsetOf file off) fuel (get file 0 c.eShoff) (names c file) : Load σ Symbols)
      { s with entryPoint := entryOf file off } := by
  have hentry : Has file 0 Cls.elf64.eEntry := by
    have hlong := h.long
    refine has_of_le ?_
    cases c <;> simp only [Cls.ehdrSize] at hlong <;> simp only [Cls.eEntry] <;> omega
  rw [Elf.loadBuffer_eq h.passes hentry, h.cls_eq, loadTables_eq h.headerOk]

/-- What holds if the loader returns. -/
theorem WellFormed.wp_loadBuffer {fuel : ℕ} {s : St σ} : Wp (loadBuffer M host file off fuel) s
    (fun _ s' => s'.entryPoint = entryOf file off ∧ (∀ i < phnum c file, RoomFor host c file (Elf.phdr c file i)) ∧
      (HasTables c file → symCount c file < 2 ^ 32)) (fun _ _ => True) := by
  refine Wp.of_eq h.loadBuffer_eq ?_
  rw [wp_bind]
  refine wp_processProgramHeaders _ _ _ (fun hall => ?_) (fun _ _ _ _ _ _ _ => trivial) fun _ _ _ _ _ _ => trivial
  have hroom : ∀ i < phnum c file, RoomFor host c file (Elf.phdr c file i) := fun i hi =>
    (hall i (Nat.zero_le _) (by omega)).2
  by_cases ht : HasTables c file
  · refine Wp.of_eq (symbolTable_some h.headerOk h.sectionsOk ht) ?_
    by_cases hcount : symCount c file < 2 ^ 32
    · refine (insertSymbols_inside _ _ _ _ (by omega) fun j hj _ => (h.symbol ht hj).1).mono ?_
        fun _ _ _ => trivial
      rintro _ s' rfl
      exact ⟨rfl, hroom, fun _ => hcount⟩
    · exact (insertSymbols_forever (by omega) _ _ _ _ (by omega)).mono (fun _ _ hf => hf.elim) fun _ _ _ => trivial
  · refine Wp.of_eq (symbolTable_none h.headerOk h.sectionsOk ht) ?_
    exact ⟨rfl, hroom, fun hc => absurd hc ht⟩

/-- What the loader does if it has the room and can count. -/
theorem WellFormed.loadBuffer_ok {s : St σ} (hroom : ∀ i < phnum c file, RoomFor host c file (Elf.phdr c file i))
    (hcount : HasTables c file → symCount c file < 2 ^ 32) :
    ∃ symbols s', loadBuffer M host file off (symCount c file + 1) s = .ok symbols s' ∧
      s'.entryPoint = entryOf file off ∧ M.view s'.target = image c file (offsetOf file off) (M.view s.target) ∧
      IsSymbols c file (offsetOf file off) symbols := by
  apply Wp.exists_ok
  refine Wp.of_eq h.loadBuffer_eq ?_
  rw [wp_bind]
  refine wp_processProgramHeaders _ _ _ (fun _ => ?_) (fun j _ hj _ _ hno => ?_) fun j _ hj _ hno => ?_
  · by_cases ht : HasTables c file
    · refine Wp.of_eq ((symbolTable_some h.headerOk h.sectionsOk ht).trans (insertSymbols_ok (hcount ht) _ _ _ _
        (Nat.zero_add _) (by omega) fun j _ hj => (h.symbol ht hj).1)) ?_
      exact ⟨rfl, h.view_image _, h.isSymbols ht⟩
    · refine Wp.of_eq (symbolTable_none h.headerOk h.sectionsOk ht) ?_
      exact ⟨rfl, h.view_image _, h.isSymbols_none ht⟩
  · exact absurd (hroom j (by omega)) hno
  · exact absurd (h.phOk (by omega)) hno

end Whole

/-- `load_elf` returns, and the memory, the entry point and the symbols are right. -/
def Loads (M : Memif σ) (host : Host) (c : Cls) (file : File) (off : BitVec 64) (filename : String)
    (s : St σ) : Prop :=
  ∃ fuel symbols s', loadElf M host off filename (.buffer file) fuel s = .ok symbols s' ∧
    M.view s'.target = image c file (offsetOf file off) (M.view s.target) ∧
    s'.entryPoint = BitVec.ofNat 64 (val file 0 c.eEntry) + offsetOf file off ∧
    IsSymbols c file (offsetOf file off) symbols

/-- **`load_elf` on a well-formed file.** -/
theorem loads_iff (h : WellFormed c file) (M : Memif σ) (host : Host) (off : BitVec 64)
    (filename : String) (s : St σ) :
    Loads M host c file off filename s ↔
      (c = .elf64 ∨ val file 0 c.ePhoff = 0) ∧
      (∀ seg ∈ segments c file, 0 < seg.memsz - seg.filesz → host.room (seg.memsz - seg.filesz) = true) ∧
      ∀ str sec, IsTables c file str sec → count c file sec < 2 ^ 32 := by
  have hcount : (HasTables c file → symCount c file < 2 ^ 32) ↔
      ∀ str sec, IsTables c file str sec → count c file sec < 2 ^ 32 := by
    constructor
    · intro hc str sec ht
      obtain ⟨htabs, -, rfl⟩ := h.tables_iff.2 _ _ ht
      rw [← (h.table_fields htabs).2.1]
      exact hc htabs
    · intro hc ht
      rw [(h.table_fields ht).2.1]
      exact hc _ _ (h.tables_iff.1 ht)
  rw [← hcount, ← h.rooms_iff]
  constructor
  · rintro ⟨fuel, symbols, s', hrun, -, hentry, -⟩
    obtain ⟨hentry', hroom, hc⟩ := h.wp_loadBuffer.ok hrun
    exact ⟨h.entry_iff.mp (hentry'.symm.trans hentry), hroom, hc⟩
  · rintro ⟨hcls, hroom, hc⟩
    obtain ⟨symbols, s', hrun, hentry, hview, hsym⟩ := @WellFormed.loadBuffer_ok σ M host file c off h s hroom hc
    exact ⟨_, symbols, s', hrun, hview, hentry.trans (h.entry_iff.mpr hcls), hsym⟩

/-! ## Two files -/

/-- The header of an executable with one program header after it. -/
def ehdrOf (c : Cls) (entry shoff shnum shstrndx : ℕ) : List UInt8 :=
  [0x7f, 0x45, 0x4c, 0x46, if c = .elf32 then 1 else 2, 1, 1] ++ List.replicate 9 0 ++
    leBytes 2 2 ++ leBytes 2 243 ++
    leBytes 4 1 ++ [entry, c.ehdrSize, shoff].flatMap (leBytes (c.bits / 8)) ++ leBytes 4 0 ++
    [c.ehdrSize, c.phdrSize, 1, c.shdrSize, shnum, shstrndx].flatMap (leBytes 2)

/-- A program header of type `PT_LOAD`. -/
def phdrOf (c : Cls) (seg : Segment) : List UInt8 :=
  leBytes 4 1 ++ (if c = .elf32 then [] else leBytes 4 5) ++
    [seg.offset, seg.paddr, seg.paddr, seg.filesz, seg.memsz].flatMap (leBytes (c.bits / 8)) ++
    (if c = .elf32 then leBytes 4 5 else []) ++ leBytes (c.bits / 8) 4

/-- A section header of a 64-bit file. -/
def shdrOf (name type offset size : ℕ) : List UInt8 :=
  leBytes 4 name ++ leBytes 4 type ++ leBytes 8 0 ++ leBytes 8 0 ++ leBytes 8 offset ++
    leBytes 8 size ++ leBytes 24 0

/-- Four bytes of code, four zeros and the symbol `main`. -/
def main64 : File where
  bytes := ehdrOf .elf64 0x80000000 200 3 1 ++ phdrOf .elf64 ⟨0x80000000, 120, 4, 8⟩ ++ [0x73, 0, 0x10, 0] ++
    ([0] ++ strtabName ++ symtabName ++ [0x6d, 0x61, 0x69, 0x6e, 0]) ++ List.replicate 6 0 ++
    List.replicate 24 0 ++ (leBytes 4 17 ++ leBytes 4 0 ++ leBytes 8 0x80000000 ++ leBytes 8 0) ++
    List.replicate 64 0 ++ shdrOf 1 3 124 22 ++ shdrOf 9 2 152 48
  small := by decide +kernel

theorem main64_tables {str sec : ℕ} (h : IsTables .elf64 main64 str sec) : str = 1 ∧ sec = 2 := by
  have hnum : val main64 0 Cls.elf64.eShnum = 3 := by decide
  have hone : ∀ i < 3, 0 < i → secName .elf64 main64 i = strtabName.dropLast → i = 1 := by decide
  have htwo : ∀ i < 3, 0 < i → secName .elf64 main64 i = symtabName.dropLast → i = 2 := by decide
  obtain ⟨⟨hpos, hlt, -, hname⟩, -⟩ := h.str
  obtain ⟨⟨hpos', hlt', -, hname'⟩, -⟩ := h.sym
  rw [hnum] at hlt hlt'
  exact ⟨hone str hlt hpos hname, htwo sec hlt' hpos' hname'⟩

theorem main64_wellFormed : WellFormed .elf64 main64 where
  long := by decide +kernel
  magic := by decide
  cls := by decide
  data := by decide
  type := by decide
  machine := by decide
  version := by decide
  phentsize := by decide
  phdrs := by decide +kernel
  segments := by decide +kernel
  shentsize := by decide
  shdrs := by decide +kernel
  shstrndx := by decide +kernel
  secNames := by decide
  symtab := by
    intro str sec h
    obtain ⟨rfl, rfl⟩ := main64_tables h
    decide +kernel
  symNames := by
    intro str sec h
    obtain ⟨rfl, rfl⟩ := main64_tables h
    decide

/-- A target that is its memory. -/
def direct : Memif (Mem 64) where
  view := id
  write := fun addr bytes m => splice m addr bytes
  view_write := fun _ _ _ _ => rfl

def blank : St (Mem 64) := { target := fun _ => 0, writes := [], entryPoint := 0 }

/-- The 64-bit file is loaded. -/
theorem main64_loads : WellFormed .elf64 main64 ∧ Loads direct roomy .elf64 main64 0 "main" blank := by
  refine ⟨main64_wellFormed, (loads_iff main64_wellFormed direct roomy 0 "main" blank).mpr ⟨Or.inl rfl, ?_, ?_⟩⟩
  · decide
  · intro str sec h
    obtain ⟨rfl, rfl⟩ := main64_tables h
    decide

/-- The same code in a 32-bit file without sections. -/
def main32 : File where
  bytes := ehdrOf .elf32 0x80000000 0 0 0 ++ phdrOf .elf32 ⟨0x80000000, 84, 4, 8⟩ ++ [0x73, 0, 0x10, 0]
  small := by decide

theorem main32_tables {str sec : ℕ} (h : IsTables .elf32 main32 str sec) : False := by
  have hnum : val main32 0 Cls.elf32.eShnum = 0 := by decide
  have hlt := h.str.1.2.1
  omega

theorem main32_wellFormed : WellFormed .elf32 main32 where
  long := by decide
  magic := by decide
  cls := by decide
  data := by decide
  type := by decide
  machine := by decide
  version := by decide
  phentsize := by decide
  phdrs := by decide
  segments := by decide
  shentsize := by decide
  shdrs := by decide
  shstrndx := by decide
  secNames := by decide
  symtab := fun _ _ h => (main32_tables h).elim
  symNames := fun _ _ h => (main32_tables h).elim

/-- The entry point of the 32-bit file is taken for `0x3480000000`. -/
theorem main32_entry : WellFormed .elf32 main32 ∧ val main32 0 Cls.elf32.eEntry = 0x80000000 ∧
    entryOf main32 0 = 0x3480000000 ∧ ¬ Loads direct roomy .elf32 main32 0 "main" blank := by
  refine ⟨main32_wellFormed, by decide, by decide, ?_⟩
  rintro ⟨fuel, symbols, s', hrun, -, hentry, -⟩
  have hentry' := (main32_wellFormed.wp_loadBuffer.ok hrun).1
  rcases main32_wellFormed.entry_iff.mp (hentry'.symm.trans hentry) with hc | hz
  · cases hc
  · exact absurd hz (by decide)

end Soceteer.Elf
