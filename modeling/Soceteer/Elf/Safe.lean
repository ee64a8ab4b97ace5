import Soceteer.Elf.Correct

/-!
# Soceteer.Elf.Safe — `load_elf` on any file

* `Safe`: a run throws, or it reads inside the buffer and writes inside segments only.
* `Sound`: the header, the segments, the sections and the symbols that a run comes to are in the buffer, and a
  segment whose `p_memsz` is less than its `p_filesz` lies with its zeros in other segments.
* `inside_iff`: a file is safe exactly when the checks refuse it or it is sound.
-/

namespace Soceteer.Elf

open Soceteer.Lib

variable {σ : Type} {M : Memif σ} {host : Host} {file : File} {c : Cls} {off : BitVec 64}

/-! ## The property -/

/-- Each write is in a segment. -/
def Within (c : Cls) (file : File) (off : BitVec 64) (writes : List (BitVec 64 × ℕ)) : Prop :=
  ∀ w ∈ writes, ∃ i < phnum c file, get file (phdr c file i) c.pType = 1 ∧
    ∀ x ∈ range w.1 w.2, x ∈ range (segAddr c file off (phdr c file i)) (get file (phdr c file i) c.pMemsz)

/-- Every run throws, or stays inside the buffer and writes inside segments. -/
def Safe (M : Memif σ) (file : File) : Prop :=
  ∀ (host : Host) (off : BitVec 64) (filename : String) (fuel : ℕ) (s : St σ), s.writes = [] →
    Wp (loadElf M host off filename (.buffer file) fuel) s
      (fun _ s' => Within (cls file) file (offsetOf file off) s'.writes)
      (fun e s' => e.Thrown ∨ e = .running ∧ Within (cls file) file (offsetOf file off) s'.writes)

/-! ## The condition -/

/-- The zeros after a segment are more than any vector can hold. -/
def Aborts (c : Cls) (file : File) (ph : ℕ) : Prop := Loadable c file ph ∧ 2 ^ 63 ≤ padding c file ph

/-- The addresses from `lo` to `hi` are in one segment. -/
def Spanned (c : Cls) (file : File) (lo hi : ℕ) : Prop :=
  ∃ j < phnum c file, get file (phdr c file j) c.pType = 1 ∧ get file (phdr c file j) c.pPaddr ≤ lo ∧
    hi ≤ get file (phdr c file j) c.pPaddr + get file (phdr c file j) c.pMemsz

/-- For a segment with `p_memsz < p_filesz`, the bytes and the zeros that are written lie in segments. -/
def Covered (c : Cls) (file : File) : Prop :=
  ∀ i < phnum c file, Loadable c file (phdr c file i) →
    get file (phdr c file i) c.pMemsz < get file (phdr c file i) c.pFilesz →
    Spanned c file (get file (phdr c file i) c.pPaddr)
      (get file (phdr c file i) c.pPaddr + get file (phdr c file i) c.pFilesz) ∧
    Spanned c file (get file (phdr c file i) c.pPaddr + get file (phdr c file i) c.pFilesz)
      (get file (phdr c file i) c.pPaddr + get file (phdr c file i) c.pMemsz + 2 ^ 32)

/-- The symbols that the loop comes to are in the buffer. -/
def SymbolsOk (c : Cls) (file : File) : Prop :=
  HasTables c file → ∀ i, i < symCount c file → i < 2 ^ 32 → SymOk c file (strtab c file) (sym c file i)

/-- What a run comes to is in the buffer. -/
structure Sound (c : Cls) (file : File) : Prop where
  header : HeaderOk c file
  segments : ∀ i < phnum c file, (∀ j < i, ¬ Aborts c file (phdr c file j)) → PhOk c file (phdr c file i)
  rest : (∀ i < phnum c file, ¬ Aborts c file (phdr c file i)) →
    Covered c file ∧ SectionsOk c file ∧ SymbolsOk c file

/-! ## Ranges of addresses -/

/-- An address of a range, as a distance from its start. -/
theorem mem_range_iff {p n : ℕ} (hn : n ≤ 2 ^ 64) {x : BitVec 64} :
    x ∈ range (BitVec.ofNat 64 p + off) n ↔ ∃ d < n, x = BitVec.ofNat 64 (p + d) + off := by
  rw [mem_range]
  constructor
  · intro hx
    refine ⟨_, hx, ?_⟩
    rw [BitVec.ofNat_add, BitVec.ofNat_toNat, BitVec.setWidth_eq]
    ring
  · rintro ⟨d, hd, rfl⟩
    have hdist : BitVec.ofNat 64 (p + d) + off - (BitVec.ofNat 64 p + off) = BitVec.ofNat 64 d := by
      rw [BitVec.ofNat_add]
      ring
    rw [hdist, BitVec.toNat_ofNat, Nat.mod_eq_of_lt (by omega)]
    exact hd

theorem range_subset {p q n m : ℕ} (hle : q ≤ p) (hend : p + n ≤ q + m) (hm : m ≤ 2 ^ 64) :
    ∀ x ∈ range (BitVec.ofNat 64 p + off) n, x ∈ range (BitVec.ofNat 64 q + off) m := by
  intro x hx
  obtain ⟨d, hd, rfl⟩ := (mem_range_iff (by omega)).mp hx
  refine (mem_range_iff hm).mpr ⟨p - q + d, by omega, ?_⟩
  rw [← Nat.add_assoc, Nat.add_sub_cancel' hle]

/-- Where no range wraps, one range is in another as an interval is. -/
theorem le_of_range_subset {p q n m : ℕ} (hpos : 0 < n) (hp : p + n ≤ 2 ^ 64) (hq : q + m ≤ 2 ^ 64)
    (h : ∀ x ∈ range (BitVec.ofNat 64 p + off) n, x ∈ range (BitVec.ofNat 64 q + off) m) :
      q ≤ p ∧ p + n ≤ q + m := by
  have hin : ∀ d < n, ∃ e < m, p + d = q + e := by
    intro d hd
    obtain ⟨e, he, heq⟩ := (mem_range_iff (by omega)).mp (h _ ((mem_range_iff (by omega)).mpr ⟨d, hd, rfl⟩))
    have hnat := congrArg BitVec.toNat (add_right_cancel heq)
    rw [BitVec.toNat_ofNat, BitVec.toNat_ofNat, Nat.mod_eq_of_lt (by omega), Nat.mod_eq_of_lt (by omega)] at hnat
    exact ⟨e, he, hnat⟩
  obtain ⟨e, he, hfirst⟩ := hin 0 hpos
  obtain ⟨e', he', hlast⟩ := hin (n - 1) (by omega)
  omega

theorem get_lt {ofs : ℕ} {f : Field} (hf : f.size ≤ c.bits / 8) : get file ofs f < 2 ^ c.bits := by
  have hlt := num_lt file ((ofs + f.ofs) % 2 ^ 64) f.size
  have hle : (256 : ℕ) ^ f.size ≤ 256 ^ (c.bits / 8) := Nat.pow_le_pow_right (by omega) hf
  have hbits : (256 : ℕ) ^ (c.bits / 8) = 2 ^ c.bits := by cases c <;> decide
  exact hlt.trans_le (hle.trans_eq hbits)

/-- The sizes of a segment are numbers of the class. -/
theorem sizes_lt (ph : ℕ) : get file ph c.pPaddr < 2 ^ c.bits ∧ get file ph c.pFilesz < 2 ^ c.bits ∧
    get file ph c.pMemsz < 2 ^ c.bits := by
  refine ⟨get_lt ?_, get_lt ?_, get_lt ?_⟩ <;> cases c <;> decide

theorem bits_le : 2 ^ c.bits ≤ 2 ^ 64 := by cases c <;> decide

section Segments

variable {ph : ℕ}

/-- The zeros, where there are as many as there should be. -/
theorem padding_of_le (hle : get file ph c.pFilesz ≤ get file ph c.pMemsz) :
    padding c file ph = get file ph c.pMemsz - get file ph c.pFilesz := by
  obtain ⟨-, hfilesz, hmemsz⟩ := @sizes_lt file c ph
  rw [padding, show get file ph c.pMemsz + (2 ^ c.bits - get file ph c.pFilesz) =
    get file ph c.pMemsz - get file ph c.pFilesz + 2 ^ c.bits by
      omega, Nat.add_mod_right, Nat.mod_eq_of_lt (by omega)]

/-- The zeros, where the difference wraps. -/
theorem padding_of_lt (hlt : get file ph c.pMemsz < get file ph c.pFilesz) :
    padding c file ph = get file ph c.pMemsz + 2 ^ c.bits - get file ph c.pFilesz := by
  obtain ⟨-, hfilesz, hmemsz⟩ := @sizes_lt file c ph
  rw [padding, Nat.mod_eq_of_lt (by omega)]
  omega

theorem PhOk.filesz_le (h : PhOk c file ph) (hl : Loadable c file ph) :
    get file ph c.pFilesz ≤ file.bytes.length := by
  by_cases hpos : 0 < get file ph c.pFilesz
  · have hin := (((h.2 hl.1).2 hl.2).2.2 hpos).2
    unfold Inside at hin
    omega
  · omega

/-- A segment that does not abort, with `p_memsz < p_filesz`, is one of a 32-bit file. -/
theorem bits_of_lt (h : PhOk c file ph) (hl : Loadable c file ph) (hno : ¬ Aborts c file ph)
    (hlt : get file ph c.pMemsz < get file ph c.pFilesz) : c.bits = 32 := by
  have hsmall := file.small
  have hle := h.filesz_le hl
  have hpad := padding_of_lt hlt
  cases c with
  | elf32 => rfl
  | elf64 =>
    refine absurd ⟨hl, ?_⟩ hno
    rw [hpad]
    change 2 ^ 63 ≤ _ + 2 ^ 64 - _
    omega

theorem length_segBytes (h : PhOk c file ph) (hl : Loadable c file ph) :
    (segBytes c file ph).length = get file ph c.pFilesz := by
  by_cases hpos : 0 < get file ph c.pFilesz
  · have hin := (((h.2 hl.1).2 hl.2).2.2 hpos).2
    unfold Inside at hin
    exact List.length_take_of_le (by rw [List.length_drop]; omega)
  · rw [segBytes, show get file ph c.pFilesz = 0 by omega]
    rfl

theorem calls_second_addr : segAddr c file off ph + BitVec.ofNat 64 (get file ph c.pFilesz) =
    BitVec.ofNat 64 (get file ph c.pPaddr + get file ph c.pFilesz) + off := by
  rw [segAddr, BitVec.ofNat_add]
  ring

/-- What is written for a segment: its bytes, and the zeros after them. -/
theorem mem_calls {w : BitVec 64 × List UInt8} : w ∈ calls c file off ph ↔ Loadable c file ph ∧
    (0 < get file ph c.pFilesz ∧ w = (segAddr c file off ph, segBytes c file ph) ∨
      0 < padding c file ph ∧ w = (BitVec.ofNat 64 (get file ph c.pPaddr + get file ph c.pFilesz) + off,
        List.replicate (padding c file ph) 0)) := by
  have hopt : ∀ (n : ℕ) (v : BitVec 64 × List UInt8), w ∈ (if 0 < n then [v] else []) ↔ 0 < n ∧ w = v := by
    intro n v
    split_ifs with hpos <;> simp [hpos]
  rw [calls, ← calls_second_addr]
  by_cases hl : Loadable c file ph
  · rw [if_pos hl, List.mem_append, hopt, hopt, and_iff_right hl]
  · rw [if_neg hl]
    exact ⟨fun h => absurd h List.not_mem_nil, fun h => absurd h.1 hl⟩

end Segments

/-- The calls for the program headers. -/
theorem mem_callsFrom {phoff : ℕ} {w : BitVec 64 × List UInt8} : ∀ k i : ℕ,
    w ∈ callsFrom c file off phoff i k ↔ ∃ j, i ≤ j ∧ j < i + k ∧ w ∈ calls c file off (phoff + j * c.phdrSize)
  | 0, i => ⟨nofun, fun ⟨j, h₁, h₂, _⟩ => by omega⟩
  | k + 1, i => by
    rw [callsFrom, List.mem_append, mem_callsFrom k (i + 1)]
    constructor
    · rintro (h | ⟨j, h₁, h₂, h⟩)
      · exact ⟨i, le_rfl, by omega, h⟩
      · exact ⟨j, by omega, by omega, h⟩
    · rintro ⟨j, h₁, h₂, h⟩
      rcases Nat.eq_or_lt_of_le h₁ with rfl | hlt
      · exact Or.inl h
      · exact Or.inr ⟨j, hlt, by omega, h⟩

section Writes

/-- The writes made for the program headers. -/
def writesOf (c : Cls) (file : File) (off : BitVec 64) : List (BitVec 64 × ℕ) :=
  (callsFrom c file off (get file 0 c.ePhoff) 0 (phnum c file)).map fun x => (x.1, x.2.length)

/-- The writes that are made are those of the segments. -/
theorem mem_writesOf (hok : ∀ i < phnum c file, PhOk c file (phdr c file i)) {w : BitVec 64 × ℕ} :
    w ∈ writesOf c file off ↔ ∃ i < phnum c file, Loadable c file (phdr c file i) ∧
      (0 < get file (phdr c file i) c.pFilesz ∧
          w = (BitVec.ofNat 64 (get file (phdr c file i) c.pPaddr) + off, get file (phdr c file i) c.pFilesz) ∨
        0 < padding c file (phdr c file i) ∧
          w = (BitVec.ofNat 64 (get file (phdr c file i) c.pPaddr + get file (phdr c file i) c.pFilesz) + off,
            padding c file (phdr c file i))) := by
  rw [writesOf, List.mem_map]
  constructor
  · rintro ⟨v, hv, rfl⟩
    obtain ⟨i, -, hi, hmem⟩ := (mem_callsFrom _ _).mp hv
    rw [Nat.zero_add] at hi
    obtain ⟨hl, ⟨hpos, rfl⟩ | ⟨hpos, rfl⟩⟩ := mem_calls.mp hmem
    · exact ⟨i, hi, hl, Or.inl ⟨hpos, Prod.ext rfl (length_segBytes (hok i hi) hl)⟩⟩
    · exact ⟨i, hi, hl, Or.inr ⟨hpos, Prod.ext rfl List.length_replicate⟩⟩
  · rintro ⟨i, hi, hl, ⟨hpos, rfl⟩ | ⟨hpos, rfl⟩⟩
    · refine ⟨_, (mem_callsFrom _ _).mpr ⟨i, Nat.zero_le _, by omega, mem_calls.mpr ⟨hl, Or.inl ⟨hpos, rfl⟩⟩⟩, ?_⟩
      exact Prod.ext rfl (length_segBytes (hok i hi) hl)
    · refine ⟨_, (mem_callsFrom _ _).mpr ⟨i, Nat.zero_le _, by omega, mem_calls.mpr ⟨hl, Or.inr ⟨hpos, rfl⟩⟩⟩, ?_⟩
      exact Prod.ext rfl List.length_replicate

/-- In a 32-bit file a write in a segment is an interval in one. -/
theorem spanned_iff {p n : ℕ} (h32 : c.bits = 32) (hpos : 0 < n) (hp : p + n ≤ 2 ^ 64) :
    (∃ i < phnum c file, get file (phdr c file i) c.pType = 1 ∧ ∀ x ∈ range (BitVec.ofNat 64 p + off) n,
      x ∈ range (segAddr c file off (phdr c file i)) (get file (phdr c file i) c.pMemsz)) ↔
        Spanned c file p (p + n) := by
  have hsizes : ∀ i, get file (phdr c file i) c.pPaddr < 2 ^ 32 ∧ get file (phdr c file i) c.pMemsz < 2 ^ 32 := by
    intro i
    rw [← h32]
    exact ⟨(sizes_lt _).1, (sizes_lt _).2.2⟩
  constructor
  · rintro ⟨i, hi, htype, hsub⟩
    obtain ⟨hpaddr, hmemsz⟩ := hsizes i
    exact ⟨i, hi, htype, le_of_range_subset hpos hp (by omega) hsub⟩
  · rintro ⟨i, hi, htype, hle, hend⟩
    obtain ⟨-, hmemsz⟩ := hsizes i
    exact ⟨i, hi, htype, range_subset hle hend (by omega)⟩

/-- The writes are in segments exactly when those for segments that wrap are. -/
theorem within_iff (hok : ∀ i < phnum c file, PhOk c file (phdr c file i))
    (hno : ∀ i < phnum c file, ¬ Aborts c file (phdr c file i)) :
    Within c file off (writesOf c file off) ↔ Covered c file := by
  have hwrap : ∀ i < phnum c file, Loadable c file (phdr c file i) →
      get file (phdr c file i) c.pMemsz < get file (phdr c file i) c.pFilesz →
      c.bits = 32 ∧ get file (phdr c file i) c.pPaddr < 2 ^ 32 ∧ get file (phdr c file i) c.pFilesz < 2 ^ 32 ∧
        get file (phdr c file i) c.pFilesz + padding c file (phdr c file i) =
          get file (phdr c file i) c.pMemsz + 2 ^ 32 := by
    intro i hi hl hlt
    have h32 := bits_of_lt (hok i hi) hl (hno i hi) hlt
    obtain ⟨hpaddr, hfilesz, -⟩ := @sizes_lt file c (phdr c file i)
    have hpad := padding_of_lt hlt
    rw [h32] at hpaddr hfilesz hpad
    exact ⟨h32, hpaddr, hfilesz, by omega⟩
  constructor
  · intro hw i hi hl hlt
    obtain ⟨h32, hpaddr, hfilesz, hsum⟩ := hwrap i hi hl hlt
    have hbytes := hw _ ((mem_writesOf hok).mpr ⟨i, hi, hl, Or.inl ⟨by omega, rfl⟩⟩)
    have hzeros := hw _ ((mem_writesOf hok).mpr ⟨i, hi, hl, Or.inr ⟨by omega, rfl⟩⟩)
    refine ⟨(spanned_iff h32 (by omega) (by omega)).mp hbytes, ?_⟩
    have hspan := (spanned_iff h32 (by omega) (by omega)).mp hzeros
    rwa [Nat.add_assoc, hsum, ← Nat.add_assoc] at hspan
  · intro hc w hw
    obtain ⟨i, hi, hl, hcase⟩ := (mem_writesOf hok).mp hw
    have hmemsz := (@sizes_lt file c (phdr c file i)).2.2.trans_le bits_le
    rcases Nat.lt_or_ge (get file (phdr c file i) c.pMemsz) (get file (phdr c file i) c.pFilesz) with hlt | hge
    · obtain ⟨h32, hpaddr, hfilesz, hsum⟩ := hwrap i hi hl hlt
      obtain ⟨hbytes, hzeros⟩ := hc i hi hl hlt
      obtain ⟨hpos, rfl⟩ | ⟨hpos, rfl⟩ := hcase
      · exact (spanned_iff h32 hpos (by omega)).mpr hbytes
      · refine (spanned_iff h32 hpos (by omega)).mpr ?_
        rwa [Nat.add_assoc, hsum, ← Nat.add_assoc]
    · have hpad := padding_of_le hge
      refine ⟨i, hi, hl.1, ?_⟩
      obtain ⟨hpos, rfl⟩ | ⟨hpos, rfl⟩ := hcase
      · exact range_subset le_rfl (by omega) hmemsz.le
      · exact range_subset (Nat.le_add_right _ _) (by omega) hmemsz.le

end Writes

/-! ## Sound files -/

/-- A host has room only where there is no abort. -/
theorem not_aborts_of_roomFor {ph : ℕ} (h : RoomFor host c file ph) : ¬ Aborts c file ph := by
  rintro ⟨hl, hpad⟩
  have hlt := host.bound _ (h hl (by omega))
  omega

/-- After the segments, symbols leave nothing outside. -/
theorem wp_symbolTable {fuel : ℕ} {s : St σ} (hh : HeaderOk c file) (hs : SectionsOk c file)
    (hy : SymbolsOk c file) :
    Wp (symbolTable file c off fuel (get file 0 c.eShoff) (names c file)) s (fun _ s' => s' = s)
      (fun e s' => e = .running ∧ s' = s) := by
  by_cases ht : HasTables c file
  · refine Wp.of_eq (symbolTable_some hh hs ht) ?_
    exact insertSymbols_inside _ _ _ _ (by omega) fun j hj hj' => hy ht j hj hj'
  · exact Wp.of_eq (symbolTable_none hh hs ht) rfl

/-- The loader after the checks, down to its loops. -/
theorem loadBuffer_tables {fuel : ℕ} {s : St σ} (hpass : Passes file checks) (hh : HeaderOk (cls file) file) :
    loadBuffer M host file off fuel s =
      (do
        processProgramHeaders M host file (cls file) (offsetOf file off) (get file 0 (cls file).ePhoff) 0
          (phnum (cls file) file)
        symbolTable file (cls file) (offsetOf file off) fuel (get file 0 (cls file).eShoff)
          (names (cls file) file) :
        Load σ Symbols) { s with entryPoint := entryOf file off } := by
  have hentry : Has file 0 Cls.elf64.eEntry := by
    have hlong := hh.long
    have hle : 52 ≤ (cls file).ehdrSize := by cases cls file <;> decide
    rw [Has, Inside]
    change (0 + 24) % 2 ^ 64 + 8 ≤ _
    omega
  rw [loadBuffer_eq hpass hentry, loadTables_eq hh]

theorem Sound.safe (hpass : Passes file checks) (h : Sound (cls file) file) : Safe M file := by
  intro host off filename fuel s hs
  refine Wp.of_eq (loadBuffer_tables hpass h.header) ?_
  rw [wp_bind]
  refine wp_processProgramHeaders _ _ _ (fun hall => ?_) (fun _ _ _ _ _ _ _ => Or.inl trivial)
    fun j _ hj hto hbad => ?_
  · have hok : ∀ i < phnum (cls file) file, PhOk (cls file) file (phdr (cls file) file i) := fun i hi =>
      (hall i (Nat.zero_le _) (by omega)).1
    have hno : ∀ i < phnum (cls file) file, ¬ Aborts (cls file) file (phdr (cls file) file i) := fun i hi =>
      not_aborts_of_roomFor (hall i (Nat.zero_le _) (by omega)).2
    obtain ⟨hc, hsec, hsym⟩ := h.rest hno
    have hwithin : Within (cls file) file (offsetOf file off) (put M { s with entryPoint := entryOf file off }
        (callsFrom (cls file) file (offsetOf file off) (get file 0 (cls file).ePhoff) 0
          (phnum (cls file) file))).writes := by
      rw [put]
      dsimp only
      rw [hs, List.nil_append]
      exact (within_iff hok hno).mpr hc
    refine (wp_symbolTable h.header hsec hsym).mono ?_ ?_
    · rintro _ s' rfl
      exact hwithin
    · rintro _ s' ⟨rfl, rfl⟩
      exact Or.inr ⟨rfl, hwithin⟩
  · exact absurd (h.segments j (by omega) fun l hl => not_aborts_of_roomFor (hto l (Nat.zero_le _) hl).2) hbad

theorem safe_of_refused (h : Refused file checks) : Safe M file := by
  intro host off filename fuel s _
  obtain ⟨what, herr⟩ := (@decides_checkHeader σ file s).2.1 h
  have hrun : loadElf M host off filename (.buffer file) fuel s = .error (.runtimeError what) s := by
    change EStateM.bind (checkHeader file) _ s = _
    rw [EStateM.bind, herr]
  unfold Wp
  rw [hrun]
  exact Or.inl trivial

/-! ## Safe files -/

theorem roomFor_roomy {ph : ℕ} (h : ¬ Aborts c file ph) : RoomFor roomy c file ph := fun hl _ =>
  decide_eq_true (not_le.mp fun hpad => h ⟨hl, hpad⟩)

section Safe

variable (h : Safe M file) (s : St σ) (hs : s.writes = [])
include h hs

/-- A safe file never leaves the buffer. -/
theorem Safe.not_outside (host : Host) (off : BitVec 64) (fuel : ℕ) (s' : St σ) :
    loadBuffer M host file off fuel s ≠ .error .outside s' := by
  intro hrun
  have hsafe := h host off "" fuel s hs
  unfold Wp at hsafe
  have hrun' : loadElf M host off "" (.buffer file) fuel s = .error .outside s' := hrun
  rw [hrun'] at hsafe
  rcases hsafe with hf | ⟨hf, -⟩
  · exact hf
  · cases hf

/-- No run ends outside. -/
theorem Safe.false_of_outside {host : Host} {off : BitVec 64} {fuel : ℕ}
    (hrun : Wp (loadBuffer M host file off fuel) s (fun _ _ => False) (fun e _ => e = .outside)) : False := by
  unfold Wp at hrun
  split at hrun
  · exact hrun
  · next e s' heq =>
    rw [hrun] at heq
    exact h.not_outside s hs host off fuel s' heq

theorem Safe.passes (hnot : ¬ Refused file checks) : Passes file checks := by
  by_contra hpass
  have herr := (@decides_checkHeader σ file s).2.2 hpass hnot
  apply h.not_outside s hs roomy 0 0 s
  change EStateM.bind (checkHeader file) _ s = _
  rw [EStateM.bind, herr]

theorem Safe.headerOk (hpass : Passes file checks) : HeaderOk (cls file) file := by
  by_contra hbad
  by_cases hentry : Has file 0 Cls.elf64.eEntry
  · apply h.not_outside s hs roomy 0 0 { s with entryPoint := entryOf file 0 }
    rw [loadBuffer_eq hpass hentry, loadTables_outside hbad]
  · exact h.not_outside s hs roomy 0 0 s (loadBuffer_short hpass hentry)

theorem Safe.segments (hpass : Passes file checks) : ∀ i < phnum (cls file) file,
    (∀ j < i, ¬ Aborts (cls file) file (phdr (cls file) file j)) →
      PhOk (cls file) file (phdr (cls file) file i) := by
  intro i hi hno
  by_contra hbad
  have hrun : Wp (loadBuffer M roomy file 0 0) s (fun _ _ => False) (fun e _ => e = .outside) := by
    refine Wp.of_eq (loadBuffer_tables hpass (h.headerOk s hs hpass)) ?_
    rw [wp_bind]
    refine wp_processProgramHeaders _ _ _ (fun hall => ?_) (fun j _ hj hto hok hr => ?_) fun _ _ _ _ _ _ => rfl
    · exact absurd (hall i (Nat.zero_le _) (by omega)).1 hbad
    · -- a segment that aborts comes after the `i`-th
      have hij : i ≤ j := by
        by_contra hc
        exact hr (roomFor_roomy (hno j (by omega)))
      rcases Nat.eq_or_lt_of_le hij with rfl | hlt
      · exact absurd hok hbad
      · exact absurd (hto i (Nat.zero_le _) hlt).1 hbad
  exact h.false_of_outside s hs hrun

/-- The loader with all segments in the target. -/
theorem Safe.wp_after {fuel : ℕ} {Q : Symbols → St σ → Prop} {E : Stop → St σ → Prop} (hpass : Passes file checks)
    (hno : ∀ i < phnum (cls file) file, ¬ Aborts (cls file) file (phdr (cls file) file i))
    (hQ : Wp (symbolTable file (cls file) (offsetOf file 0) fuel (get file 0 (cls file).eShoff)
      (names (cls file) file))
      (put M { s with entryPoint := entryOf file 0 }
        (callsFrom (cls file) file (offsetOf file 0) (get file 0 (cls file).ePhoff) 0
          (phnum (cls file) file))) Q E) :
    Wp (loadBuffer M roomy file 0 fuel) s Q E := by
  have hok := h.segments s hs hpass
  refine Wp.of_eq (loadBuffer_tables hpass (h.headerOk s hs hpass)) ?_
  rw [wp_bind]
  refine wp_processProgramHeaders _ _ _ (fun _ => hQ) (fun j _ hj _ _ hr => ?_) fun j _ hj _ hbad => ?_
  · exact absurd (roomFor_roomy (hno j (by omega))) hr
  · exact absurd (hok j (by omega) fun l hl => hno l (by omega)) hbad

theorem Safe.sectionsOk (hpass : Passes file checks)
    (hno : ∀ i < phnum (cls file) file, ¬ Aborts (cls file) file (phdr (cls file) file i)) :
      SectionsOk (cls file) file := by
  by_contra hbad
  have hrun : Wp (loadBuffer M roomy file 0 0) s (fun _ _ => False) (fun e _ => e = .outside) :=
    h.wp_after s hs hpass hno (Wp.of_eq (symbolTable_outside (h.headerOk s hs hpass) hbad) rfl)
  exact h.false_of_outside s hs hrun

theorem Safe.symbolsOk (hpass : Passes file checks)
    (hno : ∀ i < phnum (cls file) file, ¬ Aborts (cls file) file (phdr (cls file) file i)) :
      SymbolsOk (cls file) file := by
  have hh := h.headerOk s hs hpass
  have hsec := h.sectionsOk s hs hpass hno
  intro ht
  classical
  by_contra hbad
  push Not at hbad
  -- the first symbol that is not all in the buffer
  obtain ⟨hcount, hlt, hsym⟩ := Nat.find_spec hbad
  have hfirst := fun j (hj : j < Nat.find hbad) => Nat.find_min hbad hj
  have hrun : Wp (loadBuffer M roomy file 0 (2 ^ 32)) s (fun _ _ => False) (fun e _ => e = .outside) := by
    refine h.wp_after s hs hpass hno
      (Wp.of_eq ((symbolTable_some hh hsec ht).trans (insertSymbols_outside (Nat.find hbad) 0 _ _
      (by rwa [Nat.zero_add]) (by omega) hlt (fun j _ hj => ?_) ?_)) rfl)
    · rw [Nat.zero_add] at hj
      by_contra hj'
      exact hfirst j hj ⟨by omega, by omega, hj'⟩
    · rw [Nat.zero_add]
      exact hsym
  exact h.false_of_outside s hs hrun

theorem Safe.covered (hpass : Passes file checks)
    (hno : ∀ i < phnum (cls file) file, ¬ Aborts (cls file) file (phdr (cls file) file i)) :
      Covered (cls file) file := by
  have hok := h.segments s hs hpass
  have hwithin : Within (cls file) file (offsetOf file 0) (put M { s with entryPoint := entryOf file 0 }
      (callsFrom (cls file) file (offsetOf file 0) (get file 0 (cls file).ePhoff) 0
        (phnum (cls file) file))).writes := by
    have hrun := h.wp_after s hs hpass hno (@wp_symbolTable σ file (cls file) (offsetOf file 0) 0 _
      (h.headerOk s hs hpass) (h.sectionsOk s hs hpass hno) (h.symbolsOk s hs hpass hno))
    have hboth := hrun.and (h roomy 0 "" 0 s hs)
    unfold Wp at hboth
    split at hboth
    · obtain ⟨rfl, hw⟩ := hboth
      exact hw
    · obtain ⟨⟨rfl, rfl⟩, hw⟩ := hboth
      exact (hw.resolve_left id).2
  rw [put] at hwithin
  dsimp only at hwithin
  rw [hs, List.nil_append] at hwithin
  exact (within_iff (fun i hi => hok i hi fun j hj => hno j (by omega)) hno).mp hwithin

end Safe

/-- **Malformed files.**  Every run on a file throws or stays inside exactly when the checks of the header refuse
the file, or all that a run comes to is in the file. -/
theorem inside_iff [Inhabited σ] (M : Memif σ) (file : File) :
    Safe M file ↔ Refused file checks ∨ Passes file checks ∧ Sound (cls file) file := by
  constructor
  · intro h
    by_cases href : Refused file checks
    · exact Or.inl href
    have hpass := h.passes ⟨default, [], 0⟩ rfl href
    refine Or.inr ⟨hpass, h.headerOk ⟨default, [], 0⟩ rfl hpass, h.segments ⟨default, [], 0⟩ rfl hpass,
      fun hno => ?_⟩
    exact ⟨h.covered ⟨default, [], 0⟩ rfl hpass hno, h.sectionsOk ⟨default, [], 0⟩ rfl hpass hno,
      h.symbolsOk ⟨default, [], 0⟩ rfl hpass hno⟩
  · rintro (href | ⟨hpass, hsound⟩)
    · exact safe_of_refused href
    · exact hsound.safe hpass

/-- The header and the program header of an executable, cut off before the segment. -/
def cut64 : File where
  bytes := ehdrOf .elf64 0x80000000 0 0 0 ++ phdrOf .elf64 ⟨0x80000000, 120, 4, 8⟩
  small := by decide

/-- The segment of the cut file is four bytes after its end, and it is read there. -/
theorem cut64_outside : cut64.bytes.length = 120 ∧ get cut64 (phdr .elf64 cut64 0) Cls.elf64.pOffset = 120 ∧
    get cut64 (phdr .elf64 cut64 0) Cls.elf64.pFilesz = 4 ∧ ¬ Safe direct cut64 := by
  refine ⟨by decide, by decide, by decide, fun h => ?_⟩
  have hpass : Passes cut64 checks := by decide
  have hok := h.segments blank rfl hpass 0 (by decide) fun j hj => absurd hj (Nat.not_lt_zero j)
  exact absurd ((hok.2 (by decide)).2 (by decide)).2.2 (by decide)

end Soceteer.Elf
