import Soceteer.Elf.Loader
import Soceteer.Lib.Redirect

/-!
# Soceteer.Elf.Parts — what each part of `load_elf` does, for any file

Every part of the loader returns a value that depends on the file alone, or leaves the buffer.  The lemmas say
which, and exactly when.

* `Has`, `get`: a field that is in the buffer, and its value.
* `looks_strcmp`, `looks_cstr`, `looks_findTables`: strings, and the search for the tables.
* `insertSymbols_ok`, `insertSymbols_outside`, `insertSymbols_forever`: the loop over the symbols.
* `wp_programHeader`, `wp_processProgramHeaders`: the segments.
* `decides_checkHeader`: the checks at the start.
-/

namespace Soceteer.Elf

open Soceteer.Lib

variable {σ : Type} {M : Memif σ} {host : Host} {file : File} {c : Cls} {off : BitVec 64}

/-! ## Fields -/

/-- The field is in the buffer. -/
def Has (file : File) (ofs : ℕ) (f : Field) : Prop := Inside file (ofs + f.ofs) f.size

/-- The value of a field. -/
def get (file : File) (ofs : ℕ) (f : Field) : ℕ := num file ((ofs + f.ofs) % 2 ^ 64) f.size

instance (ofs : ℕ) (f : Field) : Decidable (Has file ofs f) := inferInstanceAs (Decidable (Inside _ _ _))

theorem looks_peek (ofs n : ℕ) :
    Looks .outside (Inside file ofs n) (peek file ofs n : Load σ ℕ) (num file (ofs % 2 ^ 64) n) := Looks.check _

theorem looks_field (ofs : ℕ) (f : Field) :
    Looks .outside (Has file ofs f) (field file ofs f : Load σ ℕ) (get file ofs f) := Looks.check _

theorem num_lt (file : File) (ofs n : ℕ) : num file ofs n < 256 ^ n := by
  have hlen : ((file.bytes.drop ofs).take n).length ≤ n := List.length_take_le _ _
  exact (leNat_lt _).trans_le (Nat.pow_le_pow_right (by omega) hlen)

/-! ## Strings -/

/-- A byte of the file. -/
theorem exists_byte {p : ℕ} (hp : p < file.bytes.length) :
    ∃ b, file.bytes.drop p = b :: file.bytes.drop (p + 1) ∧ num file p 1 = b.toNat := by
  refine ⟨file.bytes[p], List.drop_eq_getElem_cons hp, ?_⟩
  rw [num, List.drop_eq_getElem_cons hp]
  generalize file.bytes[p] = b
  simp [leNat]

/-- The bytes that `strcmp` reads are in the buffer. -/
def StrIn (file : File) : ℕ → List UInt8 → Prop
  | _, [] => True
  | p, b :: text => Inside file p 1 ∧ (num file (p % 2 ^ 64) 1 = b.toNat → StrIn file (p + 1) text)

def matchesAt (file : File) : ℕ → List UInt8 → Bool
  | _, [] => true
  | p, b :: text => num file (p % 2 ^ 64) 1 == b.toNat && matchesAt file (p + 1) text

theorem looks_strcmp : ∀ (text : List UInt8) (p : ℕ),
    Looks .outside (StrIn file p text) (strcmp file p text : Load σ Bool) (matchesAt file p text)
  | [], _ => .pure true
  | b :: text, p => by
    rw [strcmp]
    refine (looks_peek p 1).bind fun _ => ?_
    by_cases hb : num file (p % 2 ^ 64) 1 = b.toNat
    · rw [if_pos hb]
      exact (looks_strcmp text (p + 1)).congr ⟨fun h => h hb, fun h _ => h⟩
        (by rw [matchesAt, beq_iff_eq.mpr hb, Bool.true_and])
    · rw [if_neg hb]
      exact (Looks.pure false).congr ⟨fun _ => trivial, fun _ h => absurd h hb⟩
        (by rw [matchesAt, beq_eq_false_iff_ne.mpr hb, Bool.false_and])

/-- There is a zero from `p` on. -/
def Terminated (file : File) (p : ℕ) : Prop := 0 ∈ file.bytes.drop (p % 2 ^ 64)

instance (p : ℕ) : Decidable (Terminated file p) := inferInstanceAs (Decidable (_ ∈ _))

/-- The string at `p`. -/
def strOf (file : File) (p : ℕ) : List UInt8 := (file.bytes.drop (p % 2 ^ 64)).takeWhile (· ≠ 0)

theorem looks_cstr : ∀ (fuel p : ℕ), file.bytes.length < p % 2 ^ 64 + fuel →
    Looks .outside (Terminated file p) (cstr file fuel p : Load σ (List UInt8)) (strOf file p)
  | 0, p, h => by
    have hnil : file.bytes.drop (p % 2 ^ 64) = [] := List.drop_of_length_le (by omega)
    refine fun s => ⟨fun hz => ?_, fun _ => rfl⟩
    rw [Terminated, hnil] at hz
    exact nomatch hz
  | fuel + 1, p, h => by
    have hsmall := file.small
    have hp : p % 2 ^ 64 < 2 ^ 64 := Nat.mod_lt _ (by omega)
    rw [cstr]
    by_cases hin : p % 2 ^ 64 < file.bytes.length
    · obtain ⟨b, hdrop, hnum⟩ := exists_byte hin
      have hnext : (p + 1) % 2 ^ 64 = p % 2 ^ 64 + 1 := by omega
      have hterm : Terminated file p ↔ b = 0 ∨ Terminated file (p + 1) := by
        rw [Terminated, hdrop, List.mem_cons, Terminated, hnext, eq_comm]
      have hstr : strOf file p = if b = 0 then [] else b :: strOf file (p + 1) := by
        rw [strOf, hdrop, List.takeWhile_cons, strOf, hnext]
        split_ifs <;> simp_all
      have hpeek : Looks .outside True (peek file p 1 : Load σ ℕ) b.toNat :=
        (looks_peek p 1).congr ⟨fun _ => by rw [Inside]; omega, fun _ => trivial⟩ hnum.symm
      have hall : Terminated file p ↔ True ∧ Terminated file p := ⟨fun h => ⟨trivial, h⟩, And.right⟩
      rw [hstr]
      refine (hpeek.bind fun _ => ?_).congr hall rfl
      by_cases hzero : b = 0
      · rw [hzero]
        exact (Looks.pure []).congr ⟨fun _ => trivial, fun _ => hterm.mpr (Or.inl hzero)⟩ rfl
      · have hne : ¬ b.toNat = 0 := fun hc => hzero (UInt8.toNat_inj.mp hc)
        rw [if_neg hne, if_neg hzero, UInt8.ofNat_toNat]
        refine ((looks_cstr fuel (p + 1) (by omega)).bind (k := fun r => pure (b :: r)) fun _ =>
          .pure _).congr ?_ rfl
        rw [hterm, and_true, or_iff_right hzero]
    · have hnil : file.bytes.drop (p % 2 ^ 64) = [] := List.drop_of_length_le (by omega)
      refine fun s => ⟨fun hz => ?_, fun _ => ?_⟩
      · rw [Terminated, hnil] at hz
        exact nomatch hz
      · have hout := ((@looks_peek σ file p 1) s).2 (by rw [Inside]; omega)
        change EStateM.bind _ _ s = _
        rw [EStateM.bind, hout]

/-! ## The tables -/

/-- What is read of a section header, and of the section's name, is in the buffer. -/
def ShOk (c : Cls) (file : File) (names sh : ℕ) : Prop :=
  Has file sh c.shType ∧ (get file sh c.shType &&& 8 = 0 → Has file sh c.shName ∧
    StrIn file (names + get file sh c.shName) strtabName ∧ StrIn file (names + get file sh c.shName) symtabName)

/-- The section has this name, and the loader does not skip it. -/
def named (c : Cls) (file : File) (names sh : ℕ) (text : List UInt8) : Bool :=
  get file sh c.shType &&& 8 == 0 && matchesAt file (names + get file sh c.shName) text

/-- The indices of the tables, after `k` section headers from the `i`-th on. -/
def tablesFrom (c : Cls) (file : File) (shoff names : ℕ) : ℕ → ℕ → ℕ × ℕ → ℕ × ℕ
  | _, 0, found => found
  | i, k + 1, found =>
    tablesFrom c file shoff names (i + 1) k
      (if named c file names (shoff + i * c.shdrSize) strtabName then i else found.1,
        if named c file names (shoff + i * c.shdrSize) symtabName then i else found.2)

theorem looks_findTables {shoff names : ℕ} : ∀ (k i : ℕ) (found : ℕ × ℕ),
    Looks .outside (∀ j, i ≤ j → j < i + k → ShOk c file names (shoff + j * c.shdrSize))
      (findTables file c shoff names i k found : Load σ (ℕ × ℕ)) (tablesFrom c file shoff names i k found)
  | 0, i, found => (Looks.pure found).congr ⟨fun _ => trivial, fun _ j _ _ => by omega⟩ rfl
  | k + 1, i, found => by
    have hsplit : (∀ j, i ≤ j → j < i + (k + 1) → ShOk c file names (shoff + j * c.shdrSize)) ↔
        ShOk c file names (shoff + i * c.shdrSize) ∧
          ∀ j, i + 1 ≤ j → j < i + 1 + k → ShOk c file names (shoff + j * c.shdrSize) := by
      refine ⟨fun h => ⟨h i le_rfl (by omega), fun j _ _ => h j (by omega) (by omega)⟩, fun h j h₁ h₂ => ?_⟩
      rcases Nat.eq_or_lt_of_le h₁ with rfl | hlt
      · exact h.1
      · exact h.2 j hlt (by omega)
    have hrest :
      ∀ found', Looks .outside (∀ j, i + 1 ≤ j → j < i + 1 + k → ShOk c file names (shoff + j * c.shdrSize))
        (findTables file c shoff names (i + 1) k found' : Load σ (ℕ × ℕ))
          (tablesFrom c file shoff names (i + 1) k found') :=
      fun found' => looks_findTables k (i + 1) found'
    rw [findTables]
    by_cases hskip : get file (shoff + i * c.shdrSize) c.shType &&& 8 = 0
    · refine (((looks_field _ _).bind fun _ => ?_).congr (hsplit.trans (and_assoc.trans (and_congr_right fun _ =>
        ((and_congr_left' (forall_prop_of_true hskip)).trans and_assoc).trans (and_congr_right fun _ =>
          and_assoc)))) rfl)
      rw [if_neg (not_not.mpr hskip)]
      refine (looks_field _ _).bind fun _ => (looks_strcmp _ _).bind fun _ => (looks_strcmp _ _).bind fun _ => ?_
      refine (hrest _).congr Iff.rfl ?_
      rw [tablesFrom, named, named, beq_iff_eq.mpr hskip, Bool.true_and, Bool.true_and]
    · refine (((looks_field _ _).bind fun _ => ?_).congr (hsplit.trans (and_assoc.trans (and_congr_right fun _ =>
        and_iff_right fun h => absurd h hskip))) rfl)
      rw [if_pos hskip]
      refine (hrest _).congr Iff.rfl ?_
      rw [tablesFrom, named, named, beq_eq_false_iff_ne.mpr hskip, Bool.false_and, Bool.false_and]
      rfl

/-! ## Symbols -/

/-- What is read of a symbol, and its name, is in the buffer. -/
def SymOk (c : Cls) (file : File) (strtab sym : ℕ) : Prop :=
  Has file sym c.stName ∧ Terminated file (strtab + get file sym c.stName) ∧ Has file sym c.stValue

/-- The name of a symbol. -/
def symName (c : Cls) (file : File) (strtab sym : ℕ) : List UInt8 := strOf file (strtab + get file sym c.stName)

/-- The value the map gets for a symbol. -/
def symValue (c : Cls) (file : File) (off : BitVec 64) (sym : ℕ) : BitVec 64 :=
  BitVec.ofNat 64 (get file sym c.stValue) + off

section Symbols

variable {strtab symtab n : ℕ}

/-- The map with `k` more symbols, from the `i`-th on. -/
def insertFrom (c : Cls) (file : File) (off : BitVec 64) (strtab symtab : ℕ) : ℕ → ℕ → Symbols → Symbols
  | _, 0, symbols => symbols
  | i, k + 1, symbols =>
    insertFrom c file off strtab symtab (i + 1) k
      (Function.update symbols (symName c file strtab (symtab + i * c.symSize))
        (some (symValue c file off (symtab + i * c.symSize))))

theorem insertSymbols_step {fuel i : ℕ} {symbols : Symbols} {s : St σ} (hi : i < n) :
    (SymOk c file strtab (symtab + i * c.symSize) →
      insertSymbols file c off strtab symtab n (fuel + 1) i symbols s =
        insertSymbols file c off strtab symtab n fuel ((i + 1) % 2 ^ 32)
          (Function.update symbols (symName c file strtab (symtab + i * c.symSize))
            (some (symValue c file off (symtab + i * c.symSize)))) s) ∧
      (¬ SymOk c file strtab (symtab + i * c.symSize) →
        insertSymbols file c off strtab symtab n (fuel + 1) i symbols s = .error .outside s) := by
  rw [insertSymbols, if_pos hi]
  by_cases hname : Has file (symtab + i * c.symSize) c.stName
  swap
  · exact ⟨fun h => absurd h.1 hname, fun _ => (looks_field _ _).bind_error hname⟩
  rw [(looks_field _ _).bind_ok hname]
  by_cases hterm : Terminated file (strtab + get file (symtab + i * c.symSize) c.stName)
  swap
  · exact ⟨fun h => absurd h.2.1 hterm, fun _ => (looks_cstr _ _ (by omega)).bind_error hterm⟩
  rw [(looks_cstr _ _ (by omega)).bind_ok hterm]
  by_cases hvalue : Has file (symtab + i * c.symSize) c.stValue
  swap
  · exact ⟨fun h => absurd h.2.2 hvalue, fun _ => (looks_field _ _).bind_error hvalue⟩
  rw [(looks_field _ _).bind_ok hvalue]
  exact ⟨fun _ => rfl, fun h => absurd ⟨hname, hterm, hvalue⟩ h⟩

/-- The symbols are inserted, if there are fewer than the index can count. -/
theorem insertSymbols_ok {s : St σ} (hn : n < 2 ^ 32) :
    ∀ (k i fuel : ℕ) (symbols : Symbols), i + k = n → k < fuel →
    (∀ j, i ≤ j → j < n → SymOk c file strtab (symtab + j * c.symSize)) →
    insertSymbols file c off strtab symtab n fuel i symbols s =
      .ok (insertFrom c file off strtab symtab i k symbols) s
  | _, _, 0, _, _, hfuel, _ => absurd hfuel (by omega)
  | 0, i, fuel + 1, symbols, hik, _, _ => by
    rw [insertSymbols, if_neg (by omega)]
    rfl
  | k + 1, i, fuel + 1, symbols, hik, hfuel, hok => by
    rw [(insertSymbols_step (by omega)).1 (hok i le_rfl (by omega)), Nat.mod_eq_of_lt (by omega),
      insertSymbols_ok hn k (i + 1) fuel _ (by omega) (by omega) fun j hj hjn => hok j (by omega) hjn]
    rfl

/-- The loop leaves the buffer at the first symbol that is not all in it. -/
theorem insertSymbols_outside {s : St σ} :
    ∀ (k i fuel : ℕ) (symbols : Symbols), i + k < n → i + k < 2 ^ 32 → k < fuel →
    (∀ j, i ≤ j → j < i + k → SymOk c file strtab (symtab + j * c.symSize)) →
    ¬ SymOk c file strtab (symtab + (i + k) * c.symSize) →
    insertSymbols file c off strtab symtab n fuel i symbols s = .error .outside s
  | _, _, 0, _, _, _, hfuel, _, _ => absurd hfuel (by omega)
  | 0, i, fuel + 1, symbols, hn, _, _, _, hbad => (insertSymbols_step hn).2 hbad
  | k + 1, i, fuel + 1, symbols, hn, hlt, hfuel, hok, hbad => by
    rw [show i + (k + 1) = i + 1 + k by omega] at hbad
    rw [(insertSymbols_step (by omega)).1 (hok i le_rfl (by omega)), Nat.mod_eq_of_lt (by omega)]
    exact insertSymbols_outside k (i + 1) fuel _ (by omega) (by omega) (by omega)
      (fun j hj hjk => hok j (by omega) (by omega)) hbad

/-- The loop stays in the buffer, if all the symbols that it can come to are in it. -/
theorem insertSymbols_inside : ∀ (fuel i : ℕ) (symbols : Symbols) (s : St σ), i < 2 ^ 32 →
    (∀ j, j < n → j < 2 ^ 32 → SymOk c file strtab (symtab + j * c.symSize)) →
    Wp (insertSymbols file c off strtab symtab n fuel i symbols) s (fun _ s' => s' = s)
      (fun e s' => e = .running ∧ s' = s)
  | 0, _, _, _, _, _ => ⟨rfl, rfl⟩
  | fuel + 1, i, symbols, s, hi, hok => by
    by_cases hn : i < n
    · unfold Wp
      rw [(insertSymbols_step hn).1 (hok i hn hi)]
      exact insertSymbols_inside fuel _ _ s (Nat.mod_lt _ (by omega)) hok
    · rw [insertSymbols, if_neg hn]
      rfl

/-- The loop does not end, if there are more symbols than the index can count. -/
theorem insertSymbols_forever (hn : 2 ^ 32 ≤ n) : ∀ (fuel i : ℕ) (symbols : Symbols) (s : St σ), i < 2 ^ 32 →
    Wp (insertSymbols file c off strtab symtab n fuel i symbols) s (fun _ _ => False) (fun _ _ => True)
  | 0, _, _, _, _ => trivial
  | fuel + 1, i, symbols, s, hi => by
    unfold Wp
    by_cases hok : SymOk c file strtab (symtab + i * c.symSize)
    · rw [(insertSymbols_step (by omega)).1 hok]
      exact insertSymbols_forever hn fuel _ _ s (Nat.mod_lt _ (by omega))
    · rw [(insertSymbols_step (by omega)).2 hok]
      trivial

end Symbols

/-! ## Segments -/

/-- The segment is one that is written. -/
def Loadable (c : Cls) (file : File) (ph : ℕ) : Prop := get file ph c.pType = 1 ∧ 0 < get file ph c.pMemsz

instance (ph : ℕ) : Decidable (Loadable c file ph) := inferInstanceAs (Decidable (_ ∧ _))

/-- What is read of a program header, and the segment's bytes, are in the buffer. -/
def PhOk (c : Cls) (file : File) (ph : ℕ) : Prop :=
  Has file ph c.pType ∧ (get file ph c.pType = 1 → Has file ph c.pMemsz ∧ (0 < get file ph c.pMemsz →
    Has file ph c.pPaddr ∧ Has file ph c.pFilesz ∧ (0 < get file ph c.pFilesz →
      Has file ph c.pOffset ∧ Inside file (get file ph c.pOffset) (get file ph c.pFilesz))))

/-- `p_memsz - p_filesz`, in the width of the fields. -/
def padding (c : Cls) (file : File) (ph : ℕ) : ℕ :=
  (get file ph c.pMemsz + (2 ^ c.bits - get file ph c.pFilesz)) % 2 ^ c.bits

/-- The address a segment is written to. -/
def segAddr (c : Cls) (file : File) (off : BitVec 64) (ph : ℕ) : BitVec 64 :=
  BitVec.ofNat 64 (get file ph c.pPaddr) + off

/-- The bytes of a segment. -/
def segBytes (c : Cls) (file : File) (ph : ℕ) : List UInt8 :=
  (file.bytes.drop (get file ph c.pOffset % 2 ^ 64)).take (get file ph c.pFilesz)

/-- The host has room for the zeros after a segment. -/
def RoomFor (host : Host) (c : Cls) (file : File) (ph : ℕ) : Prop :=
  Loadable c file ph → 0 < padding c file ph → host.room (padding c file ph) = true

/-- A host that can resize to any length there is. -/
def roomy : Host where
  room := fun n => decide (n < 2 ^ 63)
  bound := fun _ h => of_decide_eq_true h

/-- The calls of `memif->write` for a program header. -/
def calls (c : Cls) (file : File) (off : BitVec 64) (ph : ℕ) : List (BitVec 64 × List UInt8) :=
  if Loadable c file ph then
    (if 0 < get file ph c.pFilesz then [(segAddr c file off ph, segBytes c file ph)] else []) ++
      if 0 < padding c file ph then
        [(segAddr c file off ph + BitVec.ofNat 64 (get file ph c.pFilesz), List.replicate (padding c file ph) 0)]
      else []
  else []

/-- The state after some calls of `memif->write`. -/
def put (M : Memif σ) (s : St σ) (ws : List (BitVec 64 × List UInt8)) : St σ :=
  { s with
    target := ws.foldl (fun t x => M.write x.1 x.2 t) s.target
    writes := s.writes ++ ws.map fun x => (x.1, x.2.length) }

theorem put_nil (s : St σ) : put M s [] = s := by
  rw [put, List.map_nil, List.append_nil]
  rfl

theorem put_append (s : St σ) (ws ws' : List (BitVec 64 × List UInt8)) :
    put M s (ws ++ ws') = put M (put M s ws) ws' := by
  simp [put, List.foldl_append]

theorem looks_bytesOf (ofs n : ℕ) : Looks .outside (Inside file ofs n) (bytesOf file ofs n : Load σ (List UInt8))
    ((file.bytes.drop (ofs % 2 ^ 64)).take n) := Looks.check _

section Segments

variable {ph : ℕ} {s : St σ} {Q : Unit → St σ → Prop} {E : Stop → St σ → Prop}

/-- **A program header.** -/
theorem wp_programHeader (hok : PhOk c file ph → RoomFor host c file ph → Q () (put M s (calls c file off ph)))
    (hroom : PhOk c file ph → ¬ RoomFor host c file ph → ∀ s', E .resize s')
    (hout : ¬ PhOk c file ph → E .outside s) :
    Wp (programHeader M host file c off ph) s Q E := by
  rw [programHeader, wp_bind, (looks_field _ _).wp]
  refine ⟨fun htype => ?_, fun h => hout fun hc => h hc.1⟩
  by_cases hload : get file ph c.pType = 1
  swap
  · have hnot : ¬ Loadable c file ph := fun h => hload h.1
    rw [if_neg hload]
    have hput := hok ⟨htype, fun h => absurd h hload⟩ fun h => absurd h hnot
    rwa [calls, if_neg hnot, put_nil] at hput
  rw [if_pos hload, wp_bind, (looks_field _ _).wp]
  refine ⟨fun hmemsz => ?_, fun h => hout fun hc => h (hc.2 hload).1⟩
  by_cases hpos : 0 < get file ph c.pMemsz
  swap
  · have hnot : ¬ Loadable c file ph := fun h => hpos h.2
    rw [if_neg hpos]
    have hput := hok ⟨htype, fun _ => ⟨hmemsz, fun h => absurd h hpos⟩⟩ fun h => absurd h hnot
    rwa [calls, if_neg hnot, put_nil] at hput
  rw [if_pos hpos, wp_bind, (looks_field _ _).wp]
  refine ⟨fun hpaddr => ?_, fun h => hout fun hc => h ((hc.2 hload).2 hpos).1⟩
  rw [wp_bind, (looks_field _ _).wp]
  refine ⟨fun hfilesz => ?_, fun h => hout fun hc => h ((hc.2 hload).2 hpos).2.1⟩
  -- the zeros, after the calls `ws` for the bytes from the file
  have hzeros : ∀ ws, PhOk c file ph →
      calls c file off ph = ws ++ (if 0 < padding c file ph then
        [(segAddr c file off ph + BitVec.ofNat 64 (get file ph c.pFilesz), List.replicate (padding c file ph) 0)]
          else []) →
      Wp (do
        if 0 < padding c file ph then
          if ¬ host.room (padding c file ph) then throw .resize
          memifWrite M (segAddr c file off ph + BitVec.ofNat 64 (get file ph c.pFilesz))
            (List.replicate (padding c file ph) 0)) (put M s ws) Q E := by
    intro ws hph hcalls
    rw [hcalls] at hok
    by_cases hpad : 0 < padding c file ph
    · rw [if_pos hpad] at hok ⊢
      by_cases hfits : host.room (padding c file ph) = true
      · rw [if_neg (not_not.mpr hfits)]
        have hput := hok hph fun _ _ => hfits
        rw [put_append] at hput
        simpa [memifWrite, put] using hput
      · rw [if_pos hfits]
        exact hroom hph (fun h => hfits (h ⟨hload, hpos⟩ hpad)) _
    · rw [if_neg hpad] at hok ⊢
      rw [List.append_nil] at hok
      exact hok hph fun _ h => absurd h hpad
  by_cases hfile : 0 < get file ph c.pFilesz
  · rw [if_pos hfile]
    simp only [wp_bind]
    rw [(looks_field _ _).wp]
    refine ⟨fun hoffset => ?_, fun h => hout fun hc => h (((hc.2 hload).2 hpos).2.2 hfile).1⟩
    rw [(looks_bytesOf _ _).wp]
    refine ⟨fun hin => ?_, fun h => hout fun hc => h (((hc.2 hload).2 hpos).2.2 hfile).2⟩
    have hph : PhOk c file ph := ⟨htype, fun _ => ⟨hmemsz, fun _ => ⟨hpaddr, hfilesz, fun _ => ⟨hoffset, hin⟩⟩⟩⟩
    have hz := hzeros [(segAddr c file off ph, segBytes c file ph)] hph (by
      rw [calls, if_pos ⟨hload, hpos⟩, if_pos hfile])
    exact hz
  · rw [if_neg hfile]
    have hph : PhOk c file ph :=
      ⟨htype, fun _ => ⟨hmemsz, fun _ => ⟨hpaddr, hfilesz, fun h => absurd h hfile⟩⟩⟩
    have hz := hzeros [] hph (by rw [calls, if_pos ⟨hload, hpos⟩, if_neg hfile])
    rw [put_nil] at hz
    exact hz

/-- The calls for `k` program headers, from the `i`-th on. -/
def callsFrom (c : Cls) (file : File) (off : BitVec 64) (phoff : ℕ) : ℕ → ℕ → List (BitVec 64 × List UInt8)
  | _, 0 => []
  | i, k + 1 => calls c file off (phoff + i * c.phdrSize) ++ callsFrom c file off phoff (i + 1) k

/-- The program headers before the `j`-th, from the `i`-th on, have been loaded. -/
def LoadedTo (host : Host) (c : Cls) (file : File) (phoff i j : ℕ) : Prop :=
  ∀ l, i ≤ l → l < j → PhOk c file (phoff + l * c.phdrSize) ∧ RoomFor host c file (phoff + l * c.phdrSize)

/-- **The program headers.** -/
theorem wp_processProgramHeaders {phoff : ℕ} : ∀ (k i : ℕ) (s : St σ),
    (LoadedTo host c file phoff i (i + k) → Q () (put M s (callsFrom c file off phoff i k))) →
    (∀ j, i ≤ j → j < i + k → LoadedTo host c file phoff i j → PhOk c file (phoff + j * c.phdrSize) →
      ¬ RoomFor host c file (phoff + j * c.phdrSize) → ∀ s', E .resize s') →
    (∀ j, i ≤ j → j < i + k → LoadedTo host c file phoff i j → ¬ PhOk c file (phoff + j * c.phdrSize) →
      ∀ s', E .outside s') →
    Wp (processProgramHeaders M host file c off phoff i k) s Q E
  | 0, i, s, hok, _, _ => by
    have hput := hok fun l hl hl' => by omega
    rwa [callsFrom, put_nil] at hput
  | k + 1, i, s, hok, hroom, hout => by
    have hfirst : LoadedTo host c file phoff i i := fun l hl hl' => by omega
    rw [processProgramHeaders, wp_bind]
    refine wp_programHeader (fun hph hr => ?_) (fun hph hr => hroom i le_rfl (by omega) hfirst hph hr)
      fun hph => hout i le_rfl (by omega) hfirst hph s
    have hmore : ∀ {j}, LoadedTo host c file phoff (i + 1) j → LoadedTo host c file phoff i j := by
      intro j hj l hl hlj
      rcases Nat.eq_or_lt_of_le hl with rfl | hlt
      · exact ⟨hph, hr⟩
      · exact hj l hlt hlj
    have hend : i + 1 + k = i + (k + 1) := by omega
    refine wp_processProgramHeaders k (i + 1) _ (fun h => ?_) (fun j hj hjk h => ?_) fun j hj hjk h => ?_
    · rw [← put_append]
      exact hok (hmore (by rwa [hend] at h))
    · exact hroom j (by omega) (by omega) (hmore h)
    · exact hout j (by omega) (by omega) (hmore h)

end Segments

/-! ## The checks of the header -/

/-- All fields are in the buffer and pass: each has a place, a size and the values that pass. -/
def Passes (file : File) : List (ℕ × ℕ × List ℕ) → Prop
  | [] => True
  | (ofs, n, vs) :: rest => Inside file ofs n ∧ num file (ofs % 2 ^ 64) n ∈ vs ∧ Passes file rest

/-- The first field that does not pass is in the buffer. -/
def Refused (file : File) : List (ℕ × ℕ × List ℕ) → Prop
  | [] => False
  | (ofs, n, vs) :: rest => Inside file ofs n ∧ (num file (ofs % 2 ^ 64) n ∉ vs ∨ Refused file rest)

instance : ∀ l, Decidable (Passes file l)
  | [] => isTrue trivial
  | (_, _, _) :: rest =>
    have := instDecidablePasses rest
    inferInstanceAs (Decidable (_ ∧ _ ∧ _))

instance : ∀ l, Decidable (Refused file l)
  | [] => isFalse id
  | (_, _, _) :: rest =>
    have := instDecidableRefused rest
    inferInstanceAs (Decidable (_ ∧ (_ ∨ _)))

theorem looks_ident (i v : ℕ) :
    Looks .outside (Inside file i 1) (ident file i v : Load σ Bool) (num file (i % 2 ^ 64) 1 == v) :=
  (looks_peek i 1).map (· == v)

/-- The magic number. -/
def magic : List (ℕ × ℕ × List ℕ) := [(0, 1, [0x7f]), (1, 1, [0x45]), (2, 1, [0x4c]), (3, 1, [0x46])]

theorem looks_isElf :
    Looks .outside (Passes file magic ∨ Refused file magic)
      (isElf file : Load σ Bool) (decide (Passes file magic)) := by
  refine ((looks_ident 0 0x7f).and
    ((looks_ident 1 0x45).and ((looks_ident 2 0x4c).and (looks_ident 3 0x46)))).congr_of ?_ ?_
  · simp only [magic, Passes, Refused, List.mem_singleton, beq_iff_eq]
    tauto
  · intro hin
    rw [Bool.eq_iff_iff]
    simp only [beq_iff_eq] at hin
    simp only [magic, Passes, List.mem_singleton, decide_eq_true_eq, Bool.and_eq_true, beq_iff_eq]
    tauto

/-- After the magic number, a test that needs it is the rest of the test. -/
theorem looks_and_of_magic {p : Load σ Bool} {d : Prop} {v : Bool} (hm : Passes file magic)
    (hp : Looks .outside d p v) :
    Looks .outside d (isElf file <&&> p) v := by
  refine (looks_isElf.and hp).congr ?_ ?_
  · rw [decide_eq_true hm]
    tauto
  · rw [decide_eq_true hm, Bool.true_and]

/-- Two tests of one field. -/
theorem looks_or_same {p q : Load σ Bool} {d : Prop} {v v' : Bool} (hp : Looks .outside d p v)
    (hq : Looks .outside d q v') :
    Looks .outside d (p <||> q) (v || v') := (hp.or hq).congr ⟨fun h => ⟨h, fun _ => h⟩, And.left⟩ rfl

/-- The fields after the magic number. -/
def afterMagic : List (ℕ × ℕ × List ℕ) :=
  [(4, 1, [1, 2]), (5, 1, [1]), (16, 2, [2, 3]), (18, 2, [243, 0]), (20, 4, [1])]

/-- The checks make a program go on, throw, or leave the buffer. -/
def Decides (file : File) (l : List (ℕ × ℕ × List ℕ)) (k : Load σ Unit) : Prop :=
  ∀ s, (Passes file l → k s = .ok () s) ∧ (Refused file l → ∃ what, k s = .error (.runtimeError what) s) ∧
    (¬ Passes file l → ¬ Refused file l → k s = .error .outside s)

section Header

theorem decides_nil : Decides file [] (pure () : Load σ Unit) :=
  fun _ => ⟨fun _ => rfl, fun h => h.elim, fun h => absurd trivial h⟩

theorem Decides.cons {p : Load σ Bool} {ofs n : ℕ} {vs : List ℕ} {l : List (ℕ × ℕ × List ℕ)} {what : String}
    {k : Load σ Unit} (hk : Decides file l k)
    (hp : Looks .outside (Inside file ofs n) p (decide (num file (ofs % 2 ^ 64) n ∈ vs))) :
    Decides file ((ofs, n, vs) :: l) (do
      if ¬ (← p) then throw (.runtimeError what)
      k) := by
  intro s
  by_cases hin : Inside file ofs n
  swap
  · exact ⟨fun h => absurd h.1 hin, fun h => absurd h.1 hin, fun _ _ => hp.bind_error hin⟩
  rw [hp.bind_ok hin]
  by_cases ht : num file (ofs % 2 ^ 64) n ∈ vs
  · rw [if_neg (not_not.mpr (decide_eq_true ht))]
    refine ⟨fun h => (hk s).1 h.2.2, fun h => (hk s).2.1 (h.2.resolve_left (not_not.mpr ht)), fun h h' => ?_⟩
    exact (hk s).2.2 (fun hl => h ⟨hin, ht, hl⟩) fun hl => h' ⟨hin, Or.inr hl⟩
  · rw [if_pos fun h => ht (of_decide_eq_true h)]
    exact ⟨fun h => absurd h.2.1 ht, fun _ => ⟨what, rfl⟩, fun _ h => absurd ⟨hin, Or.inl ht⟩ h⟩

theorem not_passes_of_refused : ∀ {l : List (ℕ × ℕ × List ℕ)}, Refused file l → ¬ Passes file l
  | (_, _, _) :: _, ⟨_, Or.inl h⟩, hp => h hp.2.1
  | (_, _, _) :: _, ⟨_, Or.inr h⟩, hp => not_passes_of_refused h hp.2.2

theorem passes_append : ∀ l l' : List (ℕ × ℕ × List ℕ), Passes file (l ++ l') ↔ Passes file l ∧ Passes file l'
  | [], _ => (and_iff_right trivial).symm
  | (_, _, _) :: l, l' => by simp only [List.cons_append, Passes, passes_append l l', and_assoc]

theorem refused_append : ∀ l l' : List (ℕ × ℕ × List ℕ),
    Refused file (l ++ l') ↔ Refused file l ∨ Passes file l ∧ Refused file l'
  | [], _ => ⟨fun h => Or.inr ⟨trivial, h⟩, fun h => h.elim False.elim And.right⟩
  | (_, _, _) :: l, l' => by
    simp only [List.cons_append, Passes, Refused, refused_append l l']
    tauto

/-- The tests after the magic number, each of one field. -/
theorem looks_tests (hm : Passes file magic) :
    Looks .outside (Inside file 4 1) (isElf32 file <||> isElf64 file : Load σ Bool)
      (decide (num file (4 % 2 ^ 64) 1 ∈ [1, 2])) ∧
    Looks .outside (Inside file 5 1) (matchesHost file : Load σ Bool) (decide (num file (5 % 2 ^ 64) 1 ∈ [1])) ∧
    Looks .outside (Inside file 16 2) (isElfExec file <||> isElfDyn file : Load σ Bool)
      (decide (num file (16 % 2 ^ 64) 2 ∈ [2, 3])) ∧
    Looks .outside (Inside file 18 2) (isElfRiscv file <||> isElfEmNone file : Load σ Bool)
      (decide (num file (18 % 2 ^ 64) 2 ∈ [243, 0])) ∧
    Looks .outside (Inside file 20 4)
      (isElfVcurrent file : Load σ Bool) (decide (num file (20 % 2 ^ 64) 4 ∈ [1])) := by
  have hfield : ∀ ofs n v : ℕ, Looks .outside (Inside file ofs n)
      (isElf file <&&> (do return (← peek file ofs n) == v) : Load σ Bool) (num file (ofs % 2 ^ 64) n == v) :=
        fun ofs n v =>
    looks_and_of_magic hm ((looks_peek ofs n).map (· == v))
  have hone : ∀ x v : ℕ, decide (x ∈ [v]) = (x == v) := fun x v => by
    simp only [List.mem_singleton, beq_eq_decide]
  have htwo : ∀ x v v' : ℕ, decide (x ∈ [v, v']) = (x == v || x == v') := fun x v v' => by
    simp only [List.mem_pair, Bool.decide_or, beq_eq_decide]
  refine ⟨?_, ?_, ?_, ?_, ?_⟩
  · exact (looks_or_same (hfield 4 1 1) (hfield 4 1 2)).congr Iff.rfl (htwo _ _ _)
  · exact (hfield 5 1 1).congr Iff.rfl (hone _ _)
  · exact (looks_or_same (hfield 16 2 2) (hfield 16 2 3)).congr Iff.rfl (htwo _ _ _)
  · exact (looks_or_same (hfield 18 2 243) (hfield 18 2 0)).congr Iff.rfl (htwo _ _ _)
  · exact (hfield 20 4 1).congr Iff.rfl (hone _ _)

/-- Without the magic number the first test fails, or leaves the buffer. -/
theorem looks_class_of_not_magic (hm : ¬ Passes file magic) :
    Looks .outside (Refused file magic) (isElf32 file <||> isElf64 file : Load σ Bool) (decide False) := by
  have hisElf : Looks .outside (Refused file magic) (isElf file : Load σ Bool) false :=
    looks_isElf.congr ⟨Or.inr, fun h => h.resolve_left hm⟩ (decide_eq_false hm).symm
  have hand : ∀ {p : Load σ Bool} {d : Prop} {v : Bool}, Looks .outside d p v →
      Looks .outside (Refused file magic) (isElf file <&&> p) false := fun hp =>
    (hisElf.and hp).congr ⟨fun h => ⟨h, nofun⟩, And.left⟩ rfl
  exact looks_or_same (hand (looks_ident 4 1)) (hand (looks_ident 4 2))

/-- The fields that are checked. -/
def checks : List (ℕ × ℕ × List ℕ) := magic ++ afterMagic

/-- **The checks of the header.** -/
theorem decides_checkHeader : Decides file checks (checkHeader file : Load σ Unit) := by
  unfold checkHeader checks
  by_cases hm : Passes file magic
  · obtain ⟨hclass, hhost, htype, hmachine, hversion⟩ := @looks_tests σ file hm
    intro s
    rw [passes_append, refused_append, and_iff_right hm, or_iff_right fun h => not_passes_of_refused h hm,
      and_iff_right hm]
    exact (((((decides_nil.cons hversion).cons hmachine).cons htype).cons hhost).cons hclass) s
  · have hclass := @looks_class_of_not_magic σ file hm
    intro s
    rw [passes_append, refused_append]
    refine ⟨fun h => absurd h.1 hm, fun h => ?_, fun _ h => hclass.bind_error fun hr => h (Or.inl hr)⟩
    have hr := h.resolve_right fun h => hm h.1
    rw [hclass.bind_ok hr]
    exact ⟨_, rfl⟩

end Header

/-! ## The tables of a file -/

section Tables

def phnum (c : Cls) (file : File) : ℕ := get file 0 c.ePhnum

/-- Where a program header is. -/
def phdr (c : Cls) (file : File) (i : ℕ) : ℕ := get file 0 c.ePhoff + i * c.phdrSize

def shnum (c : Cls) (file : File) : ℕ := get file 0 c.eShnum

/-- Where a section header is. -/
def shdr (c : Cls) (file : File) (i : ℕ) : ℕ := get file 0 c.eShoff + i * c.shdrSize

/-- Where the names of the sections are. -/
def names (c : Cls) (file : File) : ℕ := get file (shdr c file (get file 0 c.eShstrndx)) c.shOffset

/-- The indices of `.strtab` and `.symtab`, 0 for none. -/
def tables (c : Cls) (file : File) : ℕ × ℕ :=
  tablesFrom c file (get file 0 c.eShoff) (names c file) 0 (shnum c file) (0, 0)

def HasTables (c : Cls) (file : File) : Prop := (tables c file).1 ≠ 0 ∧ (tables c file).2 ≠ 0

instance : Decidable (HasTables c file) := inferInstanceAs (Decidable (_ ∧ _))

def strtab (c : Cls) (file : File) : ℕ := get file (shdr c file (tables c file).1) c.shOffset

/-- The number of symbols. -/
def symCount (c : Cls) (file : File) : ℕ := get file (shdr c file (tables c file).2) c.shSize / c.symSize

/-- Where a symbol is. -/
def sym (c : Cls) (file : File) (i : ℕ) : ℕ := get file (shdr c file (tables c file).2) c.shOffset + i * c.symSize

/-- The section headers, and those of the two tables in full, are in the buffer. -/
structure SectionsOk (c : Cls) (file : File) : Prop where
  headers : ∀ i < shnum c file, ShOk c file (names c file) (shdr c file i)
  tables : HasTables c file → Has file (shdr c file (tables c file).1) c.shOffset ∧
    Has file (shdr c file (tables c file).2) c.shOffset ∧ Has file (shdr c file (tables c file).2) c.shSize

/-- The header is in the buffer, with the header of the section of names. -/
structure HeaderOk (c : Cls) (file : File) : Prop where
  long : c.ehdrSize ≤ file.bytes.length
  names : Has file (shdr c file (get file 0 c.eShstrndx)) c.shOffset

theorem has_of_long (h : c.ehdrSize ≤ file.bytes.length) :
    Has file 0 c.eEntry ∧ Has file 0 c.ePhoff ∧ Has file 0 c.eShoff ∧
    Has file 0 c.ePhnum ∧ Has file 0 c.eShnum ∧ Has file 0 c.eShstrndx := by
  cases c <;> simp only [Cls.ehdrSize] at h <;>
    simp only [Has, Inside, Cls.eEntry, Cls.ePhoff, Cls.eShoff, Cls.ePhnum, Cls.eShnum, Cls.eShstrndx] <;> omega

/-- The last field of the header is read. -/
theorem long_of_has (h : Has file 0 c.eShstrndx) : c.ehdrSize ≤ file.bytes.length := by
  cases c <;> simp only [Has, Inside, Cls.eShstrndx] at h <;> simp only [Cls.ehdrSize] <;> omega

variable {fuel : ℕ} {s : St σ}

/-- The search for the tables. -/
theorem looks_headers :
    Looks .outside (∀ i < shnum c file, ShOk c file (names c file) (shdr c file i))
      (findTables file c (get file 0 c.eShoff) (names c file) 0 (shnum c file) (0, 0) : Load σ (ℕ × ℕ))
        (tables c file) := by
  refine (looks_findTables _ _ _).congr ⟨fun h j _ hj => h j (by omega), fun h j hj =>
    h j (Nat.zero_le _) (by omega)⟩ rfl

theorem symbolTable_none (h : HeaderOk c file) (hok : SectionsOk c file) (hno : ¬ HasTables c file) :
    symbolTable file c off fuel (get file 0 c.eShoff) (names c file) s = .ok (fun _ => none) s := by
  rw [symbolTable, (looks_field _ _).bind_ok (has_of_long h.long).2.2.2.2.1]
  refine (looks_headers.bind_ok hok.headers).trans ?_
  dsimp only
  rw [if_neg (show ¬ ((tables c file).1 ≠ 0 ∧ (tables c file).2 ≠ 0) from hno)]
  rfl

theorem symbolTable_some (h : HeaderOk c file) (hok : SectionsOk c file) (htab : HasTables c file) :
    symbolTable file c off fuel (get file 0 c.eShoff) (names c file) s =
      insertSymbols file c off (strtab c file) (get file (shdr c file (tables c file).2) c.shOffset)
        (symCount c file) fuel 0
        (fun _ => none) s := by
  obtain ⟨hstr, hsym, hsize⟩ := hok.tables htab
  rw [symbolTable, (looks_field _ _).bind_ok (has_of_long h.long).2.2.2.2.1]
  refine (looks_headers.bind_ok hok.headers).trans ?_
  dsimp only
  rw [if_pos (show (tables c file).1 ≠ 0 ∧ (tables c file).2 ≠ 0 from htab)]
  refine ((looks_field _ _).bind_ok hstr).trans (((looks_field _ _).bind_ok hsym).trans ?_)
  exact (looks_field _ _).bind_ok hsize

theorem symbolTable_outside (h : HeaderOk c file) (hbad : ¬ SectionsOk c file) :
    symbolTable file c off fuel (get file 0 c.eShoff) (names c file) s = .error .outside s := by
  rw [symbolTable, (looks_field _ _).bind_ok (has_of_long h.long).2.2.2.2.1]
  by_cases hheaders : ∀ i < shnum c file, ShOk c file (names c file) (shdr c file i)
  swap
  · exact looks_headers.bind_error hheaders
  refine (looks_headers.bind_ok hheaders).trans ?_
  dsimp only
  by_cases htab : HasTables c file
  swap
  · exact absurd ⟨hheaders, fun h => absurd h htab⟩ hbad
  rw [if_pos (show (tables c file).1 ≠ 0 ∧ (tables c file).2 ≠ 0 from htab)]
  by_cases hstr : Has file (shdr c file (tables c file).1) c.shOffset
  swap
  · exact (looks_field _ _).bind_error hstr
  refine ((looks_field _ _).bind_ok hstr).trans ?_
  by_cases hsym : Has file (shdr c file (tables c file).2) c.shOffset
  swap
  · exact (looks_field _ _).bind_error hsym
  refine ((looks_field _ _).bind_ok hsym).trans ?_
  by_cases hsize : Has file (shdr c file (tables c file).2) c.shSize
  · exact absurd ⟨hheaders, fun _ => ⟨hstr, hsym, hsize⟩⟩ hbad
  · exact (looks_field _ _).bind_error hsize

theorem loadTables_outside {symbols : ℕ → ℕ → Load σ Symbols} (hbad : ¬ HeaderOk c file) :
    loadTables M host file c off symbols s = .error .outside s := by
  unfold loadTables
  by_cases hphoff : Has file 0 c.ePhoff
  swap
  · exact (looks_field _ _).bind_error hphoff
  rw [(looks_field _ _).bind_ok hphoff]
  by_cases hshoff : Has file 0 c.eShoff
  swap
  · exact (looks_field _ _).bind_error hshoff
  rw [(looks_field _ _).bind_ok hshoff]
  by_cases hndx : Has file 0 c.eShstrndx
  swap
  · exact (looks_field _ _).bind_error hndx
  rw [(looks_field _ _).bind_ok hndx]
  exact (looks_field _ _).bind_error fun h => hbad ⟨long_of_has hndx, h⟩

theorem loadTables_eq {symbols : ℕ → ℕ → Load σ Symbols} (h : HeaderOk c file) :
    loadTables M host file c off symbols s =
      (do
        processProgramHeaders M host file c off (get file 0 c.ePhoff) 0 (phnum c file)
        symbols (get file 0 c.eShoff) (names c file)) s := by
  obtain ⟨-, hphoff, hshoff, hphnum, -, hndx⟩ := has_of_long h.long
  rw [loadTables, (looks_field _ _).bind_ok hphoff, (looks_field _ _).bind_ok hshoff,
    (looks_field _ _).bind_ok hndx]
  exact ((looks_field _ _).bind_ok h.names).trans ((looks_field _ _).bind_ok hphnum)

end Tables

/-! ## The file -/

/-- The class of a file. -/
def cls (file : File) : Cls := if num file 4 1 = 1 then .elf32 else .elf64

/-- The offset that is used: none for an executable. -/
def offsetOf (file : File) (off : BitVec 64) : BitVec 64 := if num file 16 2 = 2 then 0 else off

/-- The entry point that is set. -/
def entryOf (file : File) (off : BitVec 64) : BitVec 64 :=
  BitVec.ofNat 64 (get file 0 Cls.elf64.eEntry) + offsetOf file off

section File

variable {fuel : ℕ} {s : St σ}

/-- The checks pass, and what is tested again afterwards. -/
theorem looks_of_passes (hpass : Passes file checks) :
    Looks .outside True (checkHeader file : Load σ Unit) () ∧
    Looks .outside True (isElfExec file : Load σ Bool) (num file 16 2 == 2) ∧
    Looks .outside True (isElf32 file : Load σ Bool) (num file 4 1 == 1) := by
  obtain ⟨hm, hrest⟩ := (passes_append _ _).mp hpass
  refine ⟨fun s => ⟨fun _ => (decides_checkHeader s).1 hpass, fun h => absurd trivial h⟩, ?_, ?_⟩
  · exact (looks_and_of_magic hm ((looks_peek 16 2).map (· == 2))).congr ⟨fun _ => hrest.2.2.2.2.1,
      fun _ => trivial⟩ rfl
  · exact (looks_and_of_magic hm (looks_ident 4 1)).congr ⟨fun _ => hrest.1, fun _ => trivial⟩ rfl

/-- The loader after the checks. -/
theorem loadBuffer_eq (hpass : Passes file checks) (hlong : Has file 0 Cls.elf64.eEntry) :
    loadBuffer M host file off fuel s =
      loadTables M host file (cls file) (offsetOf file off) (symbolTable file (cls file) (offsetOf file off) fuel)
        { s with entryPoint := entryOf file off } := by
  obtain ⟨hcheck, hexec, h32⟩ := @looks_of_passes σ file hpass
  rw [loadBuffer, hcheck.bind_ok trivial, hexec.bind_ok trivial, (looks_field _ _).bind_ok hlong]
  have hoff : (if (num file 16 2 == 2) = true then 0 else off) = offsetOf file off := by
    rw [offsetOf]
    simp only [beq_iff_eq]
  rw [hoff]
  change (isElf32 file >>= _ : Load σ Symbols) { s with entryPoint := entryOf file off } = _
  rw [h32.bind_ok trivial, cls]
  by_cases hc : num file 4 1 = 1
  · rw [if_pos hc, if_pos (beq_iff_eq.mpr hc)]
    rfl
  · rw [if_neg hc, if_neg fun h => hc (beq_iff_eq.mp h)]
    rfl

/-- The entry point is not in the buffer. -/
theorem loadBuffer_short (hpass : Passes file checks) (hshort : ¬ Has file 0 Cls.elf64.eEntry) :
    loadBuffer M host file off fuel s = .error .outside s := by
  obtain ⟨hcheck, hexec, -⟩ := @looks_of_passes σ file hpass
  rw [loadBuffer, hcheck.bind_ok trivial, hexec.bind_ok trivial]
  exact (looks_field _ _).bind_error hshort

end File

end Soceteer.Elf
