import Soceteer.Lib.Bytes

/-!
# Soceteer.Fesvr.Rv — the instructions the debug driver hands to a hart

`fesvr/types.hpp` assembles the words of the program buffer by hand.  This file holds these encoders, the decoder
and the effect of the five instructions they produce, and what the driver's three little programs do.

* `rvLoad`, `rvStore`, `rvAddi`, `rvBne`: the encoders; `decode_rvLoad` etc.: what a hart reads in them.
* `Insn.exec`, `runProgbuf`: one instruction, and the program buffer up to its `ebreak`.
* `runProgbuf_load`, `runProgbuf_store`, `runProgbuf_clear`: load a word and advance, store a word and advance,
  store zero words up to a bound.
-/

namespace Soceteer.Fesvr

open Soceteer.Lib

/-! ## Register width -/

/-- The register widths the driver knows. -/
inductive Xlen
  | rv32
  | rv64
  deriving DecidableEq

namespace Xlen

def bits : Xlen → ℕ
  | rv32 => 32
  | rv64 => 64

/-- `xlen / 8`. -/
def bytes (X : Xlen) : ℕ := X.bits / 8

/-- `xlen / 32`. -/
def words (X : Xlen) : ℕ := X.bits / 32

variable (X : Xlen)

theorem bits_eq : X.bits = 8 * X.bytes := by cases X <;> rfl

theorem bytes_eq : X.bytes = 4 * X.words := by cases X <;> rfl

theorem bytes_cases : X.bytes = 4 ∨ X.bytes = 8 := by cases X <;> decide

theorem words_cases : X.words = 1 ∨ X.words = 2 := by cases X <;> decide

theorem bytes_pos : 0 < X.bytes := by cases X <;> decide

theorem pow_bits : 256 ^ X.bytes = 2 ^ X.bits := by cases X <;> rfl

theorem bytes_dvd : X.bytes ∣ 2 ^ X.bits := by cases X <;> decide

theorem bits_le : X.bits ≤ 64 := by cases X <;> decide

end Xlen

/-! ## `fesvr/types.hpp` -/

def rvX0 : BitVec 32 := 0
def rvS0 : BitVec 32 := 8
def rvS1 : BitVec 32 := 9

/-- `MATCH_EBREAK` of `riscv/encoding.h`. -/
def matchEbreak : BitVec 32 := 0x100073

/-- `rv_ac_ar_regno`. -/
def rvAcArRegno (x : BitVec 32) : BitVec 32 := (0x1000 ||| x) <<< 0

/-- `rv_ac_ar_size`. -/
def rvAcArSize (x : ℕ) : BitVec 32 := (if x = 128 then 4 else if x = 64 then 3 else 2) <<< 20

/-- `rv_extract`. -/
def rvExtract (x : BitVec 32) (s n : ℕ) : BitVec 32 := (x >>> s) &&& ((1 <<< n) - 1)

/-- `rv_encode_itype_imm`. -/
def rvEncodeItypeImm (x : BitVec 32) : BitVec 32 := rvExtract x 0 12 <<< 20

/-- `rv_encode_stype_imm`. -/
def rvEncodeStypeImm (x : BitVec 32) : BitVec 32 := (rvExtract x 0 5 <<< 7) ||| (rvExtract x 5 7 <<< 25)

/-- `rv_encode_sbtype_imm`. -/
def rvEncodeSbtypeImm (x : BitVec 32) : BitVec 32 :=
  (rvExtract x 1 4 <<< 8) ||| (rvExtract x 5 6 <<< 25) ||| (rvExtract x 11 1 <<< 7) ||| (rvExtract x 12 1 <<< 31)

/-- `rv_load`. -/
def rvLoad (xlen : ℕ) (dst base imm : BitVec 32) : BitVec 32 :=
  (if xlen = 64 then 0x00003003 else 0x00002003) ||| (dst <<< 7) ||| (base <<< 15) ||| rvEncodeItypeImm imm

/-- `rv_store`. -/
def rvStore (xlen : ℕ) (src base imm : BitVec 32) : BitVec 32 :=
  (if xlen = 64 then 0x00003023 else 0x00002023) ||| (src <<< 20) ||| (base <<< 15) ||| rvEncodeStypeImm imm

/-- `rv_bne`. -/
def rvBne (r1 r2 : BitVec 32) (target current : ℤ) : BitVec 32 :=
  0x1063 ||| (r1 <<< 15) ||| (r2 <<< 20) ||| rvEncodeSbtypeImm (BitVec.ofInt 32 (target - current))

/-- `rv_addi`. -/
def rvAddi (dst src : BitVec 32) (imm : ℤ) : BitVec 32 :=
  0x13 ||| (dst <<< 7) ||| (src <<< 15) ||| rvEncodeItypeImm (BitVec.ofInt 32 imm)

/-! ## Instructions -/

/-- Loads and stores carry their width in bytes. -/
inductive Insn
  | load (size rd rs1 : ℕ) (imm : BitVec 12)
  | store (size rs2 rs1 : ℕ) (imm : BitVec 12)
  | addi (rd rs1 : ℕ) (imm : BitVec 12)
  | bne (rs1 rs2 : ℕ) (imm : BitVec 13)
  | ebreak
  deriving DecidableEq

/-- `lw`, `ld`, `sw`, `sd`, `addi`, `bne` and `ebreak`; any other word is illegal here. -/
def decode (i : BitVec 32) : Option Insn :=
  let rd := (i.extractLsb' 7 5).toNat
  let rs1 := (i.extractLsb' 15 5).toNat
  let rs2 := (i.extractLsb' 20 5).toNat
  if i = 0x00100073 then some .ebreak
  else match (i.extractLsb' 0 7).toNat, (i.extractLsb' 12 3).toNat with
    | 0x03, 2 => some (.load 4 rd rs1 (i.extractLsb' 20 12))
    | 0x03, 3 => some (.load 8 rd rs1 (i.extractLsb' 20 12))
    | 0x23, 2 => some (.store 4 rs2 rs1 (i.extractLsb' 25 7 ++ i.extractLsb' 7 5))
    | 0x23, 3 => some (.store 8 rs2 rs1 (i.extractLsb' 25 7 ++ i.extractLsb' 7 5))
    | 0x13, 0 => some (.addi rd rs1 (i.extractLsb' 20 12))
    | 0x63, 1 => some (.bne rs1 rs2
        (i.extractLsb' 31 1 ++ i.extractLsb' 7 1 ++ i.extractLsb' 25 6 ++ i.extractLsb' 8 4 ++ 0#1))
    | _, _ => none

/-- The integer registers of a hart and the memory it sees. -/
structure Core (X : Xlen) where
  gprs : ℕ → BitVec X.bits
  mem : Mem X.bits

namespace Core

variable {X : Xlen}

/-- `x0` reads as zero. -/
def reg (c : Core X) (r : ℕ) : BitVec X.bits := if r = 0 then 0 else c.gprs r

/-- Writes to `x0` are lost. -/
def setReg (c : Core X) (r : ℕ) (v : BitVec X.bits) : Core X :=
  if r = 0 then c else { c with gprs := Function.update c.gprs r v }

end Core

/-- One instruction other than `ebreak`: the next program counter and state, or an exception.  Misaligned accesses
trap. -/
def Insn.exec {X : Xlen} (i : Insn) (pc : ℤ) (c : Core X) : Option (ℤ × Core X) :=
  match i with
  | .load size rd rs1 imm =>
    let a := c.reg rs1 + imm.signExtend X.bits
    if 8 * size ≤ X.bits ∧ a.toNat % size = 0 then
      some (pc + 4, c.setReg rd ((BitVec.ofNat (8 * size) (leNat (bytesAt c.mem a size))).signExtend X.bits))
    else none
  | .store size rs2 rs1 imm =>
    let a := c.reg rs1 + imm.signExtend X.bits
    if 8 * size ≤ X.bits ∧ a.toNat % size = 0 then
      some (pc + 4, { c with mem := splice c.mem a (leBytes size (c.reg rs2).toNat) })
    else none
  | .addi rd rs1 imm => some (pc + 4, c.setReg rd (c.reg rs1 + imm.signExtend X.bits))
  | .bne rs1 rs2 imm => some (if c.reg rs1 ≠ c.reg rs2 then pc + imm.toInt else pc + 4, c)
  | .ebreak => none

/-- The word at `pc` of a program buffer of `size` words. -/
def fetch (code : ℕ → BitVec 32) (size : ℕ) (pc : ℤ) : Option (BitVec 32) :=
  if 0 ≤ pc ∧ pc % 4 = 0 ∧ pc / 4 < size then some (code (pc / 4).toNat) else none

/-- Run the program buffer from `pc` to an `ebreak` (`true`) or an exception (`false`). -/
def runProgbuf {X : Xlen} (code : ℕ → BitVec 32) (size : ℕ) : ℕ → ℤ → Core X → Option (Bool × Core X)
  | 0, _, _ => none
  | n + 1, pc, c =>
    match fetch code size pc >>= decode with
    | none => some (false, c)
    | some .ebreak => some (true, c)
    | some i =>
      match i.exec pc c with
      | none => some (false, c)
      | some (pc', c') => runProgbuf code size n pc' c'

/-! ## The driver's words, read back -/

section Decode

variable (X : Xlen)

theorem decode_rvLoad : decode (rvLoad X.bits rvS1 rvS0 0) = some (.load X.bytes 9 8 0) := by
  cases X <;> decide

theorem decode_rvStore : decode (rvStore X.bits rvS1 rvS0 0) = some (.store X.bytes 9 8 0) := by
  cases X <;> decide

theorem decode_rvStore_zero : decode (rvStore X.bits rvX0 rvS0 0) = some (.store X.bytes 0 8 0) := by
  cases X <;> decide

theorem decode_rvAddi : decode (rvAddi rvS0 rvS0 X.bytes) = some (.addi 8 8 (BitVec.ofNat 12 X.bytes)) := by
  cases X <;> decide

theorem decode_rvBne : decode (rvBne rvS0 rvS1 (0 * 4) (2 * 4)) = some (.bne 8 9 (BitVec.ofInt 13 (-8))) := by
  decide

theorem decode_ebreak : decode matchEbreak = some .ebreak := rfl

theorem signExtend_bytes : (BitVec.ofNat 12 X.bytes).signExtend X.bits = BitVec.ofNat X.bits X.bytes := by
  cases X <;> decide

end Decode

/-! ## The driver's programs -/

/-- The register value with the given bytes. -/
def wordOf (X : Xlen) (bs : List UInt8) : BitVec X.bits := BitVec.ofNat X.bits (leNat bs)

/-- The register-wide word at `a`. -/
def wordAt {X : Xlen} (m : Mem X.bits) (a : BitVec X.bits) : BitVec X.bits := wordOf X (bytesAt m a X.bytes)

theorem toNat_wordOf {X : Xlen} {bs : List UInt8} (h : bs.length = X.bytes) : (wordOf X bs).toNat = leNat bs := by
  have hlt := leNat_lt bs
  rw [h, X.pow_bits] at hlt
  rw [wordOf, BitVec.toNat_ofNat, Nat.mod_eq_of_lt hlt]

theorem leBytes_wordOf {X : Xlen} {bs : List UInt8} (h : bs.length = X.bytes) :
    leBytes X.bytes (wordOf X bs).toNat = bs := by
  have hback := leBytes_leNat bs
  rw [h] at hback
  rw [toNat_wordOf h, hback]

/-- Alignment is kept by steps of a word, also across the end of the address space. -/
theorem aligned_add {X : Xlen} {a : BitVec X.bits} {k : ℕ} (h : a.toNat % X.bytes = 0) (hk : X.bytes ∣ k) :
    (a + BitVec.ofNat X.bits k).toNat % X.bytes = 0 := by
  have hdvd : X.bytes ∣ (a.toNat + k) := (Nat.dvd_of_mod_eq_zero h).add hk
  rw [BitVec.toNat_add, BitVec.toNat_ofNat, Nat.add_mod_mod, Nat.mod_mod_of_dvd _ X.bytes_dvd]
  exact Nat.mod_eq_zero_of_dvd hdvd

section Programs

variable {X : Xlen} {code : ℕ → BitVec 32} {size : ℕ}

theorem fetch_word {i : ℕ} {pc : ℤ} (hpc : pc = 4 * i) (hi : i < size) : fetch code size pc = some (code i) := by
  subst hpc
  have hdiv : (4 * (i : ℤ)) / 4 = i := by omega
  rw [fetch, if_pos ⟨by omega, by omega, by omega⟩, hdiv, Int.toNat_natCast]

theorem runProgbuf_insn {i : ℕ} {insn : Insn} {pc pc' : ℤ} {c c' : Core X} (n : ℕ)
    (hpc : pc = 4 * i) (hi : i < size)
    (hdec : decode (code i) = some insn) (hex : insn.exec pc c = some (pc', c')) :
    runProgbuf code size (n + 1) pc c = runProgbuf code size n pc' c' := by
  have hfetch : (fetch code size pc >>= decode) = some insn := by
    rw [fetch_word hpc hi]
    exact hdec
  rw [runProgbuf, hfetch]
  cases insn with
  | ebreak => cases hex
  | _ => simp only [hex]

theorem runProgbuf_ebreak {i : ℕ} {pc : ℤ} {c : Core X} (n : ℕ) (hpc : pc = 4 * i) (hi : i < size)
    (hdec : code i = matchEbreak) : runProgbuf code size (n + 1) pc c = some (true, c) := by
  have hfetch : (fetch code size pc >>= decode) = some .ebreak := by
    rw [fetch_word hpc hi, hdec]
    exact decode_ebreak
  rw [runProgbuf, hfetch]

variable {c : Core X} (haligned : (c.gprs 8).toNat % X.bytes = 0)

section Exec

variable {pc : ℤ}

omit haligned in
theorem addr_eq : c.reg 8 + (0 : BitVec 12).signExtend X.bits = c.gprs 8 := by
  have hzero : (0 : BitVec 12).signExtend X.bits = 0 := by cases X <;> rfl
  rw [hzero, add_zero]
  rfl

include haligned in
theorem exec_load : (Insn.load X.bytes 9 8 0).exec pc c =
    some (pc + 4, { c with gprs := Function.update c.gprs 9 (wordAt c.mem (c.gprs 8)) }) := by
  have hval (v : ℕ) : (BitVec.ofNat (8 * X.bytes) v).signExtend X.bits = BitVec.ofNat X.bits v := by
    cases X <;> exact BitVec.signExtend_eq _
  simp only [Insn.exec, addr_eq]
  rw [if_pos ⟨X.bits_eq.ge, haligned⟩, hval]
  rfl

include haligned in
theorem exec_store {r : ℕ} : (Insn.store X.bytes r 8 0).exec pc c =
    some (pc + 4, { c with mem := splice c.mem (c.gprs 8) (leBytes X.bytes (c.reg r).toNat) }) := by
  simp only [Insn.exec, addr_eq]
  rw [if_pos ⟨X.bits_eq.ge, haligned⟩]

theorem exec_addi : (Insn.addi 8 8 (BitVec.ofNat 12 X.bytes)).exec pc c =
    some (pc + 4, { c with gprs := Function.update c.gprs 8 (c.gprs 8 + BitVec.ofNat X.bits X.bytes) }) := by
  simp only [Insn.exec, signExtend_bytes]
  rfl

theorem exec_bne_back (h : c.gprs 8 ≠ c.gprs 9) :
    (Insn.bne 8 9 (BitVec.ofInt 13 (-8))).exec 8 c = some (0, c) := by
  have h' : c.reg 8 ≠ c.reg 9 := h
  simp only [Insn.exec]
  rw [if_pos h']
  rfl

theorem exec_bne_out (h : c.gprs 8 = c.gprs 9) :
    (Insn.bne 8 9 (BitVec.ofInt 13 (-8))).exec 8 c = some (12, c) := by
  have h' : c.reg 8 = c.reg 9 := h
  simp only [Insn.exec]
  rw [if_neg (not_not.mpr h')]
  rfl

end Exec

variable (h1 : code 1 = rvAddi rvS0 rvS0 X.bytes)
include haligned h1

theorem runProgbuf_load (hsize : 3 ≤ size) (h0 : code 0 = rvLoad X.bits rvS1 rvS0 0) (h2 : code 2 = matchEbreak)
    (n : ℕ) : runProgbuf code size (n + 3) 0 c = some (true,
      ⟨Function.update (Function.update c.gprs 9 (wordAt c.mem (c.gprs 8))) 8
        (c.gprs 8 + BitVec.ofNat X.bits X.bytes), c.mem⟩) := by
  refine (runProgbuf_insn (n + 2) (i := 0) rfl (by omega) (by rw [h0]; exact decode_rvLoad X)
    (exec_load haligned)).trans ?_
  refine (runProgbuf_insn (n + 1) (i := 1) rfl (by omega) (by rw [h1]; exact decode_rvAddi X) exec_addi).trans ?_
  exact runProgbuf_ebreak n (i := 2) rfl (by omega) h2

theorem runProgbuf_store (hsize : 3 ≤ size) (h0 : code 0 = rvStore X.bits rvS1 rvS0 0) (h2 : code 2 = matchEbreak)
    (n : ℕ) : runProgbuf code size (n + 3) 0 c = some (true,
      ⟨Function.update c.gprs 8 (c.gprs 8 + BitVec.ofNat X.bits X.bytes),
        splice c.mem (c.gprs 8) (leBytes X.bytes (c.gprs 9).toNat)⟩) := by
  refine (runProgbuf_insn (n + 2) (i := 0) rfl (by omega) (by rw [h0]; exact decode_rvStore X)
    (exec_store haligned)).trans ?_
  refine (runProgbuf_insn (n + 1) (i := 1) rfl (by omega) (by rw [h1]; exact decode_rvAddi X) exec_addi).trans ?_
  exact runProgbuf_ebreak n (i := 2) rfl (by omega) h2

/-- One round of the zero loop, up to its branch. -/
theorem runProgbuf_clear_round (hsize : 4 ≤ size) (h0 : code 0 = rvStore X.bits rvX0 rvS0 0) (n : ℕ) :
    runProgbuf code size (n + 2) 0 c = runProgbuf code size n 8
      ⟨Function.update c.gprs 8 (c.gprs 8 + BitVec.ofNat X.bits X.bytes),
        splice c.mem (c.gprs 8) (List.replicate X.bytes 0)⟩ := by
  refine (runProgbuf_insn (n + 1) (i := 0) rfl (by omega) (by rw [h0]; exact decode_rvStore_zero X)
    (exec_store haligned)).trans ?_
  refine (runProgbuf_insn n (i := 1) rfl (by omega) (by rw [h1]; exact decode_rvAddi X) exec_addi).trans ?_
  rw [show c.reg 0 = 0 from rfl, show (0 : BitVec X.bits).toNat = 0 from BitVec.toNat_ofNat .., leBytes_zero]
  rfl

omit haligned in
/-- The zero loop writes one word and goes round until `s0` meets `s1`; a bound of the whole address space away is
met after every word has been cleared. -/
theorem runProgbuf_clear (hsize : 4 ≤ size) (h0 : code 0 = rvStore X.bits rvX0 rvS0 0)
    (h2 : code 2 = rvBne rvS0 rvS1 (0 * 4) (2 * 4)) (h3 : code 3 = matchEbreak) (n : ℕ) :
    ∀ (k : ℕ) (c : Core X), (c.gprs 8).toNat % X.bytes = 0 → (k + 1) * X.bytes ≤ 2 ^ X.bits →
      c.gprs 9 = c.gprs 8 + BitVec.ofNat X.bits ((k + 1) * X.bytes) →
      runProgbuf code size (n + 1 + 3 * (k + 1)) 0 c = some (true,
        ⟨Function.update c.gprs 8 (c.gprs 9),
          splice c.mem (c.gprs 8) (List.replicate ((k + 1) * X.bytes) 0)⟩) := by
  intro k
  induction k with
  | zero =>
    intro c ha hk h9
    refine (runProgbuf_clear_round ha h1 hsize h0 (n + 2)).trans ?_
    refine (runProgbuf_insn (n + 1) (i := 2) rfl (by omega) (by rw [h2]; exact decode_rvBne)
      (exec_bne_out ?_)).trans ?_
    · simp [h9]
    refine (runProgbuf_ebreak n (i := 3) rfl (by omega) h3).trans ?_
    simp [h9]
  | succ k ih =>
    intro c ha hk h9
    have hsplit : (k + 1 + 1) * X.bytes = X.bytes + (k + 1) * X.bytes := by ring
    have hpos := X.bytes_pos
    have hrest : 0 < (k + 1) * X.bytes := Nat.mul_pos (by omega) hpos
    rw [hsplit] at hk h9
    have h9' : c.gprs 9 = c.gprs 8 + BitVec.ofNat X.bits X.bytes + BitVec.ofNat X.bits ((k + 1) * X.bytes) := by
      rw [h9, BitVec.ofNat_add, BitVec.add_assoc]
    have hne : c.gprs 8 + BitVec.ofNat X.bits X.bytes ≠ c.gprs 9 := by
      intro heq
      rw [← heq, left_eq_add] at h9'
      have := congrArg BitVec.toNat h9'
      rw [BitVec.toNat_ofNat, Nat.mod_eq_of_lt (by omega)] at this
      simp at this
      omega
    refine (runProgbuf_clear_round ha h1 hsize h0 (n + 1 + 3 * (k + 1) + 1)).trans ?_
    refine (runProgbuf_insn (n + 1 + 3 * (k + 1)) (i := 2) rfl (by omega) (by rw [h2]; exact decode_rvBne)
      (exec_bne_back ?_)).trans ?_
    · simpa using hne
    rw [ih _ (by simpa using aligned_add ha dvd_rfl) (by omega) (by simpa using h9')]
    have hmem :
        splice (splice c.mem (c.gprs 8) (List.replicate X.bytes 0)) (c.gprs 8 + BitVec.ofNat X.bits X.bytes)
          (List.replicate ((k + 1) * X.bytes) 0) =
        splice c.mem (c.gprs 8) (List.replicate ((k + 1 + 1) * X.bytes) 0) := by
      rw [hsplit, ← List.replicate_append_replicate, ← splice_append (by simpa using hk), List.length_replicate]
    simp [hmem]

end Programs

end Soceteer.Fesvr
