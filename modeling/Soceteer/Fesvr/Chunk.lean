import Soceteer.Fesvr.Command

/-!
# Soceteer.Fesvr.Chunk — the chunk transfers

`read_chunk` keeps one load ahead of the register it reads, `write_chunk` starts its command through the watched
data register, and `clear_chunk` leaves the loop to the hart.  Each moves exactly its words and gives `s0` and `s1`
back.

* `Idle`, `After`: the states between two transfers, and what a transfer leaves.
* `runs_readChunk`, `runs_writeChunk`, `runs_clearChunk`; `stuck_readChunk`, `stuck_clearChunk`: the arrays of the
  driver are sized by the target, and too small ones are written past their end.
-/

namespace Soceteer.Fesvr

open Soceteer.Lib Filter

variable {T : Target} {d : Dm T}

/-- Between transfers: no command, no error, nothing watched, and hart 0 running or halted. -/
structure Idle (d : Dm T) : Prop where
  quiet : Quiet d.toArch d
  run : d.run 0 = .running ∨ d.run 0 = .halted

/-- The state after a transfer: memory is `m`, and no register of any hart has changed. -/
structure After (d : Dm T) (m : Mem T.xlen.bits) (d' : Dm T) : Prop where
  idle : Idle d'
  mem : d'.mem = m
  gprs : d'.gprs = d.gprs

/-! ## `s0` and `s1` -/

/-- Only `s0` and `s1` of hart 0 may differ. -/
def Clobbered (g g' : ℕ → ℕ → BitVec T.xlen.bits) : Prop :=
  ∀ h r, ¬ (h = 0 ∧ (r = 8 ∨ r = 9)) → g' h r = g h r

theorem Clobbered.update {g g' : ℕ → ℕ → BitVec T.xlen.bits} (h : Clobbered g g') {r : ℕ} (hr : r = 8 ∨ r = 9)
    (v : BitVec T.xlen.bits) : Clobbered g (Function.update g' 0 (Function.update (g' 0) r v)) := by
  intro j i hne
  by_cases hj : j = 0
  · subst hj
    have hi : i ≠ r := by
      rintro rfl
      exact hne ⟨rfl, hr⟩
    rw [Function.update_self, Function.update_of_ne hi]
    exact h 0 i hne
  · rw [Function.update_of_ne hj]
    exact h j i hne

/-- Giving both back restores every register. -/
theorem Clobbered.restored {g g' : ℕ → ℕ → BitVec T.xlen.bits} (h : Clobbered g g') :
    Function.update (Function.update g' 0 (Function.update (g' 0) 8 (g 0 8))) 0
      (Function.update (Function.update (g' 0) 8 (g 0 8)) 9 (g 0 9)) = g := by
  funext j i
  by_cases hj : j = 0
  · subst hj
    rw [Function.update_self]
    by_cases h9 : i = 9
    · rw [h9, Function.update_self]
    rw [Function.update_of_ne h9]
    by_cases h8 : i = 8
    · rw [h8, Function.update_self]
    · rw [Function.update_of_ne h8]
      exact h 0 i (fun hc => hc.2.elim h8 h9)
  · rw [Function.update_of_ne hj, Function.update_of_ne hj]
    exact h j i (fun hc => hj hc.1)

theorem rvS0_toNat : rvS0.toNat = 8 := rfl

theorem rvS1_toNat : rvS1.toNat = 9 := rfl

/-- How a transfer ends. -/
theorem runs_epilogue {hart : ℕ} {α : Type} {out : α} {m : Mem T.xlen.bits} {d₀ : Dm T} (h : Ready 0 d)
    (hdata : T.xlen.words ≤ T.datacount) (hmem : d.mem = m) (hg : Clobbered d₀.gprs d.gprs) :
    Runs (do
      restoreReg rvS0 ((d₀.gprs 0 8).setWidth 64)
      restoreReg rvS1 ((d₀.gprs 0 9).setWidth 64)
      resume hart
      pure out) d fun out' d' => out' = out ∧ After d₀ m d' := by
  have hback (v : BitVec T.xlen.bits) : (v.setWidth 64).setWidth T.xlen.bits = v := by
    rw [BitVec.setWidth_setWidth_of_le _ T.xlen.bits_le, BitVec.setWidth_eq]
  refine (runs_restoreReg h (Or.inl rfl) hdata).bind ?_
  rintro - d₁ ⟨h₁, hm₁, hg₁⟩
  refine (runs_restoreReg h₁ (Or.inr rfl) hdata).bind ?_
  rintro - d₂ ⟨h₂, hm₂, hg₂⟩
  refine (runs_resume h₂).bind ?_
  rintro - d₃ ⟨hq, hr⟩
  have harch := hq.arch
  refine runs_pure ⟨rfl, ⟨by rw [harch]; exact hq, Or.inl hr⟩, by rw [harch, hm₂, hm₁, hmem], ?_⟩
  rw [harch, hg₂, hg₁, hback, hback, rvS0_toNat, rvS1_toNat, Function.update_self, hg.restored]

/-- How a transfer begins. -/
theorem runs_prologue {hart : ℕ} {α : Type} {k : BitVec 64 → BitVec 64 → Prog (Dm T) α} {Q : α → Dm T → Prop}
    (h : Idle d) (hdata : T.xlen.words ≤ T.datacount)
    (hk : ∀ d', Ready 0 d' → d'.mem = d.mem → d'.gprs = d.gprs →
      Runs (k ((d.gprs 0 8).setWidth 64) ((d.gprs 0 9).setWidth 64)) d' Q) :
    Runs (do
      halt hart
      let s0 ← saveReg rvS0
      let s1 ← saveReg rvS1
      k s0 s1) d Q := by
  refine (runs_halt h.quiet h.run).bind ?_
  rintro - d₁ ⟨h₁, ha₁⟩
  refine (runs_saveReg h₁ (Or.inl rfl) hdata).bind ?_
  rintro s0 d₂ ⟨hs0, h₂, hm₂, hg₂⟩
  refine (runs_saveReg h₂ (Or.inr rfl) hdata).bind ?_
  rintro s1 d₃ ⟨hs1, h₃, hm₃, hg₃⟩
  rw [hs0, hs1, hg₂, ha₁]
  exact hk d₃ h₃ (by rw [hm₃, hm₂, ha₁]) (by rw [hg₃, hg₂, ha₁])

theorem stuck_prologue {hart : ℕ} {α : Type} {k : BitVec 64 → BitVec 64 → Prog (Dm T) α} (h : Idle d)
    (hdata : T.xlen.words ≤ T.datacount) (hk : ∀ s0 s1 d', Stuck (k s0 s1) d') :
    Stuck (do
      halt hart
      let s0 ← saveReg rvS0
      let s1 ← saveReg rvS1
      k s0 s1) d := by
  refine (runs_halt h.quiet h.run).stuck_bind ?_
  rintro - d₁ ⟨h₁, -⟩
  refine (runs_saveReg h₁ (Or.inl rfl) hdata).stuck_bind ?_
  rintro s0 d₂ ⟨-, h₂, -⟩
  refine (runs_saveReg h₂ (Or.inr rfl) hdata).stuck_bind ?_
  rintro s1 d₃ -
  exact hk s0 s1 d₃

/-! ## Words between arrays and memory -/

theorem CArray.bytes_regWords {X : Xlen} (v : BitVec X.bits) (rest : CArray) :
    CArray.bytes ((regWords v).map some ++ rest) X.words = some (leBytes X.bytes v.toNat) := by
  have hread : (List.range X.words).mapM (CArray.read ((regWords v).map some ++ rest)) = some (regWords v) := by
    cases X <;> rfl
  rw [CArray.bytes, hread, Option.map_some, flatMap_regWords]

/-- `memcpy` of a register's worth of bytes into an array. -/
theorem CArray.fill_eq {X : Xlen} {b : CArray} {src : List UInt8} {off : ℕ} (hlen : X.words ≤ b.length)
    (hsrc : off + X.bytes ≤ src.length) :
    b.fill src off X.words = some ((regWords (wordOf X ((src.drop off).take X.bytes))).map some ++
      b.drop X.words) := by
  have hbytes : ((src.drop off).take X.bytes).length = X.bytes := by simp; omega
  have hwords : (List.range X.words).map (fun i => BitVec.ofNat 32 (leNat ((src.drop (off + 4 * i)).take 4))) =
      regWords (wordOf X ((src.drop off).take X.bytes)) := by
    refine List.map_congr_left fun i hi => ?_
    have hi := List.mem_range.mp hi
    have hsize := X.bytes_eq
    -- word `i` of the source is the same bytes of the register's worth
    have hword : (src.drop (off + 4 * i)).take 4 = (((src.drop off).take X.bytes).drop (4 * i)).take 4 := by
      rw [List.drop_take, List.drop_drop, List.take_take, min_eq_left (by omega)]
    have hpow : 256 ^ (4 * i) = 2 ^ (32 * i) := by
      rw [show 256 = 2 ^ 8 by norm_num, ← pow_mul]
      congr 1
      omega
    rw [hword, leNat_take (by simp; omega), leNat_drop (by omega), ← toNat_wordOf hbytes, hpow]
    apply BitVec.eq_of_toNat_eq
    simp [Nat.shiftRight_eq_div_pow]
  rw [CArray.fill, if_pos (by rw [← X.bytes_eq]; exact hsrc), hwords, CArray.assign_eq (by simpa using hlen),
    length_regWords]

/-- The program of `read_chunk`. -/
def loadProgram (X : Xlen) : List (BitVec 32) := [rvLoad X.bits rvS1 rvS0 0, rvAddi rvS0 rvS0 X.bytes, matchEbreak]

/-- One run of the load program: `s1` gets the word at `s0`, and `s0` moves on. -/
theorem steps_load {a : Arch T} {A : BitVec T.xlen.bits} (hprog : 3 ≤ T.progbufsize) {f : ℕ → BitVec 32}
    (hcode : a.progbuf = overlay (loadProgram T.xlen) f) (h8 : a.gprs 0 8 = A)
    (haligned : A.toNat % T.xlen.bytes = 0) :
    Steps true a ((a.setGpr 9 (wordAt a.mem A)).setGpr 8 (A + BitVec.ofNat T.xlen.bits T.xlen.bytes)) := by
  have hrun (n : ℕ) :=
    @runProgbuf_load T.xlen a.progbuf T.progbufsize (a.core 0) (by rw [← h8] at haligned; exact haligned)
    (by rw [hcode]; rfl) hprog (by rw [hcode]; rfl) (by rw [hcode]; rfl) n
  have hsteps := steps_true hrun
  have hcore : (a.core 0).gprs 8 = A := h8
  rw [hcore] at hsteps
  convert hsteps using 1
  simp [Arch.setGpr, Arch.setCore, Arch.core]

section Read

variable {hart len : ℕ} {taddr : BitVec 64}

theorem command_readStart (X : Xlen) :
    acAccessRegisterTransfer ||| acAccessRegisterWrite ||| acAccessRegisterPostexec |||
    rvAcArSize X.bits ||| rvAcArRegno rvS0 = acCommand X true true rvS0 := by
  cases X <;> decide

theorem command_readNext (X : Xlen) (c : Prop) [Decidable c] :
    (if c then acAccessRegisterTransfer ||| rvAcArSize X.bits ||| rvAcArRegno rvS1 ||| acAccessRegisterPostexec
      else acAccessRegisterTransfer ||| rvAcArSize X.bits ||| rvAcArRegno rvS1) =
        acCommand X false (decide c) rvS1 := by
  by_cases h : c <;> cases X <;> simp only [h] <;> decide

/-- The loop of `read_chunk` before word `i` of `n`: the words before it have been copied, its own is in `s1`, and
`s0` is past it. -/
structure ReadInv (d₀ : Dm T) (A : BitVec T.xlen.bits) (n i : ℕ) (st : CArray × List UInt8) (d : Dm T) : Prop where
  ready : Ready 0 d
  length : T.xlen.words ≤ st.1.length
  copied : st.2 = bytesAt d₀.mem A (i * T.xlen.bytes)
  mem : d.mem = d₀.mem
  gprs : Clobbered d₀.gprs d.gprs
  code : ∃ f, d.progbuf = overlay (loadProgram T.xlen) f
  ahead : i < n → d.gprs 0 9 = wordAt d₀.mem (A + BitVec.ofNat T.xlen.bits (i * T.xlen.bytes)) ∧
    d.gprs 0 8 = A + BitVec.ofNat T.xlen.bits ((i + 1) * T.xlen.bytes)

variable (hprog : 3 ≤ T.progbufsize) (hdata : T.xlen.words ≤ T.datacount)
include hprog hdata

theorem ReadInv.step {d₀ : Dm T} {A : BitVec T.xlen.bits} (haligned : A.toNat % T.xlen.bytes = 0) {n i : ℕ}
    {st : CArray × List UInt8} (hi : i < n) (hI : ReadInv d₀ A n i st d) :
    Runs (do
      let (_, data) ← runAbstractCommand (acCommand T.xlen false (decide (i + 1 < n)) rvS1)
        [] 0 st.1 T.xlen.words true
      let word ← Prog.lift (data.bytes T.xlen.words)
      pure (data, st.2 ++ word)) d (ReadInv d₀ A n (i + 1)) := by
  obtain ⟨f, hcode⟩ := hI.code
  obtain ⟨h9, h8⟩ := hI.ahead hi
  have hword : i * T.xlen.bytes + T.xlen.bytes = (i + 1) * T.xlen.bytes := by ring
  -- what the command leaves: nothing has run, or the next load has
  obtain ⟨b, hsteps, hmem, hg, hcode', hahead⟩ : ∃ b : Arch T,
      Steps (decide (i + 1 < n)) (d.toArch.overlayData (regWords (d.gprs 0 rvS1.toNat))) b ∧ b.mem = d₀.mem ∧
      Clobbered d₀.gprs b.gprs ∧ (∃ f, b.progbuf = overlay (loadProgram T.xlen) f) ∧
      (i + 1 < n → b.gprs 0 9 = wordAt d₀.mem (A + BitVec.ofNat T.xlen.bits ((i + 1) * T.xlen.bytes)) ∧
        b.gprs 0 8 = A + BitVec.ofNat T.xlen.bits ((i + 1 + 1) * T.xlen.bytes)) := by
    by_cases hlast : i + 1 < n
    · rw [decide_eq_true hlast]
      have hsteps := steps_load (a := d.toArch.overlayData (regWords (d.gprs 0 rvS1.toNat))) hprog hcode h8
        (aligned_add haligned (Dvd.intro_left _ rfl))
      refine ⟨_, hsteps, hI.mem, (hI.gprs.update (Or.inr rfl) _).update (Or.inl rfl) _, ⟨f, hcode⟩,
        fun _ => ⟨?_, ?_⟩⟩
      · rw [show (d.toArch.overlayData (regWords (d.gprs 0 rvS1.toNat))).mem = d₀.mem from hI.mem]
        simp [Arch.setGpr]
      · rw [show (i + 1 + 1) * T.xlen.bytes = (i + 1) * T.xlen.bytes + T.xlen.bytes by ring, BitVec.ofNat_add,
          ← BitVec.add_assoc]
        simp [Arch.setGpr]
    · rw [decide_eq_false hlast]
      exact ⟨_, steps_false, hI.mem, hI.gprs, ⟨f, hcode⟩, fun hc => absurd hc hlast⟩
  refine (runs_command_read hI.ready (Or.inr rfl) hdata hI.length hsteps).bind ?_
  rintro ⟨err, data⟩ d₁ ⟨hout, h₁, ha₁⟩
  dsimp only at hout ⊢
  subst hout
  refine runs_lift_bind (CArray.bytes_regWords _ _) (runs_pure ⟨h₁, by simp, ?_, ?_, ?_, ?_, ?_⟩)
  · rw [rvS1_toNat, h9, wordAt, leBytes_wordOf (length_bytesAt ..), hI.copied, ← bytesAt_add, hword]
  · rw [ha₁, hmem]
  · rw [ha₁]
    exact hg
  · rw [ha₁]
    exact hcode'
  · rw [ha₁]
    exact hahead

/-- **`read_chunk`** returns the words at an aligned address. -/
theorem runs_readChunk (h : Idle d) (haligned : (taddr.setWidth T.xlen.bits).toNat % T.xlen.bytes = 0) :
    Runs (readChunk hart taddr len) d fun out d' =>
      out = bytesAt d.mem (taddr.setWidth T.xlen.bits) (chunkWords T.xlen len * T.xlen.bytes) ∧
        After d d.mem d' := by
  unfold readChunk
  refine runs_prologue h hdata fun d₁ h₁ hm₁ hg₁ => ?_
  have hlen : (loadProgram T.xlen).length ≤ T.progbufsize := hprog
  refine runs_lift_bind (CArray.assign_eq (by simpa [CArray.declare] using hprog)) ?_
  rw [halves_eq]
  refine runs_lift_bind (CArray.assign_eq (by simpa [CArray.declare] using hdata)) ?_
  rw [command_readStart]
  have hsteps := steps_load (a := ((d₁.toArch.overlayProgbuf (loadProgram T.xlen)).overlayData
    (regWords (taddr.setWidth T.xlen.bits))).setGpr 8 (taddr.setWidth T.xlen.bits)) hprog rfl
    (by simp [Arch.setGpr]) haligned
  refine (runs_command_write h₁ (Or.inl rfl) hdata (loadProgram T.xlen) hlen _ _ hsteps).bind ?_
  rintro ⟨err, data⟩ d₂ ⟨hout, h₂, -, ha₂⟩
  dsimp only at hout ⊢
  subst hout
  have hclob : Clobbered d.gprs d₁.gprs := by
    rw [hg₁]
    exact fun _ _ _ => rfl
  refine (Runs.forFrom (ReadInv d (taddr.setWidth T.xlen.bits) (chunkWords T.xlen len))
    (fun i st d' _ hi hI => ?_) ?_).bind ?_
  · have hstep := hI.step hprog hdata haligned (by omega)
    rwa [← command_readNext] at hstep
  · refine ⟨h₂, by simp, by simp [bytesAt], ?_, ?_, ⟨d₁.progbuf, by rw [ha₂]; rfl⟩, fun _ => ⟨?_, ?_⟩⟩
    · rw [ha₂]
      exact hm₁
    · rw [ha₂]
      exact ((hclob.update (Or.inl rfl) _).update (Or.inr rfl) _).update (Or.inl rfl) _
    · rw [ha₂, ← hm₁]
      simp [Arch.setGpr, Arch.overlayData, Arch.overlayProgbuf]
    · rw [ha₂]
      simp [Arch.setGpr]
  rintro ⟨data, dst⟩ d₃ hI
  have hdst : dst = bytesAt d.mem (taddr.setWidth T.xlen.bits) (chunkWords T.xlen len * T.xlen.bytes) := by
    simpa using hI.copied
  rw [← hdst]
  exact runs_epilogue hI.ready hdata hI.mem hI.gprs

omit hprog hdata in
/-- Too few data registers, or too short a program buffer. -/
theorem stuck_readChunk (h : Idle d) (hshort : ¬ (3 ≤ T.progbufsize ∧ T.xlen.words ≤ T.datacount)) :
    Stuck (readChunk hart taddr len) d := by
  unfold readChunk
  by_cases hdata : T.xlen.words ≤ T.datacount
  · refine stuck_prologue h hdata fun _ _ d₁ => stuck_lift_bind (if_neg ?_)
    simpa [CArray.declare] using fun hprog => hshort ⟨hprog, hdata⟩
  · exact (runs_halt h.quiet h.run).stuck_bind fun _ d₁ _ => Stuck.bind (Stuck.bind (stuck_command hdata))

end Read

/-! ## `write_chunk` -/

/-- The program of `write_chunk`. -/
def storeProgram (X : Xlen) : List (BitVec 32) :=
  [rvStore X.bits rvS1 rvS0 0, rvAddi rvS0 rvS0 X.bytes, matchEbreak]

def Arch.setMem (a : Arch T) (m : Mem T.xlen.bits) : Arch T := { a with mem := m }

/-- One run of the store program: the word at `s0` gets `s1`, and `s0` moves on. -/
theorem steps_store {a : Arch T} {A v : BitVec T.xlen.bits} (hprog : 3 ≤ T.progbufsize) {f : ℕ → BitVec 32}
    (hcode : a.progbuf = overlay (storeProgram T.xlen) f) (h8 : a.gprs 0 8 = A) (h9 : a.gprs 0 9 = v)
    (haligned : A.toNat % T.xlen.bytes = 0) :
    Steps true a ((a.setGpr 8 (A + BitVec.ofNat T.xlen.bits T.xlen.bytes)).setMem
      (splice a.mem A (leBytes T.xlen.bytes v.toNat))) := by
  have hrun (n : ℕ) := @runProgbuf_store T.xlen a.progbuf T.progbufsize (a.core 0)
    (by rw [← h8] at haligned; exact haligned) (by rw [hcode]; rfl) hprog (by rw [hcode]; rfl)
      (by rw [hcode]; rfl) n
  have hsteps := steps_true hrun
  have hcore8 : (a.core 0).gprs 8 = A := h8
  have hcore9 : (a.core 0).gprs 9 = v := h9
  rw [hcore8, hcore9] at hsteps
  exact hsteps

theorem regWords_wide {X : Xlen} (hx : X.bits = 64) (v : BitVec X.bits) : ∃ lo hi, regWords v = [lo, hi] := by
  cases X with
  | rv32 => cases hx
  | rv64 => exact ⟨_, _, rfl⟩

theorem regWords_narrow {X : Xlen} (hx : X.bits ≠ 64) (v : BitVec X.bits) : ∃ lo, regWords v = [lo] := by
  cases X with
  | rv32 => exact ⟨_, rfl⟩
  | rv64 => exact absurd rfl hx

theorem overlay_one (lo : BitVec 32) (f : ℕ → BitVec 32) : overlay [lo] f = Function.update f 0 lo := by
  funext i
  match i with
  | 0 => rfl
  | i + 1 => rfl

theorem overlay_two (lo hi : BitVec 32) (f : ℕ → BitVec 32) :
    overlay [lo, hi] f = Function.update (Function.update f 1 hi) 0 lo := by
  funext i
  match i with
  | 0 => rfl
  | 1 => rfl
  | i + 2 => rfl

section Write

variable {hart len : ℕ} {taddr : BitVec 64} {src : List UInt8}

/-- The words before `i` are in memory, `s0` points at it, and the store program is in place. -/
structure Stored (d₀ : Dm T) (A : BitVec T.xlen.bits) (src : List UInt8) (i : ℕ) (a : Arch T) : Prop where
  mem : a.mem = splice d₀.mem A (src.take (i * T.xlen.bytes))
  gprs : Clobbered d₀.gprs a.gprs
  s0 : a.gprs 0 8 = A + BitVec.ofNat T.xlen.bits (i * T.xlen.bytes)
  code : ∃ f, a.progbuf = overlay (storeProgram T.xlen) f

/-- The loop of `write_chunk` before word `i`: the command that stores a word is armed. -/
structure WriteInv (d₀ : Dm T) (A : BitVec T.xlen.bits) (src : List UInt8) (i : ℕ) (data : CArray)
    (d : Dm T) : Prop where
  ready : Ready (if i = 1 then 0 else 1) d
  length : T.xlen.words ≤ data.length
  command : d.command = acCommand T.xlen true true rvS1
  stored : Stored d₀ A src i d.toArch

variable {d₀ : Dm T} {A : BitVec T.xlen.bits} {i : ℕ} {data : CArray} (hprog : 3 ≤ T.progbufsize)
  (hdata : T.xlen.words ≤ T.datacount) (haligned : A.toNat % T.xlen.bytes = 0)
include hprog

include haligned in
/-- Word `i` in `s1` is stored by a run of the program. -/
theorem Stored.step {a : Arch T} (hI : Stored d₀ A src i a) (hsrc : (i + 1) * T.xlen.bytes ≤ src.length)
    (hfit : (i + 1) * T.xlen.bytes ≤ 2 ^ T.xlen.bits) :
    let v := wordOf T.xlen ((src.drop (i * T.xlen.bytes)).take T.xlen.bytes)
    ∃ b : Arch T, Steps true ((a.overlayData (regWords v)).setGpr 9 v) b ∧ Stored d₀ A src (i + 1) b := by
  intro v
  obtain ⟨f, hcode⟩ := hI.code
  have hnext : (i + 1) * T.xlen.bytes = i * T.xlen.bytes + T.xlen.bytes := by ring
  have hbytes : ((src.drop (i * T.xlen.bytes)).take T.xlen.bytes).length = T.xlen.bytes := by simp; omega
  have hsteps := steps_store (a := (a.overlayData (regWords v)).setGpr 9 v) (v := v) hprog hcode
    (A := A + BitVec.ofNat T.xlen.bits (i * T.xlen.bytes)) (by rw [← hI.s0]; simp [Arch.setGpr, Arch.overlayData])
    (by simp [Arch.setGpr]) (aligned_add haligned (Dvd.intro_left _ rfl))
  refine ⟨_, hsteps, ?_, (hI.gprs.update (Or.inr rfl) _).update (Or.inl rfl) _, ?_, f, hcode⟩
  · have hmem : ((a.overlayData (regWords v)).setGpr 9 v).mem = a.mem := rfl
    have hlen : (src.take (i * T.xlen.bytes)).length = i * T.xlen.bytes := by simp; omega
    have hsplit : src.take ((i + 1) * T.xlen.bytes) =
        src.take (i * T.xlen.bytes) ++ (src.drop (i * T.xlen.bytes)).take T.xlen.bytes := by
          rw [hnext, List.take_add]
    rw [hsplit, ← splice_append (by omega), hlen]
    change splice _ _ (leBytes T.xlen.bytes v.toNat) = _
    rw [hmem, hI.mem, leBytes_wordOf hbytes]
  · rw [hnext, BitVec.ofNat_add, ← BitVec.add_assoc]
    simp [Arch.setGpr, Arch.setMem]

include hdata

omit hprog in
/-- Both words of a register reach the data registers, and the second starts the command. -/
theorem runs_autoexecWord {v : BitVec T.xlen.bits} {rest : CArray} {b : Arch T} (h : Ready 1 d)
    (heff : ∀ᶠ n in atTop, accessRegister d.command 0 n (d.toArch.overlayData (regWords v)) = some (0, b)) :
    Runs (autoexecWord ((regWords v).map some ++ rest)) d fun _ d' =>
      Ready 1 d' ∧ d'.command = d.command ∧ d'.toArch = b := by
  have hpos : 0 < T.datacount := by have := T.xlen.words_cases; omega
  unfold autoexecWord
  by_cases hx : T.xlen.bits = 64
  · obtain ⟨lo, hi, hw⟩ := regWords_wide hx v
    have htwo : 1 < T.datacount := by
      have := length_regWords v
      rw [hw] at this
      exact lt_of_lt_of_le (by simp [← this]) hdata
    rw [hw] at heff ⊢
    rw [if_pos hx]
    refine runs_lift_bind (CArray.read_append rfl) ?_
    refine (runs_writeData h htwo (by decide)).bind ?_
    rintro - d₁ ⟨h₁, hcmd₁, ha₁⟩
    refine runs_lift_bind (CArray.read_append rfl) ?_
    have heff₁ : ∀ᶠ n in atTop, accessRegister d₁.command 0 n (d₁.toArch.setData 0 lo) = some (0, b) := by
      rw [hcmd₁, ha₁]
      rwa [Arch.overlayData, overlay_two] at heff
    refine (runs_writeData_auto h₁ hpos heff₁).bind ?_
    rintro - d₂ ⟨h₂, hcmd₂, ha₂⟩
    refine (runs_waitAbstractcs h₂).bind ?_
    rintro cs d₃ ⟨hcs, h₃, hcmd₃, ha₃⟩
    rw [if_neg (not_not.mpr hcs)]
    exact runs_pure ⟨h₃, hcmd₃.trans (hcmd₂.trans hcmd₁), ha₃.trans ha₂⟩
  · obtain ⟨lo, hw⟩ := regWords_narrow hx v
    rw [hw] at heff ⊢
    rw [if_neg hx]
    refine runs_lift_bind (CArray.read_append rfl) ?_
    rw [Arch.overlayData, overlay_one] at heff
    refine (runs_writeData_auto h hpos heff).bind ?_
    rintro - d₂ ⟨h₂, hcmd₂, ha₂⟩
    refine (runs_waitAbstractcs h₂).bind ?_
    rintro cs d₃ ⟨hcs, h₃, hcmd₃, ha₃⟩
    rw [if_neg (not_not.mpr hcs)]
    exact runs_pure ⟨h₃, hcmd₃.trans hcmd₂, ha₃.trans ha₂⟩

include haligned

theorem WriteInv.step (hi : 1 ≤ i) (hI : WriteInv d₀ A src i data d) (hsrc : (i + 1) * T.xlen.bytes ≤ src.length)
    (hfit : (i + 1) * T.xlen.bytes ≤ 2 ^ T.xlen.bits) :
    Runs (writeChunkWord src i data) d (WriteInv d₀ A src (i + 1)) := by
  obtain ⟨b, hsteps, hstored⟩ := hI.stored.step hprog haligned hsrc hfit
  have hnext : (i + 1) * T.xlen.bytes = i * T.xlen.bytes + T.xlen.bytes := by ring
  have heff := accessRegister_write (r := rvS1) (Or.inr rfl) hdata _ hsteps
  rw [← hI.command] at heff
  -- from the second word on the data register is watched
  have hword (d₁ : Dm T) (h₁ : Ready 1 d₁) (hcmd₁ : d₁.command = d.command) (ha₁ : d₁.toArch = d.toArch) :
      Runs (do
        let data ← Prog.lift (data.fill src (i * T.xlen.bytes) T.xlen.words)
        autoexecWord data
        pure data) d₁ (WriteInv d₀ A src (i + 1)) := by
    refine runs_lift_bind (CArray.fill_eq hI.length (by omega)) ?_
    rw [← hcmd₁, ← ha₁] at heff
    refine (runs_autoexecWord hdata h₁ heff).bind ?_
    rintro - d₂ ⟨h₂, hcmd₂, ha₂⟩
    refine runs_pure ⟨by rw [if_neg (by omega)]; exact h₂, by simp, hcmd₂.trans (hcmd₁.trans hI.command), ?_⟩
    rw [ha₂]
    exact hstored
  unfold writeChunkWord
  have hready := hI.ready
  by_cases h1 : i = 1
  · rw [if_pos h1] at hready ⊢
    refine (runs_writeAbstractauto hready (by decide)).bind ?_
    rintro - d₁ ⟨h₁, hcmd₁, ha₁⟩
    exact hword d₁ h₁ hcmd₁ ha₁
  · rw [if_neg h1] at hready ⊢
    exact hword d hready rfl rfl

omit hprog hdata haligned in
theorem command_writeWord (X : Xlen) :
    acAccessRegisterTransfer ||| acAccessRegisterPostexec ||| acAccessRegisterWrite |||
    rvAcArSize X.bits ||| rvAcArRegno rvS1 = acCommand X true true rvS1 := by
  cases X <;> decide

omit haligned in
/-- **`write_chunk`** stores its words at an aligned address. -/
theorem runs_writeChunk (h : Idle d) (haligned : (taddr.setWidth T.xlen.bits).toNat % T.xlen.bytes = 0)
    (hpos : 1 ≤ chunkWords T.xlen len) (hsrc : chunkWords T.xlen len * T.xlen.bytes ≤ src.length)
    (hfit : chunkWords T.xlen len * T.xlen.bytes ≤ 2 ^ T.xlen.bits) :
    Runs (writeChunk hart taddr len src) d fun _ d' => After d
      (splice d.mem (taddr.setWidth T.xlen.bits) (src.take (chunkWords T.xlen len * T.xlen.bytes))) d' := by
  generalize hn : chunkWords T.xlen len = n at hpos hsrc hfit
  generalize hA : taddr.setWidth T.xlen.bits = A at haligned
  have hle (i : ℕ) (hi : i ≤ n) : i * T.xlen.bytes ≤ n * T.xlen.bytes := Nat.mul_le_mul_right _ hi
  have hone : T.xlen.bytes ≤ n * T.xlen.bytes := by simpa using hle 1 hpos
  unfold writeChunk
  refine runs_prologue h hdata fun d₁ h₁ hm₁ hg₁ => ?_
  have hlen : (storeProgram T.xlen).length ≤ T.progbufsize := hprog
  refine runs_lift_bind (CArray.assign_eq (by simpa [CArray.declare] using hprog)) ?_
  rw [halves_eq, hA]
  refine runs_lift_bind (CArray.assign_eq (by simpa [CArray.declare] using hdata)) ?_
  rw [command_restore]
  refine (runs_command_write h₁ (Or.inl rfl) hdata (storeProgram T.xlen) hlen _ _ steps_false).bind ?_
  rintro ⟨err, data⟩ d₂ ⟨hout, h₂, -, ha₂⟩
  dsimp only at hout ⊢
  subst hout
  refine runs_lift_bind (CArray.fill_eq (by simp) (by omega)) ?_
  have hclob : Clobbered d.gprs d₁.gprs := by
    rw [hg₁]
    exact fun _ _ _ => rfl
  have hstored : Stored d A src 0 d₂.toArch := by
    rw [ha₂]
    refine ⟨by simp [← hm₁, Arch.setGpr, Arch.overlayData, Arch.overlayProgbuf], hclob.update (Or.inl rfl) _, ?_,
      d₁.progbuf, rfl⟩
    simp [Arch.setGpr, rvS0_toNat]
  obtain ⟨b, hsteps, hstored'⟩ := hstored.step hprog haligned (by omega) (by omega)
  rw [Nat.zero_mul] at hsteps
  rw [command_writeWord]
  refine (runs_command_write h₂ (Or.inr rfl) hdata [] (Nat.zero_le _) [] _ hsteps).bind ?_
  rintro ⟨err', data⟩ d₃ ⟨hout, h₃, hcmd₃, ha₃⟩
  dsimp only at hout ⊢
  subst hout
  rw [hn]
  have hstart : WriteInv d A src 1
      ((regWords (wordOf T.xlen ((src.drop 0).take T.xlen.bytes))).map some ++ List.drop T.xlen.words
        ((regWords A).map some ++ List.drop (regWords A).length (CArray.declare T.datacount))) d₃ :=
    ⟨h₃, by simp, hcmd₃, by rw [ha₃]; exact hstored'⟩
  refine (Runs.forFrom (WriteInv d A src) (fun i data d' hi1 hi2 hI => ?_) hstart).bind ?_
  · have := hle (i + 1) (by omega)
    exact hI.step hprog hdata haligned hi1 (by omega) (by omega)
  rintro data d₄ hI
  rw [show 1 + (n - 1) = n by omega] at hI
  have hready := hI.ready
  by_cases hn1 : n > 1
  · rw [if_neg (by omega)] at hready
    rw [if_pos hn1]
    refine (runs_writeAbstractauto hready (by decide)).bind ?_
    rintro - d₅ ⟨h₅, -, ha₅⟩
    have hstored₅ : Stored d A src n d₅.toArch := by
      rw [ha₅]
      exact hI.stored
    refine (runs_epilogue h₅ hdata hstored₅.mem hstored₅.gprs).mono ?_
    exact fun _ _ hafter => hafter.2
  · rw [if_pos (by omega)] at hready
    rw [if_neg hn1]
    refine (runs_epilogue hready hdata hI.stored.mem hI.stored.gprs).mono ?_
    exact fun _ _ hafter => hafter.2

end Write

/-! ## `clear_chunk` -/

/-- The program of `clear_chunk`. -/
def clearProgram (X : Xlen) : List (BitVec 32) :=
  [rvStore X.bits rvX0 rvS0 0, rvAddi rvS0 rvS0 X.bytes, rvBne rvS0 rvS1 (0 * 4) (2 * 4), matchEbreak]

/-- The zero loop of the hart, from `s0` up to `s1`. -/
theorem steps_clear {a : Arch T} {A : BitVec T.xlen.bits} (hprog : 4 ≤ T.progbufsize) {f : ℕ → BitVec 32} {k : ℕ}
    (hcode : a.progbuf = overlay (clearProgram T.xlen) f) (h8 : a.gprs 0 8 = A)
    (h9 : a.gprs 0 9 = A + BitVec.ofNat T.xlen.bits ((k + 1) * T.xlen.bytes))
    (haligned : A.toNat % T.xlen.bytes = 0)
    (hfit : (k + 1) * T.xlen.bytes ≤ 2 ^ T.xlen.bits) :
    Steps true a
      ((a.setGpr 8 (a.gprs 0 9)).setMem (splice a.mem A (List.replicate ((k + 1) * T.xlen.bytes) 0))) := by
  have hrun (n : ℕ) :=
    @runProgbuf_clear T.xlen a.progbuf T.progbufsize (by rw [hcode]; rfl) hprog (by rw [hcode]; rfl)
    (by rw [hcode]; rfl) (by rw [hcode]; rfl) n k (a.core 0) (by rw [← h8] at haligned; exact haligned) hfit
    (by rw [← h8] at h9; exact h9)
  have hsteps := steps_true (k := 1 + 3 * (k + 1)) (fun n => by rw [← Nat.add_assoc]; exact hrun n)
  have hcore8 : (a.core 0).gprs 8 = A := h8
  rw [hcore8] at hsteps
  exact hsteps

/-- Both halves of an address, assigned to an array that has room for them, hold the words of a register of either
width. -/
theorem CArray.assign_halves {X : Xlen} {b : CArray} (h : 2 ≤ b.length) (v : BitVec 64) : ∃ rest,
    b.assign [v.setWidth 32, (v >>> 32).setWidth 32] = some ((regWords (v.setWidth X.bits)).map some ++ rest) ∧
      ((regWords (v.setWidth X.bits)).map some ++ rest).length = b.length := by
  have hassign : b.assign [v.setWidth 32, (v >>> 32).setWidth 32] = some (_ ++ b.drop 2) := CArray.assign_eq h
  rw [hassign, ← halves_eq]
  cases X with
  | rv32 => exact ⟨some ((v >>> 32).setWidth 32) :: b.drop 2, rfl, by simp [halves, Xlen.bits]; omega⟩
  | rv64 => exact ⟨b.drop 2, rfl, by simp [halves, Xlen.bits]; omega⟩

theorem command_clear (X : Xlen) : acAccessRegisterTransfer ||| acAccessRegisterWrite ||| rvAcArSize X.bits |||
    rvAcArRegno rvS1 ||| acAccessRegisterPostexec = acCommand X true true rvS1 := by
  cases X <;> decide

section Clear

variable {hart len : ℕ} {taddr : BitVec 64} (hdata : T.xlen.words ≤ T.datacount)
include hdata

/-- **`clear_chunk`** zeroes its words at an aligned address. -/
theorem runs_clearChunk (h : Idle d) (hprog : 4 ≤ T.progbufsize) (htwo : 2 ≤ T.datacount)
    (haligned : (taddr.setWidth T.xlen.bits).toNat % T.xlen.bytes = 0) {k : ℕ}
    (hlen : len = (k + 1) * T.xlen.bytes)
    (hfit : len ≤ 2 ^ T.xlen.bits) :
    Runs (clearChunk hart taddr len) d fun _ d' => After d
      (splice d.mem (taddr.setWidth T.xlen.bits) (List.replicate len 0)) d' := by
  have hstop : (taddr + BitVec.ofNat 64 len).setWidth T.xlen.bits =
      taddr.setWidth T.xlen.bits + BitVec.ofNat T.xlen.bits len := by
    rw [BitVec.setWidth_add _ _ T.xlen.bits_le, BitVec.setWidth_ofNat_of_le T.xlen.bits_le]
  have hclear : (clearProgram T.xlen).length ≤ T.progbufsize := hprog
  unfold clearChunk
  refine runs_prologue h hdata fun d₁ h₁ hm₁ hg₁ => ?_
  obtain ⟨rest₁, hassign₁, hlen₁⟩ := @CArray.assign_halves T.xlen (CArray.declare T.datacount)
    (by simpa [CArray.declare] using htwo) taddr
  refine runs_lift_bind hassign₁ ?_
  rw [command_restore]
  refine (runs_command_write h₁ (Or.inl rfl) hdata [] (Nat.zero_le _) [] rest₁ steps_false).bind ?_
  rintro ⟨err, data⟩ d₂ ⟨hout, h₂, -, ha₂⟩
  dsimp only at hout ⊢
  subst hout
  refine runs_lift_bind (CArray.assign_eq (by simpa [CArray.declare] using hprog)) ?_
  obtain ⟨rest₂, hassign₂, -⟩ :=
    @CArray.assign_halves T.xlen ((regWords (taddr.setWidth T.xlen.bits)).map some ++ rest₁)
    (by rw [hlen₁]; simpa [CArray.declare] using htwo) (taddr + BitVec.ofNat 64 len)
  refine runs_lift_bind hassign₂ ?_
  rw [command_clear, hstop]
  have hclob : Clobbered d.gprs d₁.gprs := by
    rw [hg₁]
    exact fun _ _ _ => rfl
  have hsteps := steps_clear (T := T) (k := k) (f := d₂.progbuf) (A := taddr.setWidth T.xlen.bits)
    (a := ((d₂.toArch.overlayProgbuf (clearProgram T.xlen)).overlayData (regWords (taddr.setWidth T.xlen.bits +
      BitVec.ofNat T.xlen.bits len))).setGpr 9 (taddr.setWidth T.xlen.bits + BitVec.ofNat T.xlen.bits len))
    hprog rfl (by rw [ha₂]; simp [Arch.setGpr, Arch.overlayData, Arch.overlayProgbuf, rvS0_toNat])
    (by simp [Arch.setGpr, hlen]) haligned (hlen ▸ hfit)
  refine (runs_command_write h₂ (Or.inr rfl) hdata (clearProgram T.xlen) hclear _ rest₂ hsteps).bind ?_
  rintro - d₃ ⟨-, h₃, -, ha₃⟩
  have hmem₃ : d₃.mem = splice d.mem (taddr.setWidth T.xlen.bits) (List.replicate len 0) := by
    rw [ha₃, hlen, ← hm₁]
    change splice d₂.mem _ _ = _
    rw [ha₂]
    rfl
  have hclob₂ : Clobbered d.gprs d₂.gprs := by
    rw [ha₂]
    exact hclob.update (Or.inl rfl) _
  have hclob₃ : Clobbered d.gprs d₃.gprs := by
    rw [ha₃]
    exact (hclob₂.update (Or.inr rfl) _).update (Or.inl rfl) _
  exact (runs_epilogue h₃ hdata hmem₃ hclob₃).mono fun _ _ hafter => hafter.2

/-- One data register, or a program buffer without room for the loop. -/
theorem stuck_clearChunk (h : Idle d) (hshort : ¬ (4 ≤ T.progbufsize ∧ 2 ≤ T.datacount)) :
    Stuck (clearChunk hart taddr len) d := by
  unfold clearChunk
  by_cases htwo : 2 ≤ T.datacount
  · have hprog : ¬ 4 ≤ T.progbufsize := fun hc => hshort ⟨hc, htwo⟩
    refine (runs_halt h.quiet h.run).stuck_bind ?_
    rintro - d₁ ⟨h₁, -⟩
    refine (runs_saveReg h₁ (Or.inl rfl) hdata).stuck_bind ?_
    rintro s0 d₂ ⟨-, h₂, -⟩
    refine (runs_saveReg h₂ (Or.inr rfl) hdata).stuck_bind ?_
    rintro s1 d₃ ⟨-, h₃, -⟩
    obtain ⟨rest, hassign, -⟩ := @CArray.assign_halves T.xlen (CArray.declare T.datacount)
      (by simpa [CArray.declare] using htwo) taddr
    rw [hassign, command_restore]
    refine (runs_lift (Q := fun x d' => (regWords (taddr.setWidth T.xlen.bits)).map some ++ rest = x ∧ d₃ = d') rfl
      ⟨rfl, rfl⟩).stuck_bind ?_
    rintro _ _ ⟨rfl, rfl⟩
    refine (runs_command_write h₃ (Or.inl rfl) hdata [] (Nat.zero_le _) [] rest steps_false).stuck_bind ?_
    rintro - d₄ -
    exact stuck_lift_bind (if_neg (by simpa [CArray.declare, clearProgram] using hprog))
  · refine stuck_prologue h hdata fun _ _ d₁ => stuck_lift_bind (if_neg ?_)
    simpa [CArray.declare] using htwo

end Clear

end Soceteer.Fesvr
