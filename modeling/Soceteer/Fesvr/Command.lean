import Soceteer.Fesvr.Dtm

/-!
# Soceteer.Fesvr.Command — what the driver's commands do

Each step of the driver below a chunk transfer, on a debug module that follows the specification.

* `Quiet`, `runs_halt`, `runs_resume`: taking hold of the hart and letting go of it.
* `regWords`: a register in the data registers, and its laws with C arrays and bytes.
* `runs_command_write`, `runs_command_read`: an access-register command with a program buffer behind it.
* `runs_saveReg`, `runs_restoreReg`.
-/

namespace Soceteer.Fesvr

open Soceteer.Lib Filter

variable {T : Target} {d : Dm T} {a : Arch T}

/-! ## Polling -/

theorem runs_poll {addr : ℕ} {done : BitVec 32 → Bool} {Q : BitVec 32 → Dm T → Prop}
    (I : Dm T → Prop) (μ : Dm T → ℕ)
    (hread : ∀ d, I d → Runs (readDtm addr) d fun v d' => (done v = true ∧ Q v d') ∨
      (done v = false ∧ I d' ∧ μ d' < μ d)) (h : I d) : Runs (poll addr done) d Q :=
  Runs.repeatUntil I μ hread h

theorem runs_waitAbstractcs {auto : BitVec 12} (h : Settled auto d) :
    Runs waitAbstractcs d fun v d' => getField v dmAbstractcsCmderr = 0 ∧ Ready auto d' ∧ d'.command = d.command ∧
      d'.toArch = d.toArch := by
  refine runs_poll (fun d' => Settled auto d' ∧ d'.command = d.command ∧ d'.toArch = d.toArch)
    Dm.busy ?_ ⟨h, rfl, rfl⟩
  rintro d₁ ⟨h₁, hcmd, harch⟩
  refine runs_readAbstractcs.mono ?_
  rintro v d₂ ⟨rfl, rfl⟩
  by_cases hb : d₁.tick.busy = 0
  · obtain ⟨hdone, herr⟩ := abstractcs_done h₁.tick.cmderr hb
    exact Or.inl ⟨by simpa using hdone, herr, ⟨h₁.tick, hb⟩, hcmd, harch⟩
  · have hbusy := abstractcs_busy h₁.tick.cmderr hb
    have hlt : d₁.busy - 1 < d₁.busy := by
      have : d₁.busy - 1 ≠ 0 := hb
      omega
    exact Or.inr ⟨by simpa using hbusy, ⟨h₁.tick, hcmd, harch⟩, hlt⟩

/-! ## Halting and resuming -/

/-- No command, no error, nothing watched; memory, registers and buffers as in `a`. -/
structure Quiet (a : Arch T) (d : Dm T) : Prop where
  cmderr : d.cmderr = 0
  autoexecdata : d.autoexecdata = 0
  autoexecprogbuf : d.autoexecprogbuf = 0
  idle : d.busy = 0
  arch : d.toArch = a

theorem Quiet.tick (h : Quiet a d) : Quiet a d.tick :=
  ⟨h.cmderr, h.autoexecdata, h.autoexecprogbuf, by simp [Dm.tick, h.idle], h.arch⟩

theorem Quiet.ready (h : Quiet a d) (hsel : d.hartsel = 0) (hhalt : d.run 0 = .halted) : Ready 0 d :=
  ⟨⟨h.cmderr, h.autoexecdata, h.autoexecprogbuf, hsel, hhalt⟩, h.idle⟩

theorem Ready.quiet (h : Ready 0 d) : Quiet d.toArch d :=
  ⟨h.cmderr, h.autoexecdata, h.autoexecprogbuf, h.idle, rfl⟩

/-- A value of `dmcontrol` that selects hart 0 with the given requests. -/
structure Selects (v : BitVec 32) (haltreq resumereq : Bool) : Prop where
  dmactive : getField v dmDmcontrolDmactive ≠ 0
  haltreq : decide (getField v dmDmcontrolHaltreq ≠ 0) = haltreq
  resumereq : decide (getField v dmDmcontrolResumereq ≠ 0) = resumereq
  hartsel : (getField v dmDmcontrolHartselhi).toNat * 1024 + (getField v dmDmcontrolHartsello).toNat = 0

instance (v : BitVec 32) (b c : Bool) : Decidable (Selects v b c) :=
  decidable_of_iff (_ ∧ _ ∧ _ ∧ _)
    ⟨fun ⟨h1, h2, h3, h4⟩ => ⟨h1, h2, h3, h4⟩, fun h => ⟨h.dmactive, h.haltreq, h.resumereq, h.hartsel⟩⟩

/-- The field the driver puts a hart's number into has one bit and selects no hart. -/
theorem setField_hasel (v x : BitVec 32) : setField v dmDmcontrolHasel x = v &&& ~~~dmDmcontrolHasel ∨
    setField v dmDmcontrolHasel x = (v &&& ~~~dmDmcontrolHasel) ||| dmDmcontrolHasel := by
  have hbit : dmDmcontrolHasel = BitVec.twoPow 32 26 := by decide
  unfold setField
  generalize x * (dmDmcontrolHasel &&& ~~~(dmDmcontrolHasel <<< 1)) = y
  rw [hbit, BitVec.and_twoPow y]
  split_ifs
  · exact Or.inr rfl
  · left
    simp

theorem selects_dmactive : Selects dmDmcontrolDmactive false false := by decide

theorem selects_halt (x : BitVec 32) :
    Selects (setField (dmDmcontrolHaltreq ||| dmDmcontrolDmactive) dmDmcontrolHasel x) true false ∧
      Selects (setField (dmDmcontrolHaltreq ||| dmDmcontrolDmactive) dmDmcontrolHasel x &&& ~~~dmDmcontrolHaltreq)
        false false := by
  rcases setField_hasel (dmDmcontrolHaltreq ||| dmDmcontrolDmactive) x with h | h <;> rw [h] <;> decide

theorem selects_resume (x : BitVec 32) :
    Selects (setField (dmDmcontrolResumereq ||| dmDmcontrolDmactive) dmDmcontrolHasel x) false true ∧
      Selects (setField (dmDmcontrolResumereq ||| dmDmcontrolDmactive) dmDmcontrolHasel x &&&
        ~~~dmDmcontrolResumereq)
        false false := by
  rcases setField_hasel (dmDmcontrolResumereq ||| dmDmcontrolDmactive) x with h | h <;> rw [h] <;> decide

theorem runs_control {v : BitVec 32} {haltreq resumereq : Bool} (hv : Selects v haltreq resumereq)
    (h : Quiet a d) :
    Runs (writeDtm dmDmcontrol v) d fun _ d' => Quiet a d' ∧ d'.hartsel = 0 ∧
      (∃ k, d'.run 0 = Dm.request haltreq resumereq k (Dm.tickHart (d.run 0))) ∧
      d'.resumeack 0 = if resumereq && !haltreq then false else d.tick.resumeack 0 := by
  refine runs_writeDmcontrol.mono ?_
  rintro - d' rfl
  have ht := h.tick
  rw [Dm.writeDmcontrol, if_neg hv.dmactive]
  simp only [hv.haltreq, hv.resumereq, hv.hartsel]
  refine ⟨⟨ht.cmderr, ht.autoexecdata, ht.autoexecprogbuf, ht.idle, ht.arch⟩, trivial,
    ⟨T.latency d.tick.clock, ?_⟩, ?_⟩
  · rw [Function.update_self]
    rfl
  · split_ifs
    · rw [Function.update_self]
    · rfl

/-- How long a halting hart takes. -/
def haltWait : RunState → ℕ
  | .halting k => k + 1
  | _ => 0

theorem runs_waitHalted (h : Quiet a d) (hsel : d.hartsel = 0)
    (hrun : d.run 0 = .halted ∨ ∃ k, d.run 0 = .halting k) :
    Runs (poll dmDmstatus fun v => getField v dmDmstatusAllhalted ≠ 0) d fun _ d' =>
      Quiet a d' ∧ d'.hartsel = 0 ∧ d'.run 0 = .halted := by
  refine runs_poll (fun d' => Quiet a d' ∧ d'.hartsel = 0 ∧ (d'.run 0 = .halted ∨ ∃ k, d'.run 0 = .halting k))
    (fun d' => haltWait (d'.run 0)) ?_ ⟨h, hsel, hrun⟩
  rintro d₁ ⟨h₁, hsel₁, hrun₁⟩
  refine runs_readDmstatus.mono ?_
  rintro v d₂ ⟨rfl, rfl⟩
  have hsel₂ : d₁.tick.hartsel = 0 := hsel₁
  have hstatus := @dmstatus_allhalted T d₁.tick
  rw [hsel₂] at hstatus
  have htick : d₁.tick.run 0 = Dm.tickHart (d₁.run 0) := rfl
  rcases hrun₁ with hr | ⟨k, hr⟩
  · rw [hr] at htick
    exact Or.inl ⟨by rw [hstatus, htick]; rfl, h₁.tick, hsel₂, htick⟩
  cases k with
  | zero =>
    rw [hr] at htick
    exact Or.inl ⟨by rw [hstatus, htick]; rfl, h₁.tick, hsel₂, htick⟩
  | succ k =>
    rw [hr] at htick
    refine Or.inr ⟨by rw [hstatus, htick]; rfl, ⟨h₁.tick, hsel₂, Or.inr ⟨k, htick⟩⟩, ?_⟩
    rw [htick, hr]
    simp [haltWait, Dm.tickHart]

/-- A hart that runs or is halted is halted by `halt`. -/
theorem runs_halt {hart : ℕ} (h : Quiet a d) (hrun : d.run 0 = .running ∨ d.run 0 = .halted) :
    Runs (halt hart) d fun _ d' => Ready 0 d' ∧ d'.toArch = a := by
  obtain ⟨hreq, hclear⟩ := selects_halt (BitVec.ofNat 32 hart)
  refine (runs_control selects_dmactive h).bind ?_
  rintro - d₁ ⟨h₁, hsel₁, ⟨k₁, hr₁⟩, -⟩
  refine runs_readDmstatus.bind ?_
  rintro - d₂ ⟨-, rfl⟩
  have hr₂ : d₁.tick.run 0 = d.run 0 := by
    have : d₁.tick.run 0 = Dm.tickHart (d₁.run 0) := rfl
    rcases hrun with hr | hr <;> rw [this, hr₁, hr] <;> rfl
  refine (runs_control hreq h₁.tick).bind ?_
  rintro - d₃ ⟨h₃, hsel₃, ⟨k₃, hr₃⟩, -⟩
  have hrun₃ : d₃.run 0 = .halted ∨ ∃ k, d₃.run 0 = .halting k := by
    rw [hr₃, hr₂]
    rcases hrun with hr | hr <;> rw [hr]
    · exact Or.inr ⟨k₃, rfl⟩
    · exact Or.inl rfl
  refine (runs_waitHalted h₃ hsel₃ hrun₃).bind ?_
  rintro - d₄ ⟨h₄, hsel₄, hr₄⟩
  refine (runs_control hclear h₄).bind ?_
  rintro - d₅ ⟨h₅, hsel₅, ⟨k₅, hr₅⟩, -⟩
  refine runs_readDmstatus.bind ?_
  rintro - d₆ ⟨-, rfl⟩
  refine runs_pure ⟨h₅.tick.ready hsel₅ ?_, h₅.tick.arch⟩
  have : d₅.tick.run 0 = Dm.tickHart (d₅.run 0) := rfl
  rw [this, hr₅, hr₄]
  rfl

/-- How long a resuming hart takes. -/
def resumeWait : RunState → ℕ
  | .resuming k => k + 1
  | _ => 0

theorem runs_waitResumed {k : ℕ} (h : Quiet a d) (hsel : d.hartsel = 0) (hrun : d.run 0 = .resuming k)
    (hack : d.resumeack 0 = false) :
    Runs (poll dmDmstatus fun v => getField v dmDmstatusAllresumeack ≠ 0) d fun _ d' =>
      Quiet a d' ∧ d'.hartsel = 0 ∧ d'.run 0 = .running := by
  refine runs_poll (fun d' => Quiet a d' ∧ d'.hartsel = 0 ∧ d'.resumeack 0 = false ∧ ∃ k, d'.run 0 = .resuming k)
    (fun d' => resumeWait (d'.run 0)) ?_ ⟨h, hsel, hack, k, hrun⟩
  rintro d₁ ⟨h₁, hsel₁, hack₁, k, hr⟩
  refine runs_readDmstatus.mono ?_
  rintro v d₂ ⟨rfl, rfl⟩
  have hsel₂ : d₁.tick.hartsel = 0 := hsel₁
  have hstatus := @dmstatus_allresumeack T d₁.tick
  rw [hsel₂] at hstatus
  have htick : d₁.tick.run 0 = Dm.tickHart (d₁.run 0) := rfl
  have hack₂ : d₁.tick.resumeack 0 = decide (d₁.run 0 = .resuming 0) := by simp [Dm.tick, hack₁]
  rw [hr] at htick hack₂
  cases k with
  | zero => exact Or.inl ⟨by rw [hstatus, hack₂]; rfl, h₁.tick, hsel₂, htick⟩
  | succ k =>
    have hack₃ : d₁.tick.resumeack 0 = false := by simpa using hack₂
    refine Or.inr ⟨by rw [hstatus, hack₃]; rfl, ⟨h₁.tick, hsel₂, hack₃, k, htick⟩, ?_⟩
    rw [htick, hr]
    simp [resumeWait, Dm.tickHart]

/-- A halted hart runs after `resume`. -/
theorem runs_resume {hart : ℕ} (h : Ready 0 d) :
    Runs (resume hart) d fun _ d' => Quiet d.toArch d' ∧ d'.run 0 = .running := by
  obtain ⟨hreq, hclear⟩ := selects_resume (BitVec.ofNat 32 hart)
  refine (runs_control hreq h.quiet).bind ?_
  rintro - d₁ ⟨h₁, hsel₁, ⟨k₁, hr₁⟩, hack₁⟩
  rw [h.halted] at hr₁
  refine (runs_waitResumed h₁ hsel₁ hr₁ hack₁).bind ?_
  rintro - d₂ ⟨h₂, hsel₂, hr₂⟩
  refine (runs_control hclear h₂).bind ?_
  rintro - d₃ ⟨h₃, hsel₃, ⟨k₃, hr₃⟩, -⟩
  refine runs_readDmstatus.bind ?_
  rintro - d₄ ⟨-, rfl⟩
  have hr₄ : d₃.tick.run 0 = .running := by
    have : d₃.tick.run 0 = Dm.tickHart (d₃.run 0) := rfl
    rw [this, hr₃, hr₂]
    rfl
  refine (runs_control selects_dmactive h₃.tick).bind ?_
  rintro - d₅ ⟨h₅, hsel₅, ⟨k₅, hr₅⟩, -⟩
  refine runs_readDmstatus.bind ?_
  rintro - d₆ ⟨-, rfl⟩
  refine runs_pure ⟨h₅.tick, ?_⟩
  have : d₅.tick.run 0 = Dm.tickHart (d₅.run 0) := rfl
  rw [this, hr₅, hr₄]
  rfl

/-! ## Registers in words and bytes -/

/-- The words of a register, as the data registers hold them. -/
def regWords {X : Xlen} (v : BitVec X.bits) : List (BitVec 32) :=
  (List.range X.words).map fun i => (v >>> (32 * i)).setWidth 32

/-- The first words replaced. -/
def overlay (ws : List (BitVec 32)) (f : ℕ → BitVec 32) : ℕ → BitVec 32 := fun i => ws.getD i (f i)

theorem overlay_take_succ {ws : List (BitVec 32)} {f : ℕ → BitVec 32} {i : ℕ} {w : BitVec 32}
    (hi : ws[i]? = some w) :
    Function.update (overlay (ws.take i) f) i w = overlay (ws.take (i + 1)) f := by
  have hlen := (List.getElem?_eq_some_iff.mp hi).1
  funext j
  rw [Function.update_apply]
  unfold overlay
  simp only [List.getD_eq_getElem?_getD, List.getElem?_take]
  split_ifs with h1 h2 h3 h4 h5
  · rw [h1, hi]
    rfl
  · omega
  · rfl
  · omega
  · omega
  · rfl

section Words

variable {X : Xlen} (v : BitVec X.bits)

@[simp] theorem length_regWords : (regWords v).length = X.words := by simp [regWords]

theorem halves_eq (v : BitVec 64) : halves X v = regWords (v.setWidth X.bits) := by
  cases X with
  | rv32 =>
    change [v.setWidth 32] = [(v.setWidth 32 >>> 0).setWidth 32]
    simp
  | rv64 =>
    rw [show v.setWidth Xlen.rv64.bits = v from BitVec.setWidth_eq v]
    rfl

theorem arg0_regWords (f : ℕ → BitVec 32) : arg0 X (decide (X = .rv64)) (overlay (regWords v) f) = v := by
  cases X with
  | rv32 =>
    change ((v >>> 0).setWidth 32).setWidth 32 = v
    rw [BitVec.ushiftRight_zero, BitVec.setWidth_eq]
    exact BitVec.setWidth_eq v
  | rv64 =>
    change (((v >>> 32).setWidth 32 ++ (v >>> 0).setWidth 32)).setWidth 64 = v
    apply BitVec.eq_of_getLsbD_eq
    intro i hi
    simp only [BitVec.getLsbD_setWidth, BitVec.getLsbD_append, BitVec.getLsbD_ushiftRight]
    have hi' : i < 64 := hi
    by_cases h : i < 32
    · simp [h, hi']
      rfl
    · simp [h, hi', show i - 32 < 32 by omega, show 32 + (i - 32) = i by omega]
      rfl

theorem setArg0_eq (f : ℕ → BitVec 32) : setArg0 (decide (X = .rv64)) v f = overlay (regWords v) f := by
  funext i
  cases X with
  | rv32 =>
    match i with
    | 0 => exact congrArg (BitVec.setWidth 32) (BitVec.ushiftRight_zero v).symm
    | i + 1 => simp [setArg0, overlay, regWords, Xlen.words, Xlen.bits]
  | rv64 =>
    match i with
    | 0 => exact congrArg (BitVec.setWidth 32) (BitVec.ushiftRight_zero v).symm
    | 1 => rfl
    | i + 2 => rfl

theorem flatMap_regWords : (regWords v).flatMap (fun w => leBytes 4 w.toNat) = leBytes X.bytes v.toNat := by
  cases X with
  | rv32 =>
    change leBytes 4 ((v >>> 0).setWidth 32).toNat ++ [] = leBytes 4 v.toNat
    rw [BitVec.ushiftRight_zero, List.append_nil]
    exact congrArg (fun x : BitVec 32 => leBytes 4 x.toNat) (BitVec.setWidth_eq v)
  | rv64 =>
    change leBytes 4 ((v >>> 0).setWidth 32).toNat ++ (leBytes 4 ((v >>> 32).setWidth 32).toNat ++ []) =
      leBytes (4 + 4) v.toNat
    rw [leBytes_add, List.append_nil, BitVec.toNat_setWidth, BitVec.toNat_setWidth, BitVec.toNat_ushiftRight,
      BitVec.toNat_ushiftRight, Nat.shiftRight_zero, Nat.shiftRight_eq_div_pow, show 2 ^ 32 = 256 ^ 4 by norm_num,
      leBytes_mod, leBytes_mod]

end Words

/-! ## C arrays with their first elements assigned -/

theorem CArray.read_append {ws : List (BitVec 32)} {rest : CArray} {i : ℕ} {w : BitVec 32} (hi : ws[i]? = some w) :
    CArray.read (ws.map some ++ rest) i = some w := by
  have hlen := (List.getElem?_eq_some_iff.mp hi).1
  rw [CArray.read, List.getElem?_append_left (by simpa using hlen), List.getElem?_map, hi]
  rfl

theorem CArray.store_append {ws : List (BitVec 32)} {rest : CArray} {i : ℕ} {w : BitVec 32} (hi : ws[i]? = some w)
    (hlen : ws.length ≤ rest.length) :
    CArray.store ((ws.take i).map some ++ rest.drop i) i w =
      some ((ws.take (i + 1)).map some ++ rest.drop (i + 1)) := by
  have hlt := (List.getElem?_eq_some_iff.mp hi).1
  have htake : ((ws.take i).map some).length = i := by simp; omega
  obtain ⟨x, hx⟩ : ∃ x, rest.drop i = x :: rest.drop (i + 1) := ⟨_, List.drop_eq_getElem_cons (by omega)⟩
  rw [CArray.store, if_pos (by simp; omega), hx, List.set_append_right _ _ htake.le, htake, Nat.sub_self,
    List.set_cons_zero, List.take_add_one, hi]
  simp

theorem CArray.assign_eq {b : CArray} {ws : List (BitVec 32)} (h : ws.length ≤ b.length) :
    b.assign ws = some (ws.map some ++ b.drop ws.length) := if_pos h

/-! ## Access-register commands -/

/-- The commands of the driver: which way the transfer goes, and whether the program buffer runs after it. -/
def acCommand (X : Xlen) (w p : Bool) (r : BitVec 32) : BitVec 32 :=
  acAccessRegisterTransfer ||| (if w then acAccessRegisterWrite else 0) |||
    (if p then acAccessRegisterPostexec else 0) |||
    rvAcArSize X.bits ||| rvAcArRegno r

section AcCommand

variable {X : Xlen} {w p : Bool} {r : BitVec 32}

theorem acCommand_transfer (hr : r = rvS0 ∨ r = rvS1) :
    getField (acCommand X w p r) acAccessRegisterCmdtype = 0 ∧
      getField (acCommand X w p r) acAccessRegisterAarpostincrement = 0 ∧
      getField (acCommand X w p r) acAccessRegisterTransfer ≠ 0 ∧
      (getField (acCommand X w p r) acAccessRegisterRegno).toNat = 0x1000 + r.toNat := by
  rcases hr with rfl | rfl <;> cases X <;> cases w <;> cases p <;> decide

theorem acCommand_options (hr : r = rvS0 ∨ r = rvS1) :
    getField (acCommand X w p r) acAccessRegisterAarsize = (if X = .rv64 then 3 else 2) ∧
      decide (getField (acCommand X w p r) acAccessRegisterWrite ≠ 0) = w ∧
      decide (getField (acCommand X w p r) acAccessRegisterPostexec ≠ 0) = p := by
  rcases hr with rfl | rfl <;> cases X <;> cases w <;> cases p <;> decide

end AcCommand

/-- The program buffer takes `a` to `b` on hart 0, if it runs at all. -/
def Steps (p : Bool) (a b : Arch T) : Prop := ∀ᶠ n in atTop, postexec p 0 n a = some (0, b)

theorem steps_false : Steps false a a := Eventually.of_forall fun _ => rfl

theorem steps_true {c : Core T.xlen} {k : ℕ}
    (h : ∀ n, runProgbuf a.progbuf T.progbufsize (n + k) 0 (a.core 0) = some (true, c)) :
    Steps true a (a.setCore 0 c) := by
  filter_upwards [eventually_ge_atTop k] with n hn
  obtain ⟨m, rfl⟩ : ∃ m, n = m + k := ⟨n - k, by omega⟩
  rw [postexec, if_pos rfl, h m]
  rfl

/-- Hart 0 with a new value in a register. -/
def Arch.setGpr (a : Arch T) (r : ℕ) (v : BitVec T.xlen.bits) : Arch T :=
  { a with gprs := Function.update a.gprs 0 (Function.update (a.gprs 0) r v) }

def Arch.overlayData (a : Arch T) (ws : List (BitVec 32)) : Arch T := { a with data := overlay ws a.data }

def Arch.overlayProgbuf (a : Arch T) (ws : List (BitVec 32)) : Arch T := { a with progbuf := overlay ws a.progbuf }

section Effect

variable {p : Bool} {r : BitVec 32} {b : Arch T}

/-- The command's access is one the target supports. -/
theorem supported (hr : r = rvS0 ∨ r = rvS1) (hdata : T.xlen.words ≤ T.datacount) {w : Bool} :
    ¬ (¬ (0x1000 ≤ (getField (acCommand T.xlen w p r) acAccessRegisterRegno).toNat ∧
        (getField (acCommand T.xlen w p r) acAccessRegisterRegno).toNat < 0x1020) ∨
      ¬ (getField (acCommand T.xlen w p r) acAccessRegisterAarsize = 2 ∨
        getField (acCommand T.xlen w p r) acAccessRegisterAarsize = 3 ∧ T.xlen = .rv64 ∧ 2 ≤ T.datacount)) := by
  have hreg : r.toNat < 32 := by rcases hr with rfl | rfl <;> decide
  rw [(acCommand_transfer hr).2.2.2, (acCommand_options hr).1, not_or, not_not, not_not]
  refine ⟨by omega, ?_⟩
  cases hx : T.xlen with
  | rv32 => exact Or.inl rfl
  | rv64 =>
    rw [hx] at hdata
    exact Or.inr ⟨rfl, rfl, hdata⟩

theorem wide_eq (hr : r = rvS0 ∨ r = rvS1) {w : Bool} :
    decide (getField (acCommand T.xlen w p r) acAccessRegisterAarsize = 3) = decide (T.xlen = .rv64) := by
  rw [(acCommand_options hr).1]
  cases T.xlen <;> decide

theorem accessRegister_write (hr : r = rvS0 ∨ r = rvS1) (hdata : T.xlen.words ≤ T.datacount)
    (v : BitVec T.xlen.bits)
    (h : Steps p ((a.overlayData (regWords v)).setGpr r.toNat v) b) :
    ∀ᶠ n in atTop, accessRegister (acCommand T.xlen true p r) 0 n (a.overlayData (regWords v)) = some (0, b) := by
  obtain ⟨h1, h2, h3, h4⟩ := @acCommand_transfer T.xlen true p r hr
  obtain ⟨-, h5, h6⟩ := @acCommand_options T.xlen true p r hr
  have hne : r.toNat ≠ 0 := by rcases hr with rfl | rfl <;> decide
  filter_upwards [h] with n hn
  simp only [accessRegister]
  rw [if_neg (by simp [h1, h2]), if_neg h3, if_neg (supported hr hdata), if_pos (of_decide_eq_true h5),
    h6, h4, wide_eq hr,
    Nat.add_sub_cancel_left]
  rw [show (a.overlayData (regWords v)).data = overlay (regWords v) a.data from rfl, arg0_regWords,
    Core.setReg, if_neg hne]
  exact hn

theorem accessRegister_read (hr : r = rvS0 ∨ r = rvS1) (hdata : T.xlen.words ≤ T.datacount)
    (h : Steps p (a.overlayData (regWords (a.gprs 0 r.toNat))) b) :
    ∀ᶠ n in atTop, accessRegister (acCommand T.xlen false p r) 0 n a = some (0, b) := by
  obtain ⟨h1, h2, h3, h4⟩ := @acCommand_transfer T.xlen false p r hr
  obtain ⟨-, h5, h6⟩ := @acCommand_options T.xlen false p r hr
  have hne : r.toNat ≠ 0 := by rcases hr with rfl | rfl <;> decide
  filter_upwards [h] with n hn
  simp only [accessRegister]
  rw [if_neg (by simp [h1, h2]), if_neg h3, if_neg (supported hr hdata), if_neg (of_decide_eq_false h5), h6, h4,
    wide_eq hr, Nat.add_sub_cancel_left, Core.reg, if_neg hne, setArg0_eq]
  exact hn

theorem Steps.data_eq (h : Steps p a b) : b.data = a.data ∧ b.progbuf = a.progbuf := by
  obtain ⟨n, hn⟩ := h.exists
  unfold postexec at hn
  split_ifs at hn
  · obtain ⟨x, -, hx⟩ := Option.map_eq_some_iff.mp hn
    rw [← (Prod.mk.inj hx).2]
    exact ⟨rfl, rfl⟩
  · cases hn
    exact ⟨rfl, rfl⟩

end Effect

/-! ## `run_abstract_command` -/

section Run

variable {p : Bool} {r : BitVec 32} {b : Arch T}

theorem runs_writeProgram (h : Ready 0 d) {ws : List (BitVec 32)} (hws : ws.length ≤ T.progbufsize)
    (rest : CArray) :
    Runs (Prog.forFrom (fun i (_ : Unit) => do
      let w ← Prog.lift (CArray.read (ws.map some ++ rest) i)
      writeDtm (dmProgbuf0 + i) w) 0 ws.length ()) d fun _ d' => Ready 0 d' ∧
        d'.toArch = d.toArch.overlayProgbuf ws := by
  refine Runs.mono (Runs.forFrom (fun i _ d' => Ready 0 d' ∧ d'.toArch = d.toArch.overlayProgbuf (ws.take i))
    (fun i _ d₁ _ hi hI => ?_) ⟨h, rfl⟩) (fun _ d' h' => by simpa using h')
  obtain ⟨w, hw⟩ : ∃ w, ws[i]? = some w := ⟨_, List.getElem?_eq_getElem (by omega)⟩
  refine runs_lift_bind (CArray.read_append hw) ((runs_writeProgbuf hI.1 (by omega)).mono ?_)
  rintro - d₂ ⟨h₂, ha₂⟩
  refine ⟨h₂, ?_⟩
  rw [ha₂, hI.2]
  exact congrArg (fun f => { d.toArch with progbuf := f }) (overlay_take_succ hw)

theorem runs_writeArgument (h : Ready 0 d) {ws : List (BitVec 32)} (hws : ws.length ≤ T.datacount)
    (rest : CArray) :
    Runs (Prog.forFrom (fun i (_ : Unit) => do
      let w ← Prog.lift (CArray.read (ws.map some ++ rest) i)
      writeDtm (dmData0 + i) w) 0 ws.length ()) d fun _ d' => Ready 0 d' ∧
        d'.toArch = d.toArch.overlayData ws := by
  refine Runs.mono (Runs.forFrom (fun i _ d' => Ready 0 d' ∧ d'.toArch = d.toArch.overlayData (ws.take i))
    (fun i _ d₁ _ hi hI => ?_) ⟨h, rfl⟩) (fun _ d' h' => by simpa using h')
  obtain ⟨w, hw⟩ : ∃ w, ws[i]? = some w := ⟨_, List.getElem?_eq_getElem (by omega)⟩
  refine runs_lift_bind (CArray.read_append hw) ((runs_writeData hI.1 (by omega) (by simp)).mono ?_)
  rintro - d₂ ⟨h₂, -, ha₂⟩
  refine ⟨h₂, ?_⟩
  rw [ha₂, hI.2]
  exact congrArg (fun f => { d.toArch with data := f }) (overlay_take_succ hw)

theorem runs_readArgument (h : Ready 0 d) {ws : List (BitVec 32)} (hws : ws.length ≤ T.datacount) {data : CArray}
    (hlen : ws.length ≤ data.length) (hdata : ∀ i w, ws[i]? = some w → d.data i = w) :
    Runs (Prog.forFrom (fun i (data : CArray) => do
      let w ← readDtm (dmData0 + i)
      Prog.lift (data.store i w)) 0 ws.length data) d fun out d' =>
        out = ws.map some ++ data.drop ws.length ∧ Ready 0 d' ∧ d'.command = d.command ∧ d'.toArch = d.toArch := by
  refine Runs.mono (Runs.forFrom (fun i out d' => out = (ws.take i).map some ++ data.drop i ∧ Ready 0 d' ∧
    d'.command = d.command ∧ d'.toArch = d.toArch) (fun i out d₁ _ hi hI => ?_) ⟨by simp, h, rfl, rfl⟩)
    (fun out d' h' => by simpa using h')
  obtain ⟨rfl, h₁, hcmd, ha⟩ := hI
  obtain ⟨w, hw⟩ : ∃ w, ws[i]? = some w := ⟨_, List.getElem?_eq_getElem (by omega)⟩
  refine (runs_readData h₁ (by omega) (by simp)).bind ?_
  rintro v d₂ ⟨hv, h₂, hcmd₂, ha₂⟩
  have hvw : v = w := by rw [hv, ha, hdata i w hw]
  subst hvw
  exact runs_lift (CArray.store_append hw hlen) ⟨rfl, h₂, hcmd₂.trans hcmd, ha₂.trans ha⟩

/-- A command that writes `v` to a register, with a program behind it. -/
theorem runs_command_write (h : Ready 0 d) (hr : r = rvS0 ∨ r = rvS1) (hdata : T.xlen.words ≤ T.datacount)
    (ws : List (BitVec 32)) (hws : ws.length ≤ T.progbufsize) (rest rest' : CArray) {v : BitVec T.xlen.bits}
    (hsteps : Steps p (((d.toArch.overlayProgbuf ws).overlayData (regWords v)).setGpr r.toNat v) b) :
    Runs (runAbstractCommand (acCommand T.xlen true p r) (ws.map some ++ rest) ws.length
      ((regWords v).map some ++ rest') T.xlen.words true) d fun out d' =>
        out.2 = (regWords v).map some ++ rest' ∧ Ready 0 d' ∧ d'.command = acCommand T.xlen true p r ∧
          d'.toArch = b := by
  obtain ⟨-, -, htransfer, -⟩ := @acCommand_transfer T.xlen true p r hr
  have hwrite := of_decide_eq_true (@acCommand_options T.xlen true p r hr).2.1
  unfold runAbstractCommand
  refine runs_guard_bind hws (runs_guard_bind hdata ?_)
  refine (runs_writeProgram h hws rest).bind ?_
  rintro - d₁ ⟨h₁, ha₁⟩
  dsimp only
  rw [if_pos ⟨hwrite, htransfer⟩, if_neg (fun hc => hwrite hc.1)]
  have harg := runs_writeArgument h₁ ((length_regWords v).trans_le hdata) rest'
  rw [length_regWords] at harg
  refine harg.bind ?_
  rintro - d₂ ⟨h₂, ha₂⟩
  rw [ha₁] at ha₂
  refine (runs_writeCommand h₂ (by rw [ha₂]; exact accessRegister_write hr hdata v hsteps)).bind ?_
  rintro - d₃ ⟨h₃, hcmd₃, ha₃⟩
  refine (runs_waitAbstractcs h₃).bind ?_
  rintro cs d₄ ⟨hcs, h₄, hcmd₄, ha₄⟩
  refine runs_pure_bind ?_
  rw [if_neg (by simp [hcs])]
  exact runs_pure ⟨rfl, h₄, hcmd₄.trans hcmd₃, ha₄.trans ha₃⟩

/-- A command that reads a register, with the program buffer behind it. -/
theorem runs_command_read (h : Ready 0 d) (hr : r = rvS0 ∨ r = rvS1) (hdata : T.xlen.words ≤ T.datacount)
    {data : CArray} (hlen : T.xlen.words ≤ data.length)
    (hsteps : Steps p (d.toArch.overlayData (regWords (d.gprs 0 r.toNat))) b) :
    Runs (runAbstractCommand (acCommand T.xlen false p r) [] 0 data T.xlen.words true) d fun out d' =>
        out.2 = (regWords (d.gprs 0 r.toNat)).map some ++ data.drop T.xlen.words ∧ Ready 0 d' ∧ d'.toArch = b := by
  obtain ⟨-, -, htransfer, -⟩ := @acCommand_transfer T.xlen false p r hr
  have hwrite := of_decide_eq_false (@acCommand_options T.xlen false p r hr).2.1
  unfold runAbstractCommand
  refine runs_guard_bind (Nat.zero_le _) (runs_guard_bind hdata ?_)
  refine runs_pure_bind ?_
  dsimp only
  rw [if_neg (fun hc => hwrite hc.1), if_pos ⟨not_not.mp hwrite, htransfer⟩]
  refine runs_pure_bind ?_
  refine (runs_writeCommand h (accessRegister_read hr hdata hsteps)).bind ?_
  rintro - d₃ ⟨h₃, -, ha₃⟩
  refine (runs_waitAbstractcs h₃).bind ?_
  rintro cs d₄ ⟨hcs, h₄, -, ha₄⟩
  have hd₄ : d₄.data = overlay (regWords (d.gprs 0 r.toNat)) d.data := by
    rw [ha₄, ha₃, hsteps.data_eq.1]
    rfl
  have harg := runs_readArgument h₄ ((length_regWords (d.gprs 0 r.toNat)).trans_le hdata)
    ((length_regWords _).trans_le hlen) (fun i w hw => by rw [hd₄, overlay, List.getD_eq_getElem?_getD, hw]; rfl)
  rw [length_regWords] at harg
  refine harg.bind ?_
  rintro out d₅ ⟨rfl, h₅, -, ha₅⟩
  rw [if_neg (by simp [hcs])]
  exact runs_pure ⟨rfl, h₅, ha₅.trans (ha₄.trans ha₃)⟩

/-- More arguments than the target has data registers for. -/
theorem stuck_command {command : BitVec 32} {program data : CArray} {programN dataN : ℕ} {logError : Bool}
    (h : ¬ dataN ≤ T.datacount) : Stuck (runAbstractCommand command program programN data dataN logError) d := by
  unfold runAbstractCommand
  by_cases hprog : programN ≤ T.progbufsize
  · exact (runs_lift (Q := fun _ _ => True) (if_pos hprog) trivial).stuck_bind fun _ _ _ => stuck_guard_bind h
  · exact stuck_guard_bind hprog

/-! ## Saving and restoring a register -/

theorem command_save (X : Xlen) (r : BitVec 32) :
    acAccessRegisterTransfer ||| rvAcArSize X.bits ||| rvAcArRegno r = acCommand X false false r := by
  simp [acCommand]

theorem command_restore (X : Xlen) (r : BitVec 32) :
    acAccessRegisterTransfer ||| acAccessRegisterWrite ||| rvAcArSize X.bits ||| rvAcArRegno r =
      acCommand X true false r := by
  simp [acCommand]

/-- The words of a register are put together again. -/
theorem joinWords {X : Xlen} (v : BitVec X.bits) {rest : CArray}
    {Q : BitVec 64 → Dm T → Prop} (h : Q (v.setWidth 64) d) :
    Runs (do
      let lo ← Prog.lift (CArray.read ((regWords v).map some ++ rest) 0)
      if X.bits > 32 then do
        let hi ← Prog.lift (CArray.read ((regWords v).map some ++ rest) 1)
        pure (lo.setWidth 64 ||| (hi.setWidth 64 <<< 32))
      else pure (lo.setWidth 64) : Prog (Dm T) (BitVec 64)) d Q := by
  cases X with
  | rv32 =>
    refine runs_lift_bind (a := (v >>> 0).setWidth 32) rfl ?_
    rw [if_neg (by decide)]
    have hv : ((v >>> 0).setWidth 32).setWidth 64 = v.setWidth 64 := by
      rw [BitVec.ushiftRight_zero]
      exact congrArg (BitVec.setWidth 64) (BitVec.setWidth_eq v)
    exact runs_pure (hv ▸ h)
  | rv64 =>
    refine runs_lift_bind (a := (v >>> 0).setWidth 32) rfl ?_
    rw [if_pos (by decide)]
    refine runs_lift_bind (a := (v >>> 32).setWidth 32) rfl ?_
    have hv : ((v >>> 0).setWidth 32).setWidth 64 ||| (((v >>> 32).setWidth 32).setWidth 64 <<< 32) =
        v.setWidth 64 := by
      apply BitVec.eq_of_getLsbD_eq
      intro i hi
      by_cases h32 : i < 32
      · simp [hi, h32]
      · simp [hi, h32, show i - 32 < 32 by omega, show 32 + (i - 32) = i by omega]
    exact runs_pure (hv ▸ h)

theorem runs_saveReg (h : Ready 0 d) (hr : r = rvS0 ∨ r = rvS1) (hdata : T.xlen.words ≤ T.datacount) :
    Runs (saveReg r) d fun v d' => v = (d.gprs 0 r.toNat).setWidth 64 ∧ Ready 0 d' ∧ d'.mem = d.mem ∧
      d'.gprs = d.gprs := by
  unfold saveReg
  dsimp only
  rw [command_save]
  refine (runs_command_read h hr hdata (by simp [CArray.declare, Xlen.words]) steps_false).bind ?_
  rintro ⟨err, data⟩ d₁ ⟨hout, h₁, ha₁⟩
  dsimp only at hout ⊢
  subst hout
  refine joinWords _ ⟨rfl, h₁, ?_, ?_⟩
  · rw [ha₁]
    rfl
  · rw [ha₁]
    rfl

theorem runs_restoreReg (h : Ready 0 d) (hr : r = rvS0 ∨ r = rvS1) (hdata : T.xlen.words ≤ T.datacount)
    {v : BitVec 64} :
    Runs (restoreReg r v) d fun _ d' => Ready 0 d' ∧ d'.mem = d.mem ∧
      d'.gprs = Function.update d.gprs 0 (Function.update (d.gprs 0) r.toNat (v.setWidth T.xlen.bits)) := by
  unfold restoreReg
  dsimp only
  rw [command_restore, halves_eq]
  refine runs_lift_bind (CArray.assign_eq (by simp [CArray.declare, Xlen.words])) ?_
  refine (runs_command_write h hr hdata [] (Nat.zero_le _) [] _ steps_false).bind ?_
  rintro - d₁ ⟨-, h₁, -, ha₁⟩
  refine runs_pure ⟨h₁, ?_, ?_⟩
  · rw [ha₁]
    rfl
  · rw [ha₁]
    rfl

end Run

end Soceteer.Fesvr
