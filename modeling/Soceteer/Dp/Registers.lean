import Soceteer.Dp.Var

/-!
# Soceteer.Dp.Registers — the timing generator's packed registers

`vtc_start` packs two quantities of a mode into each register of the timing generator, 16 bits apart.

* `readBack`: the word a register holds; `packed`: what each half should read as, in unbounded numbers.
* `packed_iff`: a register word reads back as its two quantities exactly when both fit 16 bits.
* `programmed_back_iff`: the condition on an accepted var.
-/

namespace Soceteer.Dp

/-- The word written to a register. -/
def readBack (writes : List RegWrite) (reg : ℕ) : Option UInt32 := (writes.find? fun w => w.1 = reg).map (·.2)

def lowHalf (w : UInt32) : ℕ := w.toNat % 2 ^ 16

def highHalf (w : UInt32) : ℕ := w.toNat / 2 ^ 16

namespace Mode

variable (m : Mode)

/-- Start of the horizontal sync. -/
def hss : ℕ := m.hactive.toNat + m.hfrontPorch.toNat

/-- End of the horizontal sync. -/
def hbs : ℕ := m.hss + m.hsyncLen.toNat

/-- Start of the vertical sync. -/
def vss : ℕ := m.vactive.toNat + m.vfrontPorch.toNat

/-- End of the vertical sync. -/
def vbs : ℕ := m.vss + m.vsyncLen.toNat

/-- All lines of the frame. -/
def lines : ℕ := m.vbs + m.vbackPorch.toNat

/-- The registers with the quantities in their lower and upper halves: `GVSIZE`, `GASIZE`, `GHSYNC`, `GVSYNC`,
`GVBHOFF` and `GVSHOFF`. -/
def packed : List (ℕ × ℕ × ℕ) :=
  [(0x074, m.lines, m.lines), (0x060, m.hactive.toNat, m.vactive.toNat), (0x078, m.hss, m.hbs),
    (0x080, m.vss, m.vbs), (0x07C, m.hactive.toNat, m.hactive.toNat), (0x084, m.hss, m.hss)]

/-- The timing generator's registers decode back to the mode. -/
def ProgrammedBack : Prop :=
  ∀ r ∈ m.packed, ∃ w, readBack (vtcWrites m) r.1 = some w ∧ lowHalf w = r.2.1 ∧ highHalf w = r.2.2

end Mode

/-- **Two halves of a word.** -/
theorem packed_iff {a b : UInt32} {x y : ℕ} (hx : a.toNat = x % 2 ^ 32) (hy : b.toNat = y % 2 ^ 32) :
    (lowHalf (a ||| b <<< 16) = x ∧ highHalf (a ||| b <<< 16) = y) ↔ x < 2 ^ 16 ∧ y < 2 ^ 16 := by
  unfold lowHalf highHalf
  constructor
  · rintro ⟨rfl, rfl⟩
    have hlt := (a ||| b <<< 16).toNat_lt
    omega
  · rintro ⟨hx', hy'⟩
    have ha : a.toNat = x := by omega
    have hb : b.toNat = y := by omega
    have hword : (a ||| b <<< 16).toNat = 2 ^ 16 * y + x := by
      rw [UInt32.toNat_or, UInt32.toNat_shiftLeft, ha, hb, show (16 : UInt32).toNat % 32 = 16 from rfl,
        Nat.shiftLeft_eq, Nat.mod_eq_of_lt (by omega), Nat.or_comm, Nat.mul_comm, Nat.two_pow_add_eq_or_of_lt hx']
    rw [hword]
    omega

/-- The halves fit exactly when the horizontal sync ends and the frame ends within 16 bits. -/
theorem programmedBack_iff (m : Mode) : m.ProgrammedBack ↔ m.hbs < 2 ^ 16 ∧ m.lines < 2 ^ 16 := by
  have h1 := m.hactive.toNat_lt
  have h2 := m.vactive.toNat_lt
  have hhss : (m.hactive + m.hfrontPorch).toNat = m.hss % 2 ^ 32 := by
    rw [UInt32.toNat_add, Mode.hss]
  have hhbs : (m.hactive + m.hfrontPorch + m.hsyncLen).toNat = m.hbs % 2 ^ 32 := by
    rw [UInt32.toNat_add, UInt32.toNat_add, Mode.hbs, Mode.hss]
    omega
  have hvss : (m.vactive + m.vfrontPorch).toNat = m.vss % 2 ^ 32 := by
    rw [UInt32.toNat_add, Mode.vss]
  have hvbs : (m.vactive + m.vfrontPorch + m.vsyncLen).toNat = m.vbs % 2 ^ 32 := by
    rw [UInt32.toNat_add, UInt32.toNat_add, Mode.vbs, Mode.vss]
    omega
  have hlines : m.vtotal.toNat = m.lines % 2 ^ 32 := by
    rw [Mode.vtotal, UInt32.toNat_add, UInt32.toNat_add, UInt32.toNat_add, Mode.lines, Mode.vbs, Mode.vss]
    omega
  have hactive : m.hactive.toNat = m.hactive.toNat % 2 ^ 32 := by omega
  have vactive : m.vactive.toNat = m.vactive.toNat % 2 ^ 32 := by omega
  unfold Mode.ProgrammedBack Mode.packed
  simp only [List.forall_mem_cons, List.not_mem_nil, false_implies, implies_true, and_true]
  simp only [readBack, vtcWrites, List.find?_cons]
  simp only [Nat.reduceEqDiff, decide_false, decide_true, Option.map_some, Option.some.injEq, exists_eq_left']
  rw [packed_iff hlines hlines, packed_iff hactive vactive, packed_iff hhss hhbs, packed_iff hvss hvbs,
    packed_iff hactive hactive, packed_iff hhss hhss]
  have hle1 : m.hactive.toNat ≤ m.hss := Nat.le_add_right ..
  have hle2 : m.hss ≤ m.hbs := Nat.le_add_right ..
  have hle3 : m.vactive.toNat ≤ m.vss := Nat.le_add_right ..
  have hle4 : m.vss ≤ m.vbs := Nat.le_add_right ..
  have hle5 : m.vbs ≤ m.lines := Nat.le_add_right ..
  omega

/-- The mode an accepted var results in. -/
def Resulting (s : Driver) (var : VarScreenInfo) (m' : Mode) : Prop :=
  ∃ m, varToMode var = .ok m ∧ validateMode s m = .ok m'

theorem Resulting.programmedBack_iff {s : Driver} {var : VarScreenInfo} {m' : Mode} (h : Resulting s var m') :
    m'.ProgrammedBack ↔ var.xres.toNat + var.rightMargin.toNat + var.hsyncLen.toNat < 2 ^ 16 ∧
      var.frameLines < 2 ^ 16 := by
  obtain ⟨m, hm, hv⟩ := h
  rw [Dp.programmedBack_iff, validateMode_geometry hv, varToMode_eq_modeOf hm]
  exact Iff.rfl

/-- **When an accepted var programs the timing generator with itself.** -/
theorem programmed_back_iff (fbs : Fbs) (s : Driver) (var var' : VarScreenInfo)
    (h : checkVar fbs s var = .ok var') :
    (∀ m, Resulting s var m → m.ProgrammedBack) ↔
      var.xres.toNat + var.rightMargin.toNat + var.hsyncLen.toNat < 2 ^ 16 ∧ var.frameLines < 2 ^ 16 := by
  obtain ⟨m, m', hm, -, hv, -⟩ := checkVar_ok_iff.mp h
  exact ⟨fun hall => (Resulting.programmedBack_iff ⟨m, hm, hv⟩).mp (hall m' ⟨m, hm, hv⟩),
    fun hcond m' hres => hres.programmedBack_iff.mpr hcond⟩

/-- The framebuffer of the 1080p design. -/
def fullHdFbs : Fbs := ⟨0x1000000, fullHd.cur, 1920, 1080, 5760, 2, false, 0, false, 0⟩

/-- 720p with a 100 MHz pixel clock. -/
def fastVar : VarScreenInfo := { hd720Var with pixclock := 10000 }

theorem fastVar_mode : varToMode fastVar = .ok (modeOf fastVar 81) := by decide

theorem fastVar_accepted : validateMode fullHd (modeOf fastVar 81) = .ok (modeOf fastVar 81) :=
  fullHd_accepts_input (by decide) (by decide)

theorem fastVar_checked :
    checkVar fullHdFbs fullHd fastVar = .ok (fillVar 0x1000000 (modeOf fastVar 81) fastVar) :=
  checkVar_ok_iff.mpr ⟨_, _, fastVar_mode, by decide, fastVar_accepted, rfl⟩

theorem fastVar_programmed_back : (modeOf fastVar 81).ProgrammedBack :=
  (programmed_back_iff fullHdFbs fullHd fastVar _ fastVar_checked).mpr ⟨by decide, by decide⟩ _
    ⟨_, fastVar_mode, fastVar_accepted⟩

/-- The same with a front porch of 70000 pixels, at 2 Hz. -/
def widePorch : VarScreenInfo := { fastVar with rightMargin := 70000 }

theorem widePorch_mode : varToMode widePorch = .ok (modeOf widePorch 2) := by decide

theorem widePorch_accepted : validateMode fullHd (modeOf widePorch 2) = .ok (modeOf widePorch 2) :=
  fullHd_accepts_input (by decide) (by decide)

/-- The sync start leaves its half and overwrites the other. -/
theorem widePorch_not_programmed_back :
    checkVar fullHdFbs fullHd widePorch = .ok (fillVar 0x1000000 (modeOf widePorch 2) widePorch) ∧
      Resulting fullHd widePorch (modeOf widePorch 2) ∧ ¬ (modeOf widePorch 2).ProgrammedBack := by
  refine ⟨checkVar_ok_iff.mpr ⟨_, _, widePorch_mode, by decide, widePorch_accepted, rfl⟩,
    ⟨_, widePorch_mode, widePorch_accepted⟩, fun h => ?_⟩
  have hbs := ((programmedBack_iff _).mp h).1
  exact absurd hbs (by decide)

end Soceteer.Dp
