import Soceteer.Htif.Mailbox
import Soceteer.Lib.Cint

/-!
# Soceteer.Htif.Command — the expression of `htif_tohost`

`htif_tohost` (`syscall-htif.c`) puts device, command and payload into one word; `cmd_t` (`device.hpp`) takes them
out again.  In C the two byte-sized operands are promoted to `int` before they are shifted.

* `htifTohostExpr`: the expression of `htif_tohost`, with the constants of `defaults.h`.
* `htifTohost_fields`: the fields of a word that is put together with 64 bits are what `cmd_t` reports.
* `tohost_never_roundTrips`: the expression itself has no value, on either target.
-/

namespace Soceteer.Htif

open Lib Lib.Cint

/-! ## The format -/

/-- The three fields of a word lie side by side. -/
theorem toNat_htifTohost (dev cmd : BitVec 8) {payload : Word} (h : payload.toNat < 2 ^ 48) :
    (htifTohost dev cmd payload).toNat = dev.toNat * 2 ^ 56 + cmd.toNat * 2 ^ 48 + payload.toNat := by
  have hlow : 2 ^ 48 * cmd.toNat + payload.toNat = 2 ^ 48 * cmd.toNat ||| payload.toNat :=
    Nat.two_pow_add_eq_or_of_lt h cmd.toNat
  have hlt : 2 ^ 48 * cmd.toNat + payload.toNat < 2 ^ 56 := by omega
  have hall := Nat.two_pow_add_eq_or_of_lt hlt dev.toNat
  have hmask : payload.toNat &&& (2 ^ 48 - 1) = payload.toNat := by
    rw [Nat.and_two_pow_sub_one_eq_mod, Nat.mod_eq_of_lt h]
  rw [htifTohost, BitVec.or_assoc]
  simp only [BitVec.toNat_or, BitVec.toNat_and, BitVec.toNat_shiftLeft, BitVec.toNat_setWidth, BitVec.toNat_ofNat,
    Nat.shiftLeft_eq]
  rw [Nat.mod_eq_of_lt (show 2 ^ 48 - 1 < 2 ^ 64 by omega), hmask,
    Nat.mod_eq_of_lt (show dev.toNat < 2 ^ 64 by omega),
    Nat.mod_eq_of_lt (show cmd.toNat < 2 ^ 64 by omega),
      Nat.mod_eq_of_lt (show dev.toNat * 2 ^ 56 < 2 ^ 64 by omega),
    Nat.mod_eq_of_lt (show cmd.toNat * 2 ^ 48 < 2 ^ 64 by omega), Nat.mul_comm cmd.toNat, ← hlow,
    Nat.mul_comm dev.toNat, ← hall, Nat.add_assoc]

/-- What `cmd_t` reports of a word that is put together with 64 bits. -/
theorem htifTohost_fields (dev cmd : BitVec 8) {payload : Word} (h : payload.toNat < 2 ^ 48) :
    Cmd.device (htifTohost dev cmd payload) = dev ∧ Cmd.cmd (htifTohost dev cmd payload) = cmd ∧
      Cmd.payload (htifTohost dev cmd payload) = payload := by
  have hword := toNat_htifTohost dev cmd h
  refine ⟨BitVec.eq_of_toNat_eq ?_, BitVec.eq_of_toNat_eq ?_, BitVec.eq_of_toNat_eq ?_⟩
  · rw [Cmd.device, BitVec.toNat_setWidth, BitVec.toNat_ushiftRight, hword, Nat.shiftRight_eq_div_pow]
    omega
  · rw [Cmd.cmd, BitVec.toNat_setWidth, BitVec.toNat_ushiftRight, hword, Nat.shiftRight_eq_div_pow]
    omega
  · rw [Cmd.payload, BitVec.toNat_ushiftRight, BitVec.toNat_shiftLeft, hword, Nat.shiftRight_eq_div_pow,
      Nat.shiftLeft_eq]
    omega

/-! ## The expression -/

/-- The constants of `defaults.h`. -/
def devShift : Expr := .val int 56

def devMask : Expr := .val int 0xff

def cmdShift : Expr := .val int 48

def cmdMask : Expr := .val int 0xff

def payloadMask (x : Xlen) : Expr := .sub (.shl (.val (ulong x) 1) cmdShift) (.val int 1)

def devField (dev : BitVec 8) : Expr := .shl (.and (.val uint8 dev.toNat) devMask) devShift

def cmdField (cmd : BitVec 8) : Expr := .shl (.and (.val uint8 cmd.toNat) cmdMask) cmdShift

def htifTohostExpr (x : Xlen) (dev cmd : BitVec 8) (payload : BitVec x.bits) : Expr :=
  .or (.or (devField dev) (cmdField cmd)) (.and (.val (ulong x) payload.toNat) (payloadMask x))

/-- The word that is stored in `tohost` reports what it was built from, and no shift is out of range. -/
def RoundTrips (x : Xlen) (dev cmd : BitVec 8) (payload : BitVec x.bits) : Prop :=
  (∃ v, (htifTohostExpr x dev cmd payload).eval = some v ∧ Cmd.device (BitVec.ofInt 64 v) = dev ∧
    Cmd.cmd (BitVec.ofInt 64 v) = cmd ∧ Cmd.payload (BitVec.ofInt 64 v) = payload.setWidth 64) ∧
    (htifTohostExpr x dev cmd payload).ShiftsInRange

/-- The masked device is an `int`, and it is shifted by 56. -/
theorem devField_out_of_range (dev : BitVec 8) : ¬ (devField dev).ShiftsInRange := by
  rintro ⟨-, -, hrange⟩
  have h := (hrange 56 rfl).2
  simp [Expr.ty, devMask, uint8, int, Ty.common, Ty.promote] at h

theorem cmdField_out_of_range (cmd : BitVec 8) : ¬ (cmdField cmd).ShiftsInRange := by
  rintro ⟨-, -, hrange⟩
  have h := (hrange 48 rfl).2
  simp [Expr.ty, cmdMask, uint8, int, Ty.common, Ty.promote] at h

/-- On RV32 an `unsigned long` is shifted too far as well. -/
theorem payloadMask_inRange_iff (x : Xlen) : (payloadMask x).ShiftsInRange ↔ x = .rv64 := by
  cases x with
  | rv32 =>
    refine ⟨fun h => ?_, fun h => absurd h (by simp)⟩
    have h := (h.1.2.2 48 rfl).2
    simp [Expr.ty, ulong, Xlen.bits, Ty.promote] at h
  | rv64 => exact ⟨fun _ => rfl, fun _ => Expr.shiftsInRange_of_eval (v := 2 ^ 48 - 1) (by decide)⟩

/-- For no device, command and payload does `htif_tohost` have a defined value: on both targets the device and the
command are shifted out of range, on RV32 the mask of the payload is, too. -/
theorem tohost_never_roundTrips (x : Xlen) (dev cmd : BitVec 8) (payload : BitVec x.bits) :
    ¬ RoundTrips x dev cmd payload ∧ (htifTohostExpr x dev cmd payload).eval = none ∧
      ¬ (devField dev).ShiftsInRange ∧ ¬ (cmdField cmd).ShiftsInRange ∧
        ((payloadMask x).ShiftsInRange ↔ x = .rv64) := by
  have hshift : ¬ (htifTohostExpr x dev cmd payload).ShiftsInRange := fun h => devField_out_of_range dev h.1.1
  refine ⟨fun h => hshift h.2, ?_, devField_out_of_range dev, cmdField_out_of_range cmd, payloadMask_inRange_iff x⟩
  cases heval : (htifTohostExpr x dev cmd payload).eval with
  | none => rfl
  | some v => exact absurd (Expr.shiftsInRange_of_eval heval) hshift

/-- The one command in use: device 0, command 0, a buffer at `0x80001000`. -/
theorem tohost_syscall_not_roundTrips : ¬ RoundTrips .rv64 0 0 0x80001000 := by
  intro h
  exact devField_out_of_range 0 h.2.1.1

end Soceteer.Htif
