import Mathlib.Tactic.IntervalCases
import Soceteer.Lib.Crc

/-!
# Soceteer.Sdhost.Crc — the check codes of the SD bus

* `sdCrc7`, `sdCrc16`: the registers `sd_crc_7` and `sd_crc_16`, bit by bit.
* `sdCrc7_eq_feed`, `sdCrc16_eq_feed`: they divide by `x^7 + x^3 + 1` and `x^16 + x^12 + x^5 + 1`.
-/

namespace Soceteer.Sdhost

open Lib.Crc

/-- `sd_crc_7`, an enabled edge without `CLEAR` -/
def sdCrc7 (crc : BitVec 7) (bitval : Bool) : BitVec 7 :=
  let inv := bitval ^^ crc.getLsbD 6
  BitVec.ofBoolListBE [crc.getLsbD 5, crc.getLsbD 4, crc.getLsbD 3, crc.getLsbD 2 ^^ inv, crc.getLsbD 1,
    crc.getLsbD 0, inv]

/-- `sd_crc_16`, an enabled edge without `CLEAR` -/
def sdCrc16 (crc : BitVec 16) (bitval : Bool) : BitVec 16 :=
  let inv := bitval ^^ crc.getLsbD 15
  BitVec.ofBoolListBE [crc.getLsbD 14, crc.getLsbD 13, crc.getLsbD 12, crc.getLsbD 11 ^^ inv,
    crc.getLsbD 10, crc.getLsbD 9,
    crc.getLsbD 8, crc.getLsbD 7, crc.getLsbD 6, crc.getLsbD 5, crc.getLsbD 4 ^^ inv, crc.getLsbD 3, crc.getLsbD 2,
    crc.getLsbD 1, crc.getLsbD 0, inv]

def poly7 : BitVec 7 := 0x09#7

def poly16 : BitVec 16 := 0x1021#16

theorem sdCrc7_eq_feed (crc : BitVec 7) (b : Bool) : sdCrc7 crc b = feed poly7 crc b := by
  refine BitVec.eq_of_getMsbD_eq fun i hi => ?_
  have hmsb : crc.msb = crc.getLsbD 6 := BitVec.msb_eq_getLsbD_last crc
  rw [sdCrc7, BitVec.getMsbD_ofBoolListBE, feed, hmsb, Bool.xor_comm b, BitVec.getMsbD_xor,
    BitVec.getMsbD_shiftLeft]
  generalize (crc.getLsbD 6 ^^ b) = inv
  interval_cases i <;> cases inv <;> simp [BitVec.getMsbD_eq_getLsbD, poly7]

theorem sdCrc16_eq_feed (crc : BitVec 16) (b : Bool) : sdCrc16 crc b = feed poly16 crc b := by
  refine BitVec.eq_of_getMsbD_eq fun i hi => ?_
  have hmsb : crc.msb = crc.getLsbD 15 := BitVec.msb_eq_getLsbD_last crc
  rw [sdCrc16, BitVec.getMsbD_ofBoolListBE, feed, hmsb, Bool.xor_comm b, BitVec.getMsbD_xor,
    BitVec.getMsbD_shiftLeft]
  generalize (crc.getLsbD 15 ^^ b) = inv
  interval_cases i <;> cases inv <;> simp [BitVec.getMsbD_eq_getLsbD, poly16]

end Soceteer.Sdhost
