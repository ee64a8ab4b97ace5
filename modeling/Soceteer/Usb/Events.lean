import Mathlib.Data.BitVec
import Mathlib.Algebra.Group.Nat.Defs
import Mathlib.Data.List.Basic
import Soceteer.Lib.Run

/-!
# Soceteer.Usb.Events — the event ring of the xHCI driver

The controller posts events to a ring of one segment and marks each with a cycle bit that flips on every wrap; the
driver takes them with `event_pop`, which publishes the new dequeue pointer before its caller has read the slot.

* `Trb`, `Place`, `St`, `eventPop`, `step`: the driver access by access, its caller's reads, and a controller that
  writes the words of an event one after the other, the one with the cycle bit last, and starts none when its
  enqueue pointer would then name the slot of ERDP.
* `cyc`: the cycle bit of event number `i`.
* `Inv`: which events the slots hold; `inv_step`, one lemma per action before it.
* `events_once_in_order`: what the caller gets, when nothing is returned, and that the slot in hand is left alone.
-/

namespace Soceteer.Usb

open Lib

/-! ## The source -/

/-- `XHCI_RING_TRBS` -/
def ringTrbs : ℕ := 64

/-- A TRB: parameter (2), status, control. -/
abbrev Trb := Fin 4 → BitVec 32

/-- Where `evt_ring` lies. The upper half of its address in the segment table is zero. -/
structure Place where
  base : ℕ
  aligned : 64 ∣ base
  below : base + 16 * ringTrbs ≤ 2 ^ 32

/-- Where the driver is: between calls, in the two halves of the write to ERDP, or with a slot to read. -/
inductive Pc
  | idle
  | erdpLow (e : ℕ)
  | erdpHigh (e : ℕ)
  | reading (e : ℕ) (seen : Fin 4 → Option (BitVec 32))
  | done (e : ℕ)

/-- The ring, the driver, the ERDP register, the controller, and what was posted and read so far. -/
structure St where
  evtRing : ℕ → Trb
  evtIndex : ℕ
  evtCycle : BitVec 32
  pc : Pc
  erdpLo : ℕ
  erdpHi : ℕ
  enqueue : ℕ
  cycleState : BitVec 32
  posting : Option (Trb × (Fin 4 → Bool))
  posted : List Trb
  got : List Trb

/-- After `xhci_init`: the ring is zeroed, and ERDP names its first slot. -/
def St.init (R : Place) : St where
  evtRing := fun _ _ => 0
  evtIndex := 0
  evtCycle := 1
  pc := .idle
  erdpLo := R.base
  erdpHi := 0
  enqueue := 0
  cycleState := 1
  posting := none
  posted := []
  got := []

/-- `event_pop` up to its write to ERDP. -/
def eventPop (s : St) : St :=
  if s.evtRing s.evtIndex 3 &&& 1 ≠ s.evtCycle then { s with pc := .idle }
  else if s.evtIndex + 1 = ringTrbs then
    { s with evtIndex := 0, evtCycle := s.evtCycle ^^^ 1, pc := .erdpLow s.evtIndex }
  else { s with evtIndex := s.evtIndex + 1, pc := .erdpLow s.evtIndex }

/-- The value written to ERDP; bit 3 clears the busy flag. -/
def erdpValue (R : Place) (s : St) : ℕ := (R.base + 16 * s.evtIndex) ||| 8

/-- The controller's next enqueue position. -/
def next (i : ℕ) : ℕ := if i + 1 = ringTrbs then 0 else i + 1

/-- The slot that ERDP names; the low four bits are flags. -/
def erdpNames (R : Place) (s : St) (i : ℕ) : Prop := (s.erdpHi * 2 ^ 32 + s.erdpLo) / 16 * 16 = R.base + 16 * i

instance (R : Place) (s : St) (i : ℕ) : Decidable (erdpNames R s i) := Nat.decEq _ _

inductive Act
  | pop
  | erdp
  | read (k : Fin 4)
  | take
  | post (t : Trb)
  | write (k : Fin 4)

/-- The words of the event, with the controller's cycle bit. -/
def stamp (c : BitVec 32) (t : Trb) : Trb := Function.update t 3 ((t 3 &&& ~~~ 1) ||| c)

/-- A word written to a slot. -/
def putWord (ring : ℕ → Trb) (i : ℕ) (k : Fin 4) (v : BitVec 32) : ℕ → Trb :=
  Function.update ring i (Function.update (ring i) k v)

/-- One access of the driver, of its caller or of the controller. -/
def step (R : Place) (s : St) : Act → Option St
  | .pop =>
    match s.pc with
    | .idle | .done _ => some (eventPop s)
    | _ => none
  | .erdp =>
    match s.pc with
    | .erdpLow e => some { s with erdpLo := erdpValue R s % 2 ^ 32, pc := .erdpHigh e }
    | .erdpHigh e => some { s with erdpHi := erdpValue R s / 2 ^ 32 % 2 ^ 32, pc := .reading e fun _ => none }
    | _ => none
  | .read k =>
    match s.pc with
    | .reading e seen => some { s with pc := .reading e (Function.update seen k (some (s.evtRing e k))) }
    | _ => none
  | .take =>
    match s.pc with
    | .reading e seen =>
      if ∀ k, (seen k).isSome then some { s with pc := .done e, got := s.got ++ [fun k => (seen k).getD 0] }
        else none
    | _ => none
  | .post t =>
    if s.posting.isNone ∧ ¬ erdpNames R s (next s.enqueue) then
      some { s with posting := some (stamp s.cycleState t, fun _ => false) }
    else none
  | .write k =>
    match s.posting with
    | none => none
    | some (t, w) =>
      if k = 3 then
        if w 0 ∧ w 1 ∧ w 2 then
          some { s with
            evtRing := putWord s.evtRing s.enqueue 3 (t 3),
            posting := none, posted := s.posted ++ [t], enqueue := next s.enqueue,
            cycleState := if s.enqueue + 1 = ringTrbs then s.cycleState ^^^ 1 else s.cycleState }
        else none
      else
        some { s with
          evtRing := putWord s.evtRing s.enqueue k (t k),
          posting := some (t, Function.update w k true) }

/-! ## Cycle bits -/

/-- The cycle bit of event number `i`. -/
def cyc (i : ℕ) : BitVec 32 := if i / 64 % 2 = 0 then 1 else 0

theorem cyc_cases (i : ℕ) : i / 64 % 2 = 0 ∧ cyc i = 1 ∨ i / 64 % 2 = 1 ∧ cyc i = 0 := by
  rcases Nat.mod_two_eq_zero_or_one (i / 64) with h | h
  · exact .inl ⟨h, if_pos h⟩
  · exact .inr ⟨h, if_neg (by omega)⟩

/-- One time round the ring later the bit is the other one. -/
theorem cyc_add_ringTrbs (i : ℕ) : cyc i ≠ cyc (i + 64) := by
  rcases cyc_cases i with ⟨h, hc⟩ | ⟨h, hc⟩ <;> rcases cyc_cases (i + 64) with ⟨h', hc'⟩ | ⟨h', hc'⟩
  · omega
  · rw [hc, hc']
    decide
  · rw [hc, hc']
    decide
  · omega

/-- The bit flips on a wrap and only there. -/
theorem cyc_succ (i : ℕ) : cyc (i + 1) = if i % 64 + 1 = 64 then cyc i ^^^ 1 else cyc i := by
  rcases cyc_cases i with ⟨h, hc⟩ | ⟨h, hc⟩ <;> rcases cyc_cases (i + 1) with ⟨h', hc'⟩ | ⟨h', hc'⟩ <;>
    rw [hc, hc'] <;> split <;> first | rfl | omega

theorem next_mod (i : ℕ) : next (i % 64) = (i + 1) % 64 := by
  unfold next ringTrbs
  split <;> omega

section PutWord

variable {ring : ℕ → Trb} {i : ℕ} {k : Fin 4} {v : BitVec 32}

theorem putWord_of_ne {j : ℕ} (h : j ≠ i) : putWord ring i k v j = ring j := Function.update_of_ne h _ _

theorem putWord_self : putWord ring i k v i k = v := by
  rw [putWord, Function.update_self, Function.update_self]

theorem putWord_other {k' : Fin 4} (h : k' ≠ k) (j : ℕ) : putWord ring i k v j k' = ring j k' := by
  by_cases hj : j = i
  · rw [hj, putWord, Function.update_self, Function.update_of_ne h]
  · rw [putWord_of_ne hj]

/-- The last word makes the event whole. -/
theorem putWord_last {t : Trb} {i : ℕ} (h : ∀ k, k ≠ 3 → ring i k = t k) : putWord ring i 3 (t 3) i = t := by
  funext k
  by_cases hk : k = 3
  · rw [hk, putWord_self]
  · rw [putWord_other hk, h k hk]

theorem first_three {w : Fin 4 → Bool} (h0 : w 0 = true) (h1 : w 1 = true) (h2 : w 2 = true)
    {k : Fin 4} (hk : k ≠ 3) :
    w k = true := by
  have hcases : k = 0 ∨ k = 1 ∨ k = 2 := by omega
  rcases hcases with rfl | rfl | rfl
  · exact h0
  · exact h1
  · exact h2

end PutWord

theorem stamp_cycle {c : BitVec 32} (hc : c = 1 ∨ c = 0) (t : Trb) : stamp c t 3 &&& 1 = c := by
  have hclear : (~~~ 1 &&& 1 : BitVec 32) = 0#32 := rfl
  rw [stamp, Function.update_self, BitVec.and_or_distrib_right, BitVec.and_assoc, hclear,
    BitVec.and_zero, BitVec.zero_or]
  rcases hc with rfl | rfl <;> rfl

/-! ## The invariant -/

/-- The slot in hand. -/
def Pc.held : Pc → Option ℕ
  | .idle => none
  | .erdpLow e => some e
  | .erdpHigh e => some e
  | .reading e _ => some e
  | .done e => some e

/-- An event that is taken off the ring and not yet read. -/
def Pc.pending : Pc → ℕ
  | .idle => 0
  | .done _ => 0
  | _ => 1

/-- An event that ERDP does not count yet. -/
def Pc.unpublished : Pc → ℕ
  | .erdpLow _ => 1
  | _ => 0

/-- How many events the driver has taken off the ring. -/
def St.consumed (s : St) : ℕ := s.got.length + s.pc.pending

theorem St.unpublished_le (s : St) : s.pc.unpublished ≤ s.consumed := by
  have h : s.pc.unpublished ≤ s.pc.pending := by cases s.pc <;> simp [Pc.unpublished, Pc.pending]
  exact h.trans (Nat.le_add_left _ _)

/-- The events that were posted and not yet overwritten are in their slots, and every number wraps with the
ring. -/
structure Inv (R : Place) (s : St) : Prop where
  index : s.evtIndex = s.consumed % 64
  cycle : s.evtCycle = cyc s.consumed
  erdpHi : s.erdpHi = 0
  erdpLo : s.erdpLo / 16 * 16 = R.base + 16 * ((s.consumed - s.pc.unpublished) % 64)
  enqueue : s.enqueue = s.posted.length % 64
  cycleState : s.cycleState = cyc s.posted.length
  le : s.consumed ≤ s.posted.length
  room : s.posted.length + (if s.posting.isSome then 1 else 0) + s.pc.unpublished ≤ s.consumed + 63
  stale : ∀ i, s.posted.length ≤ i → i < s.posted.length + 64 → s.evtRing (i % 64) 3 &&& 1 ≠ cyc i
  stamped : ∀ i t, s.posted[i]? = some t → t 3 &&& 1 = cyc i
  kept : ∀ i t, s.posted[i]? = some t → s.consumed ≤ i → s.evtRing (i % 64) = t
  written : ∀ t w, s.posting = some (t, w) → t 3 &&& 1 = cyc s.posted.length ∧
    ∀ k, w k = true → s.evtRing (s.posted.length % 64) k = t k
  prior : s.got <+: s.posted
  held : ∀ e, s.pc.held = some e → 0 < s.consumed ∧ e = (s.consumed - 1) % 64 ∧
    s.posted[s.consumed - 1]? = some (s.evtRing e)
  seen : ∀ e seen k v, s.pc = .reading e seen → seen k = some v → v = s.evtRing e k

section Erdp

variable {R : Place} {s : St}

/-- What the two halves of the write to ERDP are. -/
theorem erdpValue_eq (h : s.evtIndex < 64) :
    erdpValue R s % 2 ^ 32 / 16 * 16 = R.base + 16 * s.evtIndex ∧ erdpValue R s / 2 ^ 32 % 2 ^ 32 = 0 := by
  obtain ⟨b, hb⟩ := R.aligned
  have hbelow := R.below
  unfold ringTrbs at hbelow
  have hor : (R.base + 16 * s.evtIndex) ||| 8 = R.base + 16 * s.evtIndex + 8 := by
    rw [show R.base + 16 * s.evtIndex = 2 ^ 4 * (4 * b + s.evtIndex) by omega]
    exact (Nat.two_pow_add_eq_or_of_lt (by decide) _).symm
  rw [erdpValue, hor]
  omega

theorem Inv.erdpNames_iff (hI : Inv R s) {i : ℕ} :
    erdpNames R s i ↔ (s.consumed - s.pc.unpublished) % 64 = i := by
  rw [erdpNames, hI.erdpHi, Nat.zero_mul, Nat.zero_add, hI.erdpLo]
  omega

end Erdp

theorem inv_init (R : Place) : Inv R (.init R) where
  index := rfl
  cycle := (by decide : (1 : BitVec 32) = cyc 0)
  erdpHi := rfl
  erdpLo := by
    obtain ⟨b, hb⟩ := R.aligned
    show R.base / 16 * 16 = R.base + 16 * (0 % 64)
    omega
  enqueue := rfl
  cycleState := (by decide : (1 : BitVec 32) = cyc 0)
  le := le_rfl
  room := (by decide : 0 + 0 + 0 ≤ 0 + 63)
  stale := by
    intro i _ hi
    change i < 0 + 64 at hi
    rw [cyc, if_pos (by omega)]
    exact (by decide : (0#32 &&& 1 : BitVec 32) ≠ 1)
  stamped := by
    intro i t ht
    exact absurd ht (by simp [St.init])
  kept := by
    intro i t ht
    exact absurd ht (by simp [St.init])
  written := by
    intro t w h
    exact absurd h (by simp [St.init])
  prior := List.prefix_rfl
  held := by
    intro e he
    exact absurd he (by simp [St.init, Pc.held])
  seen := by
    intro e seen k v h
    exact absurd h (by simp [St.init])

/-! ## The driver -/

section Driver

variable {R : Place} {s s' : St} (hI : Inv R s)
include hI

/-- Nothing is returned exactly when every posted event has been taken. -/
theorem Inv.pop_iff : s.evtRing s.evtIndex 3 &&& 1 ≠ s.evtCycle ↔ s.consumed = s.posted.length := by
  rw [hI.index, hI.cycle]
  constructor
  · intro hne
    by_contra hlt
    have hle := hI.le
    have hget : s.posted[s.consumed]? = some (s.posted[s.consumed]) := List.getElem?_eq_getElem (by omega)
    rw [hI.kept _ _ hget le_rfl] at hne
    exact hne (hI.stamped _ _ hget)
  · intro heq
    rw [heq]
    exact hI.stale _ le_rfl (by omega)

/-- The driver moves on without taking an event. -/
theorem Inv.move {pc : Pc} {got : List Trb} {lo hi : ℕ} (hC : got.length + pc.pending = s.consumed) (hhi : hi = 0)
    (hlo : lo / 16 * 16 = R.base + 16 * ((s.consumed - pc.unpublished) % 64))
    (hun : pc.unpublished ≤ s.pc.unpublished)
    (hprior : got <+: s.posted) (hheld : ∀ e, pc.held = some e → s.pc.held = some e)
    (hseen : ∀ e seen k v, pc = .reading e seen → seen k = some v → v = s.evtRing e k) :
    Inv R { s with pc := pc, got := got, erdpLo := lo, erdpHi := hi } := by
  have hcon : St.consumed { s with pc := pc, got := got, erdpLo := lo, erdpHi := hi } = s.consumed := hC
  exact
    { hI with
      index := by rw [hcon]; exact hI.index
      cycle := by rw [hcon]; exact hI.cycle
      erdpHi := hhi
      erdpLo := by rw [hcon]; exact hlo
      le := by rw [hcon]; exact hI.le
      room := by rw [hcon]; exact (Nat.add_le_add_left hun _).trans hI.room
      kept := by rw [hcon]; exact hI.kept
      prior := hprior
      held := by rw [hcon]; exact fun e he => hI.held e (hheld e he)
      seen := hseen }

theorem inv_pop_none (hpc : s.pc.pending = 0) (hun : s.pc.unpublished = 0) : Inv R { s with pc := .idle } := by
  have hC : s.got.length + Pc.pending .idle = s.consumed := by rw [St.consumed, hpc]; rfl
  have hlo := hI.erdpLo
  rw [hun] at hlo
  refine hI.move hC hI.erdpHi hlo (Nat.zero_le _) hI.prior ?_ ?_
  · exact fun e he => absurd he (by simp [Pc.held])
  · exact fun e seen k v h => absurd h (by simp)

/-- An event is taken: it stays in its slot, which is the one in hand. -/
theorem inv_pop_some (hpc : s.pc.pending = 0) (hun : s.pc.unpublished = 0)
    (hfound : s.evtRing s.evtIndex 3 &&& 1 = s.evtCycle) : Inv R (eventPop s) := by
  have hne : s.consumed ≠ s.posted.length := fun heq => hI.pop_iff.mpr heq hfound
  have hle := hI.le
  have hgot : s.consumed = s.got.length := by rw [St.consumed, hpc]; rfl
  have hget : s.posted[s.consumed]? = some (s.posted[s.consumed]) := List.getElem?_eq_getElem (by omega)
  have hslot : s.posted[s.consumed]? = some (s.evtRing s.evtIndex) := by
    rw [hI.index, hI.kept _ _ hget le_rfl, hget]
  have herdp := hI.erdpLo
  have hroom := hI.room
  rw [hun] at herdp hroom
  have hpop : eventPop s = { s with
      evtIndex := (s.consumed + 1) % 64, evtCycle := cyc (s.consumed + 1), pc := .erdpLow s.evtIndex } := by
    rw [eventPop, if_neg (not_not_intro hfound), cyc_succ, ← hI.cycle, ← next_mod, ← hI.index, next, ringTrbs]
    split <;> rfl
  have hC : St.consumed { s with
      evtIndex := (s.consumed + 1) % 64, evtCycle := cyc (s.consumed + 1), pc := .erdpLow s.evtIndex } =
        s.consumed + 1 := by
    rw [St.consumed, hgot]
    rfl
  rw [hpop]
  exact
    { hI with
      index := by rw [hC]
      cycle := by rw [hC]
      erdpLo := by rw [hC]; exact herdp
      le := by rw [hC]; exact (by omega : s.consumed + 1 ≤ s.posted.length)
      room := by
        rw [hC]
        show s.posted.length + (if s.posting.isSome then 1 else 0) + 1 ≤ s.consumed + 1 + 63
        omega
      kept := by
        rw [hC]
        exact fun i t ht hi => hI.kept i t ht (by omega)
      held := by
        rw [hC]
        rintro e he
        obtain rfl : s.evtIndex = e := Option.some.inj he
        exact ⟨by omega, hI.index, hslot⟩
      seen := fun e seen k v h => absurd h (by simp) }

theorem inv_erdpLow {e : ℕ} (hpc : s.pc = .erdpLow e) :
    Inv R { s with erdpLo := erdpValue R s % 2 ^ 32, pc := .erdpHigh e } := by
  have hlt : s.evtIndex < 64 := by rw [hI.index]; exact Nat.mod_lt _ (by decide)
  have hlo := (erdpValue_eq (R := R) hlt).1
  rw [hI.index] at hlo
  refine hI.move (by rw [St.consumed, hpc]; rfl) hI.erdpHi hlo (Nat.zero_le _) hI.prior ?_ ?_
  · exact fun e' he' => by rw [hpc]; exact he'
  · exact fun e seen k v h => absurd h (by simp)

theorem inv_erdpHigh {e : ℕ} (hpc : s.pc = .erdpHigh e) :
    Inv R { s with erdpHi := erdpValue R s / 2 ^ 32 % 2 ^ 32, pc := .reading e fun _ => none } := by
  have hlt : s.evtIndex < 64 := by rw [hI.index]; exact Nat.mod_lt _ (by decide)
  have hlo := hI.erdpLo
  rw [hpc] at hlo
  refine hI.move (by rw [St.consumed, hpc]; rfl) (erdpValue_eq hlt).2 hlo (Nat.zero_le _) hI.prior ?_ ?_
  · exact fun e' he' => by rw [hpc]; exact he'
  · intro e' seen k v h hseen
    obtain ⟨-, rfl⟩ := Pc.reading.inj h
    exact absurd hseen (by simp)

theorem inv_read {e : ℕ} {seen : Fin 4 → Option (BitVec 32)} (hpc : s.pc = .reading e seen) (k : Fin 4) :
    Inv R { s with pc := .reading e (Function.update seen k (some (s.evtRing e k))) } := by
  have hlo := hI.erdpLo
  rw [hpc] at hlo
  refine hI.move (by rw [St.consumed, hpc]; rfl) hI.erdpHi hlo (Nat.zero_le _) hI.prior ?_ ?_
  · exact fun e' he' => by rw [hpc]; exact he'
  · intro e' seen' k' v h hseen
    obtain ⟨rfl, rfl⟩ := Pc.reading.inj h
    by_cases hk : k' = k
    · subst hk
      rw [Function.update_self] at hseen
      exact (Option.some.inj hseen).symm
    · rw [Function.update_of_ne hk] at hseen
      exact hI.seen e seen k' v hpc hseen

/-- The TRB that was read is the next one that was posted. -/
theorem inv_take {e : ℕ} {seen : Fin 4 → Option (BitVec 32)} (hpc : s.pc = .reading e seen)
    (hall : ∀ k, (seen k).isSome) :
      Inv R { s with pc := .done e, got := s.got ++ [fun k => (seen k).getD 0] } := by
  have hlo := hI.erdpLo
  rw [hpc] at hlo
  obtain ⟨hpos, -, hslot⟩ := hI.held e (by rw [hpc]; rfl)
  have hread : (fun k => (seen k).getD 0) = s.evtRing e := by
    funext k
    obtain ⟨v, hv⟩ := Option.isSome_iff_exists.mp (hall k)
    rw [hv, Option.getD_some]
    exact hI.seen e seen k v hpc hv
  have hnext : s.posted[s.got.length]? = some (s.evtRing e) := by
    have hlast : s.consumed - 1 = s.got.length := by
      rw [St.consumed, hpc]
      exact Nat.add_sub_cancel _ 1
    rwa [hlast] at hslot
  have hprior : s.got ++ [fun k => (seen k).getD 0] <+: s.posted := by
    obtain ⟨rest, hrest⟩ := hI.prior
    rw [← hrest, List.getElem?_append_right le_rfl, Nat.sub_self] at hnext
    rw [hread]
    cases rest with
    | nil => exact absurd hnext (by simp)
    | cons t rest =>
      obtain rfl : t = s.evtRing e := Option.some.inj hnext
      exact ⟨rest, by rw [← hrest, List.append_assoc]; rfl⟩
  refine hI.move (by rw [St.consumed, hpc, List.length_append]; rfl) hI.erdpHi hlo (Nat.zero_le _) hprior ?_ ?_
  · exact fun e' he' => by rw [hpc]; exact he'
  · exact fun e seen k v h => absurd h (by simp)

end Driver

/-! ## The controller -/

section Controller

variable {R : Place} {s : St} (hI : Inv R s)
include hI

theorem inv_post (hnone : s.posting = none) (hroom : ¬ erdpNames R s (next s.enqueue)) (t : Trb) :
    Inv R { s with posting := some (stamp s.cycleState t, fun _ => false) } := by
  have hle := hI.le
  have hun := s.unpublished_le
  have hfull := hI.room
  rw [hI.erdpNames_iff, hI.enqueue, next_mod] at hroom
  rw [hnone] at hfull
  have hbit : s.cycleState = 1 ∨ s.cycleState = 0 := by
    rw [hI.cycleState]
    rcases cyc_cases s.posted.length with h | h
    · exact .inl h.2
    · exact .inr h.2
  exact
    { hI with
      room := by
        show s.posted.length + 1 + s.pc.unpublished ≤ s.consumed + 63
        change s.posted.length + 0 + _ ≤ _ at hfull
        omega
      written := by
        intro t' w h
        obtain ⟨rfl, rfl⟩ := Prod.mk.inj (Option.some.inj h)
        refine ⟨?_, fun k hk => absurd hk (by simp)⟩
        rw [stamp_cycle hbit, hI.cycleState] }

/-- A word is written to the slot of the next event, which is neither in hand nor to be taken. -/
theorem Inv.slot_ne (hposting : s.posting.isSome) {i : ℕ} (hi : s.consumed ≤ i + 1) (hlt : i < s.posted.length) :
    i % 64 ≠ s.enqueue := by
  have hroom := hI.room
  rw [if_pos hposting] at hroom
  rw [hI.enqueue]
  omega

/-- What stays of the invariant when a word of the next event's slot is written. -/
theorem Inv.put (hposting : s.posting.isSome) {k : Fin 4} (v : BitVec 32) {i : ℕ} (hi : s.consumed ≤ i + 1)
    (hlt : i < s.posted.length) :
    putWord s.evtRing s.enqueue k v (i % 64) = s.evtRing (i % 64) :=
  putWord_of_ne (hI.slot_ne hposting hi hlt)

/-- The slot in hand is not written to. -/
theorem Inv.held_ne (hposting : s.posting.isSome) {e : ℕ} (he : s.pc.held = some e) : e ≠ s.enqueue := by
  obtain ⟨hpos, rfl, hslot⟩ := hI.held e he
  have hlt := (List.getElem?_eq_some_iff.mp hslot).1
  exact hI.slot_ne hposting (by omega) hlt

theorem inv_write {t : Trb} {w : Fin 4 → Bool} (hposting : s.posting = some (t, w)) {k : Fin 4} (hk : k ≠ 3) :
    Inv R { s with
      evtRing := putWord s.evtRing s.enqueue k (t k),
      posting := some (t, Function.update w k true) } := by
  have hsome : s.posting.isSome := by rw [hposting]; rfl
  obtain ⟨hcyc, hwritten⟩ := hI.written t w hposting
  have hroom := hI.room
  rw [hposting] at hroom
  exact
    { hI with
      room := hroom
      stale := by
        intro i hle hlt
        dsimp only
        rw [putWord_other hk.symm]
        exact hI.stale i hle hlt
      kept := by
        intro i t' ht' hi
        have hlt := (List.getElem?_eq_some_iff.mp ht').1
        exact (hI.put hsome _ (Nat.le_succ_of_le hi) hlt).trans (hI.kept i t' ht' hi)
      written := by
        intro t' w' h
        obtain ⟨rfl, rfl⟩ := Prod.mk.inj (Option.some.inj h)
        refine ⟨hcyc, fun k' hk' => ?_⟩
        dsimp only
        by_cases hkk : k' = k
        · rw [hkk, ← hI.enqueue, putWord_self]
        · rw [Function.update_of_ne hkk] at hk'
          rw [putWord_other hkk]
          exact hwritten k' hk'
      held := by
        intro e he
        obtain ⟨hpos, heq, hslot⟩ := hI.held e he
        refine ⟨hpos, heq, ?_⟩
        dsimp only
        rw [putWord_of_ne (hI.held_ne hsome he)]
        exact hslot
      seen := by
        intro e seen k' v h hseen
        dsimp only at h ⊢
        rw [putWord_of_ne (hI.held_ne hsome (by rw [h]; rfl))]
        exact hI.seen e seen k' v h hseen }

omit hI in
/-- An entry of a list with one more element is an old one or the new one. -/
theorem concat_cases {l : List Trb} {t t' : Trb} {i : ℕ} (h : (l ++ [t])[i]? = some t') :
    i < l.length ∧ l[i]? = some t' ∨ i = l.length ∧ t' = t := by
  rcases Nat.lt_or_ge i l.length with hlt | hge
  · exact .inl ⟨hlt, (List.getElem?_append_left hlt).symm.trans h⟩
  · rw [List.getElem?_append_right hge, List.getElem?_singleton, Option.ite_none_right_eq_some] at h
    exact .inr ⟨by omega, (Option.some.inj h.2).symm⟩

/-- With the last word the event is there. -/
theorem inv_finish {t : Trb} {w : Fin 4 → Bool} (hposting : s.posting = some (t, w)) (h0 : w 0 = true)
    (h1 : w 1 = true)
    (h2 : w 2 = true) :
    Inv R { s with
      evtRing := putWord s.evtRing s.enqueue 3 (t 3),
      posting := none, posted := s.posted ++ [t], enqueue := next s.enqueue,
      cycleState := if s.enqueue + 1 = ringTrbs then s.cycleState ^^^ 1 else s.cycleState } := by
  have hsome : s.posting.isSome := by rw [hposting]; rfl
  obtain ⟨hcyc, hwritten⟩ := hI.written t w hposting
  have hle := hI.le
  have hroom := hI.room
  rw [hposting] at hroom
  have hnew : putWord s.evtRing s.enqueue 3 (t 3) s.enqueue = t := by
    refine putWord_last fun k hk => ?_
    rw [hI.enqueue]
    exact hwritten k (first_three h0 h1 h2 hk)
  exact
    { hI with
      enqueue := by
        show next s.enqueue = (s.posted ++ [t]).length % 64
        rw [hI.enqueue, next_mod, List.length_append, List.length_singleton]
      cycleState := by
        show (if s.enqueue + 1 = ringTrbs then s.cycleState ^^^ 1 else s.cycleState) = cyc (s.posted ++ [t]).length
        rw [List.length_append, List.length_singleton, cyc_succ, hI.enqueue, hI.cycleState]
        rfl
      le := by
        show s.consumed ≤ (s.posted ++ [t]).length
        rw [List.length_append]
        omega
      room := by
        show (s.posted ++ [t]).length + 0 + s.pc.unpublished ≤ s.consumed + 63
        rw [List.length_append, List.length_singleton]
        exact hroom
      stale := by
        show ∀ i, (s.posted ++ [t]).length ≤ i → i < (s.posted ++ [t]).length + 64 → _
        rw [List.length_append, List.length_singleton]
        intro i hlo hhi
        dsimp only
        by_cases hi : i % 64 = s.enqueue
        · -- the slot just written is next used one time round later
          have hround : i = s.posted.length + 64 := by
            rw [hI.enqueue] at hi
            omega
          rw [hi, hnew, hcyc, hround]
          exact cyc_add_ringTrbs _
        · rw [putWord_of_ne hi]
          refine hI.stale i (by omega) ?_
          rw [hI.enqueue] at hi
          omega
      stamped := by
        intro i t' ht'
        rcases concat_cases ht' with ⟨-, hold⟩ | ⟨rfl, rfl⟩
        · exact hI.stamped i t' hold
        · exact hcyc
      kept := by
        intro i t' ht' hi
        rcases concat_cases ht' with ⟨hlt, hold⟩ | ⟨rfl, rfl⟩
        · exact (hI.put hsome _ (Nat.le_succ_of_le hi) hlt).trans (hI.kept i t' hold hi)
        · rw [← hI.enqueue]
          exact hnew
      written := fun t' w' h => absurd h (by simp)
      prior := hI.prior.trans (List.prefix_append _ _)
      held := by
        intro e he
        obtain ⟨hpos, heq, hslot⟩ := hI.held e he
        have hlt := (List.getElem?_eq_some_iff.mp hslot).1
        refine ⟨hpos, heq, ?_⟩
        dsimp only
        rw [putWord_of_ne (hI.held_ne hsome he)]
        exact (List.getElem?_append_left hlt).trans hslot
      seen := by
        intro e seen k' v h hseen
        dsimp only at h ⊢
        rw [putWord_of_ne (hI.held_ne hsome (by rw [h]; rfl))]
        exact hI.seen e seen k' v h hseen }

end Controller

/-! ## Runs -/

section Runs

variable {R : Place} {s s' : St}

/-- What each action needs and does. -/
theorem step_cases {a : Act} (h : step R s a = some s') :
    (a = .pop ∧ s.pc.pending = 0 ∧ s.pc.unpublished = 0 ∧ s' = eventPop s) ∨
      (∃ e, a = .erdp ∧ s.pc = .erdpLow e ∧
        s' = { s with erdpLo := erdpValue R s % 2 ^ 32, pc := .erdpHigh e }) ∨
      (∃ e, a = .erdp ∧ s.pc = .erdpHigh e ∧
        s' = { s with erdpHi := erdpValue R s / 2 ^ 32 % 2 ^ 32, pc := .reading e fun _ => none }) ∨
      (∃ k e seen, a = .read k ∧ s.pc = .reading e seen ∧
        s' = { s with pc := .reading e (Function.update seen k (some (s.evtRing e k))) }) ∨
      (∃ e seen, a = .take ∧ s.pc = .reading e seen ∧ (∀ k, (seen k).isSome) ∧
        s' = { s with pc := .done e, got := s.got ++ [fun k => (seen k).getD 0] }) ∨
      (∃ t, a = .post t ∧ s.posting = none ∧ ¬ erdpNames R s (next s.enqueue) ∧
        s' = { s with posting := some (stamp s.cycleState t, fun _ => false) }) ∨
      (∃ t w, a = .write 3 ∧ s.posting = some (t, w) ∧ (w 0 = true ∧ w 1 = true ∧ w 2 = true) ∧
        s' = { s with
          evtRing := putWord s.evtRing s.enqueue 3 (t 3), posting := none, posted := s.posted ++ [t],
          enqueue := next s.enqueue,
          cycleState := if s.enqueue + 1 = ringTrbs then s.cycleState ^^^ 1 else s.cycleState }) ∨
      ∃ k t w, a = .write k ∧ k ≠ 3 ∧ s.posting = some (t, w) ∧
        s' = { s with
          evtRing := putWord s.evtRing s.enqueue k (t k), posting := some (t, Function.update w k true) } := by
  cases a with
  | pop =>
    left
    cases hpc : s.pc <;> simp only [step, hpc, reduceCtorEq, Option.some.injEq] at h
    · exact ⟨rfl, rfl, rfl, h.symm⟩
    · exact ⟨rfl, rfl, rfl, h.symm⟩
  | erdp =>
    right
    cases hpc : s.pc <;> simp only [step, hpc, reduceCtorEq, Option.some.injEq] at h
    · exact .inl ⟨_, rfl, rfl, h.symm⟩
    · exact .inr (.inl ⟨_, rfl, rfl, h.symm⟩)
  | read k =>
    right; right; right; left
    cases hpc : s.pc <;> simp only [step, hpc, reduceCtorEq, Option.some.injEq] at h
    exact ⟨k, _, _, rfl, rfl, h.symm⟩
  | take =>
    right; right; right; right; left
    cases hpc : s.pc <;> simp only [step, hpc, reduceCtorEq, Option.ite_none_right_eq_some, Option.some.injEq] at h
    exact ⟨_, _, rfl, rfl, h.1, h.2.symm⟩
  | post t =>
    right; right; right; right; right; left
    simp only [step, Option.ite_none_right_eq_some, Option.some.injEq, Option.isNone_iff_eq_none] at h
    exact ⟨t, rfl, h.1.1, h.1.2, h.2.symm⟩
  | write k =>
    right; right; right; right; right; right
    cases hposting : s.posting with
    | none => simp only [step, hposting, reduceCtorEq] at h
    | some tw =>
      obtain ⟨t, w⟩ := tw
      by_cases hk : k = 3
      · subst hk
        simp only [step, hposting, if_true, Option.ite_none_right_eq_some, Option.some.injEq] at h
        exact .inl ⟨t, w, rfl, rfl, h.1, h.2.symm⟩
      · simp only [step, hposting, if_neg hk, Option.some.injEq] at h
        exact .inr ⟨k, t, w, rfl, hk, rfl, h.symm⟩

theorem inv_eventPop (hI : Inv R s) (hpc : s.pc.pending = 0) (hun : s.pc.unpublished = 0) :
    Inv R (eventPop s) := by
  by_cases hfound : s.evtRing s.evtIndex 3 &&& 1 = s.evtCycle
  · exact inv_pop_some hI hpc hun hfound
  · rw [eventPop, if_pos hfound]
    exact inv_pop_none hI hpc hun

theorem inv_step {a : Act} (hI : Inv R s) (h : step R s a = some s') : Inv R s' := by
  rcases step_cases h with ⟨-, hpc, hun, rfl⟩ | ⟨e, -, hpc, rfl⟩ | ⟨e, -, hpc, rfl⟩ | ⟨k, e, seen, -, hpc, rfl⟩ |
    ⟨e, seen, -, hpc, hall, rfl⟩ | ⟨t, -, hnone, hroom, rfl⟩ | ⟨t, w, -, hposting, ⟨h0, h1, h2⟩, rfl⟩ |
    ⟨k, t, w, -, hk, hposting, rfl⟩
  · exact inv_eventPop hI hpc hun
  · exact inv_erdpLow hI hpc
  · exact inv_erdpHigh hI hpc
  · exact inv_read hI hpc k
  · exact inv_take hI hpc hall
  · exact inv_post hI hnone hroom t
  · exact inv_finish hI hposting h0 h1 h2
  · exact inv_write hI hposting hk

/-- No step changes the slot in hand. -/
theorem held_unchanged {a : Act} (hI : Inv R s) (h : step R s a = some s') {e : ℕ} (he : s.pc.held = some e) :
    s'.evtRing e = s.evtRing e := by
  rcases step_cases h with ⟨-, hpc, hun, rfl⟩ | ⟨e, -, hpc, rfl⟩ | ⟨e, -, hpc, rfl⟩ | ⟨k, e, seen, -, hpc, rfl⟩ |
    ⟨e, seen, -, hpc, hall, rfl⟩ | ⟨t, -, hnone, hroom, rfl⟩ | ⟨t, w, -, hposting, -, rfl⟩ |
    ⟨k, t, w, -, hk, hposting, rfl⟩
  · unfold eventPop
    split
    · rfl
    · split <;> rfl
  · rfl
  · rfl
  · rfl
  · rfl
  · rfl
  · exact putWord_of_ne (hI.held_ne (by rw [hposting]; rfl) he)
  · exact putWord_of_ne (hI.held_ne (by rw [hposting]; rfl) he)

end Runs

/-- **The consumer loses and duplicates nothing**: in every state of every interleaving, what the caller has read
is a prefix of what was posted, a call that returns nothing finds everything consumed, and no step changes the slot
that was returned last before the next call. -/
theorem events_once_in_order (R : Place) (s : St) (hs : Run.Reach (step R) (fun _ _ => True) (.init R) s) :
    s.got <+: s.posted ∧ (∀ s', step R s .pop = some s' → s'.pc = .idle → s.got = s.posted) ∧
      ∀ a s' e, step R s a = some s' → s.pc.held = some e → s'.evtRing e = s.evtRing e := by
  have hI : Inv R s := hs.invariant (inv_init R) fun s a s' hI _ h => inv_step hI h
  refine ⟨hI.prior, ?_, fun a s' e h he => held_unchanged hI h he⟩
  intro s' h hidle
  rcases step_cases h with ⟨-, hpc, hun, rfl⟩ | ⟨e, ha, -⟩ | ⟨e, ha, -⟩ | ⟨k, e, seen, ha, -⟩ |
    ⟨e, seen, ha, -⟩ | ⟨t, ha, -⟩ | ⟨t, w, ha, -⟩ | ⟨k, t, w, ha, -⟩
  · have hempty : s.evtRing s.evtIndex 3 &&& 1 ≠ s.evtCycle := by
      intro hfound
      rw [eventPop, if_neg (not_not_intro hfound)] at hidle
      split at hidle <;> cases hidle
    have hlen : s.got.length = s.posted.length := by
      have hall := hI.pop_iff.mp hempty
      rwa [St.consumed, hpc] at hall
    exact hI.prior.eq_of_length hlen
  · cases ha
  · cases ha
  · cases ha
  · cases ha
  · cases ha
  · cases ha
  · cases ha

/-- An event is posted, taken and read while the next one is not yet there. -/
def eventRound (n : ℕ) : List Act :=
  [.post fun _ => BitVec.ofNat 32 n, .write 0, .write 1, .write 2, .write 3, .pop, .erdp, .erdp, .read 3,
    .read 2, .read 0,
    .read 1, .take]

/-- Once around the ring and past its end, and the last event is taken and read while the next one is being
written. -/
theorem events_once_in_order_first :
    ∃ s, Run.Reach (step ⟨0x80000000, by decide, by decide⟩) (fun _ _ => True)
      (.init ⟨0x80000000, by decide, by decide⟩) s ∧
      s.got.length = 66 ∧ s.got <+: s.posted := by
  have hrun :
    ((((List.range 65).flatMap eventRound ++ [.post fun _ => 0x8400, .write 0, .write 1, .write 2,
    .write 3, .pop, .erdp,
      .post fun _ => 7, .erdp, .read 3, .write 0, .read 2, .read 0, .read 1, .take] : List Act).foldlM
        (step ⟨0x80000000, by decide, by decide⟩) (.init ⟨0x80000000, by decide, by decide⟩)).map (·.got.length)) =
          some 66 := by
    decide +kernel
  obtain ⟨s, hs, hlen⟩ := Option.map_eq_some_iff.mp hrun
  have hreach := Run.Reach.of_foldlM (C := fun _ _ => True) .start _ (fun _ _ _ => trivial) hs
  exact ⟨s, hreach, hlen, (events_once_in_order _ s hreach).1⟩

end Soceteer.Usb
