import Soceteer.Sdc.Driver

/-!
# Soceteer.Sdc.Transfer — what a call moves, and how it leaves the card

* `moves_add`, `moveBlocks_read`, `moveBlocks_write`: blocks moved one at a time, and all at once.
* `given`: the commands that are really given; `runPlan_issued`, `runPlan_ok`.
* `plan_moves`: the pieces of a plan move the blocks of the whole transfer.
* `chunked_transfer`: a call that returns `RES_OK` has moved its blocks, each once and in order.
* `closed_iff`: when a call leaves no command of several blocks open.
-/

namespace Soceteer.Sdc

open Lib

/-! ## Blocks -/

theorem moves_add (dir : Dir) (sector : ℕ) (addr : BitVec 64) (a b : ℕ) : moves dir sector addr (a + b) =
    moves dir sector addr a ++ moves dir (sector + a) (addr + BitVec.ofNat 64 (512 * a)) b := by
  unfold moves
  rw [List.range_add, List.map_append, List.map_map]
  refine congrArg _ (List.map_congr_left fun i _ => ?_)
  rw [Function.comp_apply, Nat.mul_add, BitVec.ofNat_add, BitVec.add_assoc, Nat.add_assoc]

theorem moveBlocks_append (vs us : List Move) (st : Storage) :
    moveBlocks (vs ++ us) st = moveBlocks us (moveBlocks vs st) :=
  List.foldl_append

theorem moves_succ (dir : Dir) (sector : ℕ) (addr : BitVec 64) (n : ℕ) : moves dir sector addr (n + 1) =
    moves dir sector addr n ++ [⟨dir, sector + n, addr + BitVec.ofNat 64 (512 * n)⟩] := by
  rw [moves_add]
  simp [moves]

/-- Sectors read one at a time lie one behind the other. -/
theorem moveBlocks_read (sector : ℕ) (addr : BitVec 64) (st : Storage) : ∀ n : ℕ, 512 * n ≤ 2 ^ 64 →
    moveBlocks (moves .read sector addr n) st =
      { st with mem := splice st.mem addr ((List.range n).flatMap fun i => (st.card (sector + i)).1) }
  | 0, _ => rfl
  | n + 1, h => by
    have hlen : ((List.range n).flatMap fun i => (st.card (sector + i)).1).length = 512 * n := by
      simp [List.length_flatMap, (st.card _).2, Nat.mul_comm]
    have hblock := (st.card (sector + n)).2
    rw [moves_succ, moveBlocks_append, moveBlocks_read sector addr st n (by omega), List.range_succ,
      List.flatMap_append,
      ← splice_append (by rw [hlen, List.flatMap_singleton, hblock]; omega), hlen, List.flatMap_singleton]
    rfl

/-- Sectors written one at a time. -/
theorem moveBlocks_write (sector : ℕ) (addr : BitVec 64) (st : Storage) (n : ℕ) :
    moveBlocks (moves .write sector addr n) st =
      { st with card := fun k => if sector ≤ k ∧ k < sector + n then
          ⟨bytesAt st.mem (addr + BitVec.ofNat 64 (512 * (k - sector))) 512, length_bytesAt ..⟩
            else st.card k } := by
  induction n with
  | zero =>
    have hcard : st.card = fun k => if sector ≤ k ∧ k < sector + 0 then
        ⟨bytesAt st.mem (addr + BitVec.ofNat 64 (512 * (k - sector))) 512, length_bytesAt ..⟩ else st.card k := by
      funext k
      rw [if_neg (by omega)]
    exact congrArg (fun card => { st with card := card }) hcard
  | succ n ih =>
    rw [moves_succ, moveBlocks_append, ih]
    simp only [moveBlocks, List.foldl_cons, List.foldl_nil, moveBlock]
    congr 1
    funext k
    by_cases hk : k = sector + n
    · subst hk
      rw [Function.update_self, if_pos (by omega), Nat.add_sub_cancel_left]
    · rw [Function.update_of_ne hk]
      have hiff : (sector ≤ k ∧ k < sector + n) ↔ (sector ≤ k ∧ k < sector + (n + 1)) := by omega
      simp only [hiff]

/-! ## The commands that are given -/

variable {O : Oracle}

/-- The commands of a plan, up to the first that fails. -/
def given (O : Oracle) : List Send → Regs → ℕ → List Issue
  | [], _, _ => []
  | s :: ss, r, k => ⟨s.regs r, (O k).accepted⟩ :: if (O k).Ok s.blocks then given O ss (s.regs r) (k + 1) else []

/-- No buffer is refused. -/
def Aligned (ps : List Send) : Prop := ∀ s ∈ ps, ¬ (s.blocks ≠ 0 ∧ s.buf &&& 3 ≠ 0)

theorem runPlan_issued : ∀ (ps : List Send) (w : World), Aligned ps →
    (runPlan O ps w).2.issued = w.issued ++ given O ps w.regs w.issued.length
  | [], w, _ => (List.append_nil _).symm
  | s :: ss, w, ha => by
    obtain ⟨hs, hss⟩ := List.forall_mem_cons.mp ha
    obtain ⟨w', hsend, hregs, hissued, -, -⟩ := sendDataCmd_given (O := O) (w := w) hs
    rw [runPlan, hsend, given]
    by_cases hok : (O w.issued.length).Ok s.blocks
    · have ih := runPlan_issued ss w' hss
      rw [decide_eq_true hok, if_pos hok]
      dsimp only
      rw [ih, hissued, hregs, List.length_append, List.append_assoc]
      rfl
    · rw [decide_eq_false hok, if_neg hok]
      exact hissued

/-- The moves of a command. -/
def Send.moves (s : Send) (isBlock : Bool) (r : Regs) : List Move :=
  if s.blocks = 0 then [] else (s.regs r).moves isBlock

/-- The registers of a command with data do not depend on what they were before. -/
theorem Send.moves_eq (s : Send) (isBlock : Bool) (r r' : Regs) : s.moves isBlock r = s.moves isBlock r' := by
  unfold Send.moves
  split_ifs with hb
  · rfl
  · simp [Send.regs, hb, Regs.moves, Regs.dir?, Regs.index]

/-- A plan that is carried out has given all its commands and moved their blocks. -/
theorem runPlan_ok : ∀ (ps : List Send) (w : World), (runPlan O ps w).1 = true →
    Aligned ps ∧ (∀ i s, ps[i]? = some s → (O (w.issued.length + i)).Ok s.blocks) ∧
      (runPlan O ps w).2.storage = moveBlocks (ps.flatMap fun s => s.moves w.isBlock w.regs) w.storage ∧
      (runPlan O ps w).2.moved = w.moved ++ ps.flatMap fun s => s.moves w.isBlock w.regs
  | [], w, _ => ⟨List.forall_mem_nil _, by simp, rfl, (List.append_nil _).symm⟩
  | s :: ss, w, h => by
    rw [runPlan] at h ⊢
    by_cases hs : s.blocks ≠ 0 ∧ s.buf &&& 3 ≠ 0
    · rw [sendDataCmd_refused hs] at h
      exact absurd h (by simp)
    obtain ⟨w', hsend, hregs, hissued, hplain, hdata⟩ := sendDataCmd_given (O := O) (w := w) hs
    have hblock : w'.isBlock = w.isBlock := by
      have hkeep := sendDataCmd_isBlock (O := O) (s := s) (w := w)
      rwa [hsend] at hkeep
    by_cases hok : (O w.issued.length).Ok s.blocks
    · rw [hsend, decide_eq_true hok] at h ⊢
      obtain ⟨hal, hall, hst, hmv⟩ := runPlan_ok ss w' h
      have hmoves : (fun t : Send => t.moves w'.isBlock w'.regs) = fun t => t.moves w.isBlock w.regs := by
        funext t
        rw [hblock, t.moves_eq]
      have hone : w'.storage = moveBlocks (s.moves w.isBlock w.regs) w.storage ∧
          w'.moved = w.moved ++ s.moves w.isBlock w.regs := by
        unfold Send.moves
        split_ifs with hb
        · exact ⟨(hplain hok hb).1, by rw [(hplain hok hb).2, List.append_nil]⟩
        · exact hdata hok hb
      refine ⟨List.forall_mem_cons.mpr ⟨hs, hal⟩, ?_, ?_, ?_⟩
      · intro i t hi
        cases i with
        | zero =>
          obtain rfl : s = t := by simpa using hi
          exact hok
        | succ i =>
          have hnext := hall i t (by simpa using hi)
          rwa [hissued, List.length_append, Nat.add_assoc, Nat.add_comm [_].length] at hnext
      · rw [List.flatMap_cons, moveBlocks_append, ← hone.1, ← hmoves]
        exact hst
      · rw [List.flatMap_cons, ← List.append_assoc, ← hone.2, ← hmoves]
        exact hmv
    · rw [hsend, decide_eq_false hok] at h
      exact absurd h (by simp)

theorem runPlan_of_ok : ∀ (ps : List Send) (w : World), Aligned ps →
    (∀ i s, ps[i]? = some s → (O (w.issued.length + i)).Ok s.blocks) → (runPlan O ps w).1 = true
  | [], w, _, _ => rfl
  | s :: ss, w, ha, hall => by
    obtain ⟨hs, hss⟩ := List.forall_mem_cons.mp ha
    obtain ⟨w', hsend, -, hissued, -, -⟩ := sendDataCmd_given (O := O) (w := w) hs
    have hok : (O w.issued.length).Ok s.blocks := hall 0 s rfl
    rw [runPlan, hsend, decide_eq_true hok]
    refine runPlan_of_ok ss w' hss fun i t hi => ?_
    have hnext := hall (i + 1) t (by simpa using hi)
    rwa [hissued, List.length_append, Nat.add_assoc, Nat.add_comm [_].length]

/-! ## The pieces of a transfer -/

/-- The commands for a direction. -/
def Dir.cmds : Dir → Cmds
  | .read => readCmds
  | .write => writeCmds

theorem bcnt_le (count : ℕ) : bcnt count ≤ count := by
  unfold bcnt
  split_ifs <;> omega

theorem bcnt_le_max (count : ℕ) : bcnt count ≤ 0x1000 := by
  unfold bcnt
  split_ifs <;> omega

theorem bcnt_pos {count : ℕ} (h : count ≠ 0) : 0 < bcnt count := by
  unfold bcnt
  split_ifs <;> omega

/-- The command register holds the number of the command. -/
theorem index_regs {s : Send} (r : Regs) (h : s.cmd ∈ [12, 17, 18, 24, 25]) : (s.regs r).index = s.cmd := by
  have hword : (s.regs r).index = (commandWord s.cmd s.blocks >>> 8 &&& 0x3f).toNat := rfl
  rw [hword, commandWord]
  by_cases hb : s.blocks = 0
  · simp only [hb, if_true]
    generalize s.cmd = n at h ⊢
    revert n
    decide
  · simp only [if_neg hb]
    generalize s.cmd = n at h ⊢
    revert n
    decide

theorem dir?_regs (dir : Dir) {s : Send} (r : Regs) (h : s.cmd = dir.cmds.single ∨ s.cmd = dir.cmds.multi)
    (hb : s.blocks ≠ 0) :
    (s.regs r).dir? = some dir := by
  have hindex : (s.regs r).index = s.cmd := by
    apply index_regs
    cases dir <;> rcases h with h | h <;> rw [h] <;> decide
  have hcmd : (s.regs r).command = commandWord s.cmd s.blocks := rfl
  have hsize : (s.regs r).blockSize = 511 := by rw [Send.regs]; exact if_neg hb
  rw [Regs.dir?, hindex, hcmd, hsize, commandWord, if_neg hb]
  cases dir <;> rcases h with h | h <;> rw [h] <;> decide

/-- The first block of a piece. -/
def firstBlock (isBlock : Bool) (sector : ℕ) : ℕ := if isBlock then sector else sector / 512

theorem send_moves (dir : Dir) (isBlock : Bool) (sector : BitVec 64) (buff : BitVec 64) {count : ℕ}
    (hcount : count ≠ 0)
    (hsector : sector.toNat < 2 ^ 32) (r : Regs) : (dir.cmds.send sector count buff).moves isBlock r =
      moves dir (firstBlock isBlock sector.toNat) buff (bcnt count) := by
  have hpos := bcnt_pos hcount
  have hmax := bcnt_le_max count
  have hb : (dir.cmds.send sector count buff).blocks ≠ 0 := Nat.ne_of_gt hpos
  have hcmd : (dir.cmds.send sector count buff).cmd = dir.cmds.single ∨
      (dir.cmds.send sector count buff).cmd = dir.cmds.multi := ite_eq_or_eq _ _ _
  have harg : ((dir.cmds.send sector count buff).regs r).argument.toNat = sector.toNat := by
    rw [Send.regs, Cmds.send, BitVec.toNat_setWidth, Nat.mod_eq_of_lt hsector]
  have hdma : ((dir.cmds.send sector count buff).regs r).dma = buff := by
    rw [Send.regs]
    exact if_neg hb
  have hblocks : ((dir.cmds.send sector count buff).regs r).blockCount.toNat + 1 = bcnt count := by
    have heq : ((dir.cmds.send sector count buff).regs r).blockCount = BitVec.ofNat 32 (bcnt count - 1) := by
      rw [Send.regs]
      exact if_neg hb
    rw [heq, BitVec.toNat_ofNat, Nat.mod_eq_of_lt (by omega)]
    omega
  rw [Send.moves, if_neg hb, Regs.moves, dir?_regs dir r hcmd hb]
  dsimp only
  rw [harg, hdma, hblocks, firstBlock]

/-- The card addresses of `count` sectors fit in 32 bits. -/
def Fits (isBlock : Bool) (sector count : ℕ) : Prop :=
  if isBlock then sector + count ≤ 2 ^ 32 else sector % 512 = 0 ∧ sector + 512 * count ≤ 2 ^ 32

theorem Fits.next {isBlock : Bool} {sector : BitVec 64} {count : ℕ} (h : Fits isBlock sector.toNat count) :
    Fits isBlock (sector + advance isBlock count).toNat (count - bcnt count) ∧
      firstBlock isBlock (sector + advance isBlock count).toNat =
        firstBlock isBlock sector.toNat + bcnt count := by
  have hle := bcnt_le count
  unfold Fits firstBlock advance at *
  cases isBlock with
  | true =>
    simp only [if_true] at h ⊢
    have hsum : sector.toNat + bcnt count < 2 ^ 64 := by omega
    rw [BitVec.toNat_add, BitVec.toNat_ofNat, Nat.add_mod_mod, Nat.mod_eq_of_lt hsum]
    exact ⟨by omega, rfl⟩
  | false =>
    simp only [Bool.false_eq_true, if_false] at h ⊢
    have hsum : sector.toNat + bcnt count * 512 < 2 ^ 64 := by omega
    rw [BitVec.toNat_add, BitVec.toNat_ofNat, Nat.add_mod_mod, Nat.mod_eq_of_lt hsum]
    omega

theorem Fits.lt {isBlock : Bool} {sector count : ℕ} (h : Fits isBlock sector count) (hcount : count ≠ 0) :
    sector < 2 ^ 32 := by
  unfold Fits at h
  split_ifs at h <;> omega

/-- The pieces move the blocks of the whole. -/
theorem plan_moves (dir : Dir) (isBlock : Bool) (r : Regs) :
    ∀ (fuel : ℕ) (sector : BitVec 64) (count : ℕ) (buff : BitVec 64),
    count ≤ fuel → Fits isBlock sector.toNat count →
      (plan dir.cmds isBlock fuel sector count buff).flatMap (fun s => s.moves isBlock r) =
        moves dir (firstBlock isBlock sector.toNat) buff count
  | 0, sector, count, buff, hfuel, _ => by
    obtain rfl : count = 0 := by omega
    rfl
  | fuel + 1, sector, count, buff, hfuel, hfits => by
    rw [plan]
    by_cases hc : count = 0
    · rw [if_pos hc, hc]
      rfl
    have hpos := bcnt_pos hc
    have hle := bcnt_le count
    obtain ⟨hnext, hfirst⟩ := hfits.next
    have ih := plan_moves dir isBlock r fuel (sector + advance isBlock count) (count - bcnt count)
      (buff + BitVec.ofNat 64 (bcnt count * 512)) (by omega) hnext
    have hstop : (if 1 < bcnt count then [stop] else []).flatMap (fun s => s.moves isBlock r) = [] := by
      split_ifs <;> rfl
    rw [if_neg hc, List.cons_append, List.flatMap_cons, List.flatMap_append, hstop, List.nil_append, ih,
      send_moves dir isBlock sector buff hc (hfits.lt hc), hfirst, Nat.mul_comm, ← moves_add,
        Nat.add_sub_cancel' hle]

/-! ## Commands of several blocks and `CMD12` -/

def Send.IsMulti (s : Send) : Prop := s.cmd = 18 ∨ s.cmd = 25

def Issue.IsMulti (i : Issue) : Prop := i.regs.index = 18 ∨ i.regs.index = 25

/-- The next command is `CMD12`. -/
def NextStops (ps : List Send) : Prop := ∃ t, ps.head? = some t ∧ t.cmd = 12

/-- `CMD12` comes behind the commands of several blocks, and only there. -/
def Paired : List Send → Prop
  | [] => True
  | s :: ss => s.cmd ∈ [12, 17, 18, 24, 25] ∧ (s.IsMulti ↔ NextStops ss) ∧ Paired ss

theorem not_nextStops_plan (dir : Dir) (isBlock : Bool) (fuel : ℕ) (sector : BitVec 64) (count : ℕ)
    (buff : BitVec 64) :
    ¬ NextStops (plan dir.cmds isBlock fuel sector count buff) := by
  rintro ⟨t, ht, h12⟩
  cases fuel with
  | zero => simp [plan] at ht
  | succ fuel =>
    rw [plan] at ht
    by_cases hc : count = 0
    · simp [hc] at ht
    · rw [if_neg hc, List.cons_append, List.head?_cons] at ht
      obtain rfl := Option.some.inj ht
      have hcmd : (dir.cmds.send sector count buff).cmd = dir.cmds.single ∨
          (dir.cmds.send sector count buff).cmd = dir.cmds.multi := ite_eq_or_eq _ _ _
      rw [h12] at hcmd
      cases dir <;> simp [Dir.cmds, readCmds, writeCmds] at hcmd

theorem plan_paired (dir : Dir) (isBlock : Bool) :
    ∀ (fuel : ℕ) (sector : BitVec 64) (count : ℕ) (buff : BitVec 64),
    Paired (plan dir.cmds isBlock fuel sector count buff)
  | 0, _, _, _ => trivial
  | fuel + 1, sector, count, buff => by
    rw [plan]
    split_ifs with hc hb
    · trivial
    · have hnext := not_nextStops_plan dir isBlock fuel (sector + advance isBlock count) (count - bcnt count)
        (buff + BitVec.ofNat 64 (bcnt count * 512))
      have hmulti : (dir.cmds.send sector count buff).cmd = dir.cmds.multi := if_neg (by omega)
      refine ⟨?_, iff_of_true ?_ ⟨stop, rfl, rfl⟩, by decide, iff_of_false (by simp [Send.IsMulti, stop]) hnext,
        plan_paired dir isBlock fuel _ _ _⟩
      · rw [hmulti]
        cases dir <;> decide
      · rw [Send.IsMulti, hmulti]
        cases dir <;> decide
    · have hpos := bcnt_pos hc
      have hsingle : (dir.cmds.send sector count buff).cmd = dir.cmds.single := if_pos (by omega)
      have hnext := not_nextStops_plan dir isBlock fuel (sector + advance isBlock count) (count - bcnt count)
        (buff + BitVec.ofNat 64 (bcnt count * 512))
      refine ⟨?_, iff_of_false ?_ hnext, plan_paired dir isBlock fuel _ _ _⟩
      · rw [hsingle]
        cases dir <;> decide
      · rw [Send.IsMulti, hsingle]
        cases dir <;> decide

/-- The next pieces are aligned as the first one is. -/
theorem and_three_add (buff : BitVec 64) (n : ℕ) : (buff + BitVec.ofNat 64 (n * 512)) &&& 3 = buff &&& 3 := by
  apply BitVec.eq_of_toNat_eq
  have hmask : ∀ b : BitVec 64, (b &&& 3).toNat = b.toNat % 4 := fun b => by
    rw [BitVec.toNat_and]
    exact Nat.and_two_pow_sub_one_eq_mod b.toNat 2
  rw [hmask, hmask, BitVec.toNat_add, BitVec.toNat_ofNat]
  omega

theorem plan_aligned (c : Cmds) (isBlock : Bool) :
    ∀ (fuel : ℕ) (sector : BitVec 64) (count : ℕ) (buff : BitVec 64),
    buff &&& 3 = 0 → Aligned (plan c isBlock fuel sector count buff)
  | 0, _, _, _, _ => List.forall_mem_nil _
  | fuel + 1, sector, count, buff, ha => by
    rw [plan]
    split_ifs with hc hb
    · exact List.forall_mem_nil _
    · refine List.forall_mem_cons.mpr ⟨fun h => h.2 ha, List.forall_mem_cons.mpr ⟨fun h => h.1 rfl, ?_⟩⟩
      exact plan_aligned c isBlock fuel _ _ _ (by rw [and_three_add, ha])
    · refine List.forall_mem_cons.mpr ⟨fun h => h.2 ha, ?_⟩
      exact plan_aligned c isBlock fuel _ _ _ (by rw [and_three_add, ha])

/-- Every accepted command of several blocks has a `CMD12` behind it. -/
def Closed : List Issue → Prop
  | [] => True
  | c :: g => (c.accepted = true → c.IsMulti → ∃ d ∈ g, d.regs.index = 12) ∧ Closed g

/-- Every command of several blocks has a `CMD12` next to it. -/
def ClosedNext : List Issue → Prop
  | [] => True
  | c :: g => (c.IsMulti → ∃ d, g.head? = some d ∧ d.regs.index = 12) ∧ ClosedNext g

/-- Whether the card is in the middle of a transfer of several blocks. -/
def streaming : Bool → List Issue → Bool
  | b, [] => b
  | b, c :: g =>
    streaming (if c.accepted then if c.regs.index = 18 ∨ c.regs.index = 25 then true
      else if c.regs.index = 12 then false else b else b) g

/-- No command of several blocks that is reached and that the card accepts fails. -/
def Clean (O : Oracle) : List Send → ℕ → Prop
  | [], _ => True
  | s :: ss, k =>
    (s.IsMulti → (O k).accepted = true → (O k).Ok s.blocks) ∧ ((O k).Ok s.blocks → Clean O ss (k + 1))

/-- The card accepts every `CMD12` that is reached. -/
def Stopped (O : Oracle) : List Send → ℕ → Prop
  | [], _ => True
  | s :: ss, k => (s.cmd = 12 → (O k).accepted = true) ∧ ((O k).Ok s.blocks → Stopped O ss (k + 1))

theorem head?_given {ps : List Send} {t : Send} (r : Regs) (k : ℕ) (ht : ps.head? = some t) :
    (given O ps r k).head? = some ⟨t.regs r, (O k).accepted⟩ := by
  cases ps with
  | nil => simp at ht
  | cons s ss =>
    obtain rfl : s = t := Option.some.inj ht
    rfl

theorem given_closed_iff :
    ∀ (ps : List Send) (r : Regs) (k : ℕ), Paired ps → (Closed (given O ps r k) ↔ Clean O ps k)
  | [], _, _, _ => Iff.rfl
  | s :: ss, r, k, ⟨hcmd, hnext, htail⟩ => by
    have hindex := index_regs r hcmd
    have hmulti : (Issue.mk (s.regs r) (O k).accepted).IsMulti ↔ s.IsMulti := by
      rw [Issue.IsMulti, Send.IsMulti, hindex]
    rw [given, Closed, Clean, hmulti]
    by_cases hok : (O k).Ok s.blocks
    · rw [if_pos hok, given_closed_iff ss (s.regs r) (k + 1) htail]
      simp only [hok, true_implies, implies_true, true_and, and_iff_right_iff_imp]
      intro _ _ hm
      obtain ⟨t, ht, h12⟩ := hnext.mp hm
      refine ⟨⟨t.regs (s.regs r), (O (k + 1)).accepted⟩, List.mem_of_mem_head? (head?_given _ _ ht), ?_⟩
      rw [index_regs _ (by rw [h12]; decide), h12]
    · rw [if_neg hok]
      simp only [hok, Closed, false_implies, and_true, List.not_mem_nil, false_and, exists_false]
      exact ⟨fun h hm ha => h ha hm, fun h ha hm => h hm ha⟩

theorem given_closedNext : ∀ (ps : List Send) (r : Regs) (k : ℕ), Paired ps →
    (∀ i s, ps[i]? = some s → (O (k + i)).Ok s.blocks) → ClosedNext (given O ps r k)
  | [], _, _, _, _ => trivial
  | s :: ss, r, k, ⟨hcmd, hnext, htail⟩, hall => by
    have hok : (O k).Ok s.blocks := hall 0 s rfl
    rw [given, if_pos hok]
    refine ⟨fun hm => ?_, given_closedNext ss _ (k + 1) htail fun i t hi => ?_⟩
    · rw [Issue.IsMulti, index_regs r hcmd] at hm
      obtain ⟨t, ht, h12⟩ := hnext.mp hm
      refine ⟨_, head?_given _ _ ht, ?_⟩
      rw [index_regs _ (by rw [h12]; decide), h12]
    · have hi' := hall (i + 1) t (by simpa using hi)
      rwa [Nat.add_assoc, Nat.add_comm 1]

/-- The card is left ready for the next call. -/
theorem given_streaming_iff :
    ∀ (ps : List Send) (r : Regs) (k : ℕ) (b : Bool), Paired ps → (b = true ↔ NextStops ps) →
    (streaming b (given O ps r k) = false ↔ Clean O ps k ∧ Stopped O ps k)
  | [], _, _, b, _, hb => by
    have hfalse : b = false := by
      rw [← Bool.not_eq_true, hb]
      rintro ⟨t, ht, -⟩
      simp at ht
    simp [given, streaming, hfalse, Clean, Stopped]
  | s :: ss, r, k, b, ⟨hcmd, hnext, htail⟩, hb => by
    have hindex := index_regs r hcmd
    have hb12 : b = true ↔ s.cmd = 12 := by
      rw [hb]
      exact ⟨fun ⟨t, ht, h12⟩ => Option.some.inj ht ▸ h12, fun h12 => ⟨s, rfl, h12⟩⟩
    have hacc : (O k).Ok s.blocks → (O k).accepted = true := fun hok => (O k).accepted_of_cc hok.1
    rw [given, streaming, Clean, Stopped]
    dsimp only
    rw [hindex]
    -- where the card is behind this command
    have hafter : (if s.cmd = 18 ∨ s.cmd = 25 then true else if s.cmd = 12 then false else b) = true ↔
        s.IsMulti := by
      rw [Send.IsMulti]
      split_ifs with hm h12
      · exact iff_of_true rfl hm
      · exact iff_of_false (by simp) hm
      · rw [hb12]
        exact iff_of_false h12 hm
    by_cases hok : (O k).Ok s.blocks
    · rw [if_pos hok, if_pos (hacc hok), given_streaming_iff ss (s.regs r) (k + 1) _ htail (hafter.trans hnext)]
      simp [hok, hacc hok]
    · rw [if_neg hok, streaming]
      cases ha : (O k).accepted with
      | true =>
        rw [if_pos rfl, ← Bool.not_eq_true, hafter]
        simp [hok]
      | false =>
        rw [if_neg (by simp), ← Bool.not_eq_true, hb12]
        simp [hok]

/-! ## Whole calls -/

/-- Where a call starts: the argument of the first command. -/
def start (isBlock : Bool) (sector : BitVec 64) : BitVec 64 := if isBlock then sector else sector * 512

/-- The address of a sector on the card. -/
def cardAddress (isBlock : Bool) (sector : ℕ) : ℕ := if isBlock then sector else sector * 512

theorem start_fits {isBlock : Bool} {sector : BitVec 64} {count : ℕ} (hcount : count ≠ 0)
    (h : ∀ i < count, cardAddress isBlock (sector.toNat + i) < 2 ^ 32) :
    Fits isBlock (start isBlock sector).toNat count ∧ firstBlock isBlock (start isBlock sector).toNat =
      sector.toNat := by
  have hlast := h (count - 1) (by omega)
  clear h
  unfold Fits firstBlock start
  unfold cardAddress at hlast
  cases isBlock with
  | true =>
    simp only [if_true] at hlast ⊢
    exact ⟨by omega, trivial⟩
  | false =>
    simp only [Bool.false_eq_true, if_false] at hlast ⊢
    rw [show 2 ^ 32 = 2 ^ 23 * 512 by norm_num] at hlast
    replace hlast := Nat.lt_of_mul_lt_mul_right hlast
    have hlt : sector.toNat * 512 < 2 ^ 64 := by omega
    have hmul : (sector * 512).toNat = sector.toNat * 512 := by
      rw [BitVec.toNat_mul]
      exact Nat.mod_eq_of_lt hlt
    rw [hmul]
    omega

variable {w w' : World} {buff sector : BitVec 64} {count : BitVec 32}

/-- A call that succeeds. -/
theorem transfer_ok (dir : Dir) (hcount : count ≠ 0) (hready : w.status.getLsbD 0 = false)
    (haddr : ∀ i < count.toNat, cardAddress w.isBlock (sector.toNat + i) < 2 ^ 32)
    (h : transfer O dir.cmds buff sector count w = (.ok, w')) :
    w'.storage = moveBlocks (moves dir sector.toNat buff count.toNat) w.storage ∧
      w'.moved = w.moved ++ moves dir sector.toNat buff count.toNat ∧
      ∃ g, w'.issued = w.issued ++ g ∧ ClosedNext g := by
  have hpos : count.toNat ≠ 0 := fun hz => hcount (BitVec.eq_of_toNat_eq hz)
  obtain ⟨hfits, hfirst⟩ := start_fits hpos haddr
  rw [transfer_eq_runPlan hcount hready, ← start] at h
  obtain ⟨hres, rfl⟩ := Prod.mk.inj h
  have hrun :
      (runPlan O (plan dir.cmds w.isBlock count.toNat (start w.isBlock sector) count.toNat buff) w).1 = true := by
    by_contra hno
    rw [if_neg hno] at hres
    simp at hres
  obtain ⟨hal, hall, hst, hmv⟩ := runPlan_ok _ w hrun
  have hmoves :=
    plan_moves dir w.isBlock w.regs count.toNat (start w.isBlock sector) count.toNat buff (Nat.le_refl _) hfits
  rw [hfirst] at hmoves
  refine ⟨by rw [hst, hmoves], by rw [hmv, hmoves], _, runPlan_issued _ w hal, ?_⟩
  exact given_closedNext _ _ _ (plan_paired dir _ _ _ _ _) hall

/-- A call whose commands all succeed. -/
theorem transfer_succeeds (dir : Dir) (hcount : count ≠ 0) (hready : w.status.getLsbD 0 = false)
    (halign : buff &&& 3 = 0)
    (hall : ∀ k, (O k).cmdStatus = 1 ∧ (O k).datStatus = 1) :
    ∃ w', transfer O dir.cmds buff sector count w = (.ok, w') := by
  rw [transfer_eq_runPlan hcount hready, runPlan_of_ok _ w (plan_aligned _ _ _ _ _ _ halign)]
  · exact ⟨_, rfl⟩
  · intro i s _
    exact ⟨(hall _).1, fun _ => (hall _).2⟩

/-- Chunked transfers equal transfers block by block: a read that returns `RES_OK` has put the sectors one behind
the other into the buffer, a write has put the bytes of the buffer into the sectors, and each sector was moved once
and in order; `RES_OK` is what a card without errors gives. -/
theorem chunked_transfer (O : Oracle) (w : World) (buff sector : BitVec 64) (count : BitVec 32)
    (hcount : count ≠ 0)
    (hready : w.status.getLsbD 0 = false) (halign : buff &&& 3 = 0)
    (haddr : ∀ i < count.toNat, cardAddress w.isBlock (sector.toNat + i) < 2 ^ 32) :
    (∀ w', sdcRead O buff sector count w = (.ok, w') →
      w'.storage.mem = splice w.storage.mem buff
        ((List.range count.toNat).flatMap fun i => (w.storage.card (sector.toNat + i)).1) ∧
      w'.storage.card = w.storage.card ∧ w'.moved = w.moved ++ moves .read sector.toNat buff count.toNat ∧
      ∃ g, w'.issued = w.issued ++ g ∧ ClosedNext g) ∧
    (∀ w', sdcWrite O buff sector count w = (.ok, w') →
      (∀ i < count.toNat, (w'.storage.card (sector.toNat + i)).1 =
        bytesAt w.storage.mem (buff + BitVec.ofNat 64 (512 * i)) 512) ∧
      (∀ k, ¬ (sector.toNat ≤ k ∧ k < sector.toNat + count.toNat) → w'.storage.card k = w.storage.card k) ∧
      w'.storage.mem = w.storage.mem ∧ w'.moved = w.moved ++ moves .write sector.toNat buff count.toNat ∧
      ∃ g, w'.issued = w.issued ++ g ∧ ClosedNext g) ∧
    ((∀ k, (O k).cmdStatus = 1 ∧ (O k).datStatus = 1) →
      (∃ w', sdcRead O buff sector count w = (.ok, w')) ∧ ∃ w', sdcWrite O buff sector count w = (.ok, w')) := by
  refine ⟨fun w' h => ?_, fun w' h => ?_, fun hall => ?_⟩
  · obtain ⟨hst, hmv, hissued⟩ := transfer_ok .read hcount hready haddr h
    rw [moveBlocks_read _ _ _ _ (by omega)] at hst
    rw [hst]
    exact ⟨rfl, rfl, hmv, hissued⟩
  · obtain ⟨hst, hmv, hissued⟩ := transfer_ok .write hcount hready haddr h
    rw [moveBlocks_write] at hst
    rw [hst]
    refine ⟨fun i hi => ?_, fun k hk => if_neg hk, rfl, hmv, hissued⟩
    dsimp only
    rw [if_pos (by omega), Nat.add_sub_cancel_left]
  · exact ⟨transfer_succeeds .read hcount hready halign hall, transfer_succeeds .write hcount hready halign hall⟩

/-- A card without errors. -/
def faultless : Oracle := fun _ => ⟨1, 1, true, fun _ => 0, id, by decide, by decide, fun _ => rfl⟩

/-- A drive that is ready, with a card of zeros. -/
def World.fresh (cardType : BitVec 8) : World where
  regs := ⟨0, 0, 0, 0, 0, 0, 0⟩
  status := 0
  cardType := cardType
  response := fun _ => 0
  errno := 0
  storage := ⟨fun _ => 0, fun _ => ⟨List.replicate 512 0, List.length_replicate⟩⟩
  issued := []
  moved := []

/-- The 4098 sectors from 5 on of a block addressed card, to `0x80000000`: two transfers, of 4096 and of 2
blocks. -/
theorem chunked_transfer_two : bcnt 4098 = 4096 ∧ bcnt (4098 - bcnt 4098) = 2 ∧
    ∃ w', sdcRead faultless 0x80000000 5 4098 (.fresh 12) = (.ok, w') ∧
      w'.moved = moves .read 5 0x80000000 4098 := by
  have hblock : (World.fresh 12).isBlock = true := by decide
  have hcount : (4098 : BitVec 32).toNat = 4098 := rfl
  have hsector : (5 : BitVec 64).toNat = 5 := rfl
  have haddr : ∀ i < (4098 : BitVec 32).toNat,
      cardAddress (World.fresh 12).isBlock ((5 : BitVec 64).toNat + i) < 2 ^ 32 := by
    intro i hi
    rw [hblock, cardAddress, if_pos rfl]
    omega
  obtain ⟨hread, -, hok⟩ := chunked_transfer faultless (.fresh 12) 0x80000000 5 4098 (by decide) rfl
    (by decide) haddr
  obtain ⟨w', hw'⟩ := (hok fun _ => ⟨rfl, rfl⟩).1
  have hmoved := (hread w' hw').2.2.1
  rw [hcount, hsector, show (World.fresh 12).moved = [] from rfl, List.nil_append] at hmoved
  exact ⟨rfl, rfl, w', hw', hmoved⟩

/-- `CMD18` and `CMD25` time out while data are moved; the card accepts every command. -/
def dataTimeout : Oracle := fun _ => ⟨1, 4, true, fun _ => 0, id, by decide, by decide, fun _ => rfl⟩

/-- A call leaves no accepted `CMD18` or `CMD25` without a `CMD12` exactly if none of those it reaches fails after
the card has accepted it; the card is ready for the next call if it also accepts every `CMD12`. -/
theorem closed_iff (O : Oracle) (dir : Dir) (w : World) (buff sector : BitVec 64) (count : BitVec 32) :
    ∃ g, (transfer O dir.cmds buff sector count w).2.issued = w.issued ++ g ∧
      (Closed g ↔ (count ≠ 0 → w.status.getLsbD 0 = false → buff &&& 3 = 0 →
        Clean O (plan dir.cmds w.isBlock count.toNat (start w.isBlock sector) count.toNat buff) w.issued.length)) ∧
      (streaming false g = false ↔ (count ≠ 0 → w.status.getLsbD 0 = false → buff &&& 3 = 0 →
        Clean O (plan dir.cmds w.isBlock count.toNat (start w.isBlock sector) count.toNat buff) w.issued.length ∧
          Stopped O (plan dir.cmds w.isBlock count.toNat (start w.isBlock sector) count.toNat buff)
            w.issued.length)) := by
  by_cases hcount : count = 0
  · refine ⟨[], by simp [transfer, hcount], by simp [Closed, hcount], by simp [streaming, hcount]⟩
  by_cases hready : w.status.getLsbD 0 = false
  swap
  · have hbusy : w.status.getLsbD 0 = true := by simpa using hready
    refine ⟨[], ?_, ?_, ?_⟩
    · rw [transfer, if_neg hcount, if_pos hbusy, List.append_nil]
    · exact iff_of_true trivial fun _ h => absurd h hready
    · exact iff_of_true rfl fun _ h => absurd h hready
  rw [transfer_eq_runPlan hcount hready, ← start]
  dsimp only
  by_cases halign : buff &&& 3 = 0
  · have hpaired := plan_paired dir w.isBlock count.toNat (start w.isBlock sector) count.toNat buff
    have hfirst := not_nextStops_plan dir w.isBlock count.toNat (start w.isBlock sector) count.toNat buff
    refine ⟨_, runPlan_issued _ w (plan_aligned _ _ _ _ _ _ halign), ?_, ?_⟩
    · rw [given_closed_iff _ _ _ hpaired]
      exact ⟨fun h _ _ _ => h, fun h => h hcount hready halign⟩
    · rw [given_streaming_iff _ _ _ _ hpaired (iff_of_false (by simp) hfirst)]
      exact ⟨fun h _ _ _ => h, fun h => h hcount hready halign⟩
  · refine ⟨[], ?_, iff_of_true trivial fun _ _ h => absurd h halign, iff_of_true rfl fun _ _ h => absurd h halign⟩
    obtain ⟨n, hn⟩ := Nat.exists_eq_succ_of_ne_zero fun hz => hcount (BitVec.eq_of_toNat_eq hz)
    have hrefused : (dir.cmds.send (start w.isBlock sector) (n + 1) buff).blocks ≠ 0 ∧
        (dir.cmds.send (start w.isBlock sector) (n + 1) buff).buf &&& 3 ≠ 0 :=
      ⟨Nat.ne_of_gt (bcnt_pos (by omega)), halign⟩
    rw [hn, Nat.succ_eq_add_one, plan, if_neg (by omega), List.cons_append, runPlan, sendDataCmd_refused hrefused,
      List.append_nil]

/-- A read of two sectors whose data time out: the card has accepted `CMD18`, and no other command follows. -/
theorem dataTimeout_not_closed :
    ∃ g, (sdcRead dataTimeout 0x80000000 5 2 (.fresh 12)).2.issued = [] ++ g ∧ ¬ Closed g ∧
    (sdcRead dataTimeout 0x80000000 5 2 (.fresh 12)).1 = .error := by
  refine ⟨_, rfl, ?_, by decide⟩
  rintro ⟨hopen, -⟩
  obtain ⟨d, hd, -⟩ := hopen rfl (Or.inl (by decide))
  exact List.not_mem_nil hd

end Soceteer.Sdc
