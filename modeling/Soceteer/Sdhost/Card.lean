import Soceteer.Sdhost.DataRead
import Soceteer.Sdhost.DataWrite

/-!
# Soceteer.Sdhost.Card — what is written is what is read

A card as the controller needs it: it keeps the blocks that it sees, and the lines may spoil what it gives back.

* `Card`, `Card.take`: an edge of a card that takes blocks off the lines.
* `writes_then_reads`: a transfer to the card, and the blocks of it read back.
* `Spoilt`, `reads_checked`: blocks that the lines spoil on their way from the card.
-/

namespace Soceteer.Sdhost

open Lib Crc Clocked

/-- The blocks that a card has, and what it has of the one that it is in. -/
structure Card where
  blocks : List (List (BitVec 4))
  partly : Option (List (BitVec 4))

/-- An edge of a card that takes blocks of `n` edges. Lines that nobody drives are pulled up. -/
def Card.take (n : ℕ) (c : Card) (v : Option (BitVec 4)) : Card :=
  match c.partly with
  | none => if (v.getD 0xf#4).getLsbD 0 then c else { c with partly := some [] }
  | some us =>
    if us.length + 1 = n then ⟨c.blocks ++ [us ++ [v.getD 0xf#4]], none⟩
      else { c with partly := some (us ++ [v.getD 0xf#4]) }

theorem Card.take_idle {n : ℕ} {bl : List (List (BitVec 4))} {vs : List (Option (BitVec 4))}
    (hv : ∀ v ∈ vs, (v.getD 0xf#4).getLsbD 0 = true) : vs.foldl (Card.take n) ⟨bl, none⟩ = ⟨bl, none⟩ := by
  induction vs with
  | nil => rfl
  | cons v vs ih =>
    have hstay : Card.take n ⟨bl, none⟩ v = ⟨bl, none⟩ := if_pos (hv v List.mem_cons_self)
    rw [List.foldl_cons, hstay]
    exact ih fun w hw => hv w (List.mem_cons_of_mem v hw)

theorem Card.take_units {n : ℕ} {bl : List (List (BitVec 4))} {us vs : List (BitVec 4)}
    (hn : us.length + vs.length = n)
    (hv : vs ≠ []) : (vs.map some).foldl (Card.take n) ⟨bl, some us⟩ = ⟨bl ++ [us ++ vs], none⟩ := by
  induction vs generalizing us with
  | nil => exact absurd rfl hv
  | cons v vs ih =>
    rw [List.length_cons] at hn
    rw [List.map_cons, List.foldl_cons]
    by_cases hlast : vs = []
    · subst hlast
      have hnext : Card.take n ⟨bl, some us⟩ (some v) = ⟨bl ++ [us ++ [v]], none⟩ := if_pos (by simpa using hn)
      rw [hnext]
      rfl
    · have hpos := List.length_pos_iff.2 hlast
      have hnext : Card.take n ⟨bl, some us⟩ (some v) = ⟨bl, some (us ++ [v])⟩ :=
        if_neg (show ¬ us.length + 1 = n by omega)
      rw [hnext, ih (by rw [List.length_append, List.length_singleton]; omega) hlast, List.append_assoc]
      rfl

/-- A block as the card keeps it. -/
def kept (bus4 : Bool) (words : ℕ → BitVec 32) (q dc : ℕ) : List (BitVec 4) :=
  (List.range (dc + 16)).map (frame bus4 words q dc)

theorem Card.take_block {bus4 : Bool} {words : ℕ → BitVec 32} {q dc : ℕ} {bl : List (List (BitVec 4))} :
    (blockLines bus4 words q dc).foldl (Card.take (dc + 16)) ⟨bl, none⟩ =
      ⟨bl ++ [kept bus4 words q dc], none⟩ := by
  have hfree : Card.take (dc + 16) ⟨bl, none⟩ none = ⟨bl, none⟩ := rfl
  have hstart : Card.take (dc + 16) ⟨bl, none⟩ (some (if bus4 then 0x0#4 else 0xe#4)) = ⟨bl, some []⟩ := by
    cases bus4 <;> rfl
  have hunits : (List.range (dc + 16)).map (fun t => some (frame bus4 words q dc t))
      = (kept bus4 words q dc).map some := by simp [kept]
  rw [blockLines, List.foldl_cons, hfree, List.foldl_cons, hstart, List.foldl_append, hunits,
    Card.take_units (by simp [kept]) (by simp [kept]), List.nil_append]
  exact Card.take_idle fun v hv => by
    obtain rfl | rfl : v = some 0xf#4 ∨ v = none := by simpa using hv
    all_goals rfl

theorem Card.take_transfer {bus4 : Bool} {words : ℕ → BitVec 32} {dc bytes : ℕ} (bs : List Block) :
    ∀ (q : ℕ) (bl : List (List (BitVec 4))),
      (transferLines bus4 words dc bytes q bs).foldl (Card.take (dc + 16)) ⟨bl, none⟩
        = ⟨bl ++ (List.range bs.length).map fun k => kept bus4 words (q + 8 * bytes * k) dc, none⟩ := by
  induction bs with
  | nil =>
    intro q bl
    simp [transferLines]
  | cons b bs ih =>
    intro q bl
    have hsilent : ∀ v ∈ List.replicate b.answer.length (none : Option (BitVec 4)),
        (v.getD 0xf#4).getLsbD 0 = true := by
      intro v hv
      rw [List.eq_of_mem_replicate hv]
      rfl
    have hplace : ∀ k, q + 8 * bytes + 8 * bytes * k = q + 8 * bytes * (k + 1) := by
      intro k
      rw [Nat.mul_succ]
      omega
    rw [transferLines, List.foldl_append, List.foldl_append, Card.take_block, Card.take_idle hsilent, ih]
    simp [List.range_succ_eq_map, Function.comp_def, hplace]

/-! ## Blocks that come back -/

section Back

variable {bus4 : Bool} {dc : ℕ} {d q : ℕ → BitVec 4}

theorem codesOk_congr (h : ∀ t < dc + 16, d t = q t) : CodesOk bus4 dc d 16 ↔ CodesOk bus4 dc q 16 := by
  have hcrc : ∀ j, lineCrc d j dc = lineCrc q j dc := lineCrc_congr fun t ht => h t (by omega)
  rw [CodesOk, CodesOk]
  exact forall₂_congr fun k hk => by rw [h (dc + k) (by omega)]; simp only [hcrc]

theorem dataBits_congr (h : ∀ t < dc, d t = q t) : dataBits bus4 d dc = dataBits bus4 q dc := by
  rw [dataBits, dataBits, ← List.flatMap_congr fun t ht => by rw [h t (List.mem_range.1 ht)]]

/-- The bits of `n` blocks that were kept, put together. -/
theorem flatMap_kept {words : ℕ → BitVec 32} {blksize : BitVec 12} {p n : ℕ} :
    ((List.range n).flatMap fun k =>
        dataBits bus4 (frame bus4 words (p + 8 * (blksize.toNat + 1) * k) (dataCyclesOf bus4 blksize))
          (dataCyclesOf bus4 blksize))
      = (List.range (8 * (blksize.toNat + 1) * n)).map fun j => streamBit words (p + j) := by
  have hblock : ∀ k, dataBits bus4 (frame bus4 words (p + 8 * (blksize.toNat + 1) * k) (dataCyclesOf bus4 blksize))
      (dataCyclesOf bus4 blksize)
        = (List.range (8 * (blksize.toNat + 1))).map fun j =>
          streamBit words (p + 8 * (blksize.toNat + 1) * k + j) := by
    intro k
    rw [dataBits_frame _ _ _ _ (Nat.le_refl _), unitLen_mul_dataCyclesOf]
  simp only [hblock]
  generalize 8 * (blksize.toNat + 1) = len
  induction n with
  | zero => rfl
  | succ n ih =>
    rw [List.range_succ, List.flatMap_append, ih, List.flatMap_singleton, Nat.mul_succ,
      List.range_add, List.map_append,
      List.map_map]
    simp [Function.comp_def, Nat.add_assoc]

end Back

/-- A transfer to a card that accepts all of it, and a transfer that gets from the card what it kept: the words
that come back hold the bits of the words that were sent. -/
theorem writes_then_reads (words : ℕ → BitVec 32) {h h' : DataSerial} {i i' : DataSerialIn} (hs : h.state = .idle)
    (hrd : h.rd = false) (hi : i.start = 0b01#2) {blocks : List Block}
    (hgood : ∀ b ∈ blocks, b.Fits (dataCyclesOf i.bus4bit i.blksize) i.blksize ∧ accepts b.bits)
    (hlen : blocks.length = i.blkcnt.toNat + 1)
    (hlate : NoneLate i.bus4bit (i.blksize.toNat + 1) i.byteAlignment.toNat blocks.length)
    (hs' : h'.state = .idle) (hwe : h'.we = false) (hi' : i'.start = 0b10#2) (hbus : i'.bus4bit = i.bus4bit)
    (hsize : i'.blksize = i.blksize) (hcnt : i'.blkcnt = i.blkcnt)
    {back : List ((ℕ → BitVec 4) × List DataSerialIn)}
    (hback : ∀ b ∈ back, Carries i.bus4bit i.blksize b.1 b.2)
    (hkept : back.map (fun b => (List.range (dataCyclesOf i.bus4bit i.blksize + 16)).map b.1)
      =
        ((outputs (DataSerial.draw words) (·.1.lines) (DataSerial.draw words (h, 0) i)
        (blocks.flatMap Block.edges)).foldl
          (Card.take (dataCyclesOf i.bus4bit i.blksize + 16)) ⟨[], none⟩).blocks) :
    let sent := (blocks.flatMap Block.edges).foldl (DataSerial.draw words) (DataSerial.draw words (h, 0) i)
    let got := (back.flatMap (·.2)).foldl DataSerial.feed (DataSerial.feed (h', []) i')
    let bits := 8 * (i.blksize.toNat + 1) * (i.blkcnt.toNat + 1)
    (sent.1.state = .idle ∧ sent.1.crcOk = true) ∧ (got.1.state = .idle ∧ got.1.crcOk = true) ∧
      got.2.length = (8 * i'.byteAlignment.toNat + bits + 31) / 32 ∧
        ∀ j < bits, ∀ w, got.2[(8 * i'.byteAlignment.toNat + j) / 32]? = some w →
          w.getMsbD ((8 * i'.byteAlignment.toNat + j) % 32) = streamBit words (8 * i.byteAlignment.toNat + j) := by
  intro sent got bits
  set dc := dataCyclesOf i.bus4bit i.blksize with hdc
  set p := 8 * i.byteAlignment.toNat with hp
  have hal := i.byteAlignment.isLt
  have hal' := i'.byteAlignment.isLt
  -- what is written
  obtain ⟨good, last, hblocks⟩ : ∃ good last, blocks = good ++ [last] := by
    refine ⟨blocks.dropLast, blocks.getLast (List.length_pos_iff.1 (by omega)), ?_⟩
    rw [List.dropLast_append_getLast]
  have hcount : good.length = i.blkcnt.toNat := by
    rw [hblocks, List.length_append, List.length_singleton] at hlen
    omega
  obtain ⟨hready, -⟩ := DataSerial.draw_start words hs hrd hi
  obtain ⟨hlines, hidle, hok, -⟩ := writes_done words hready (fun b hb => hgood b (by simp [hblocks, hb]))
    (hgood last (by simp [hblocks])).1 (by omega) (.inl hcount) (by omega) (by rw [hcount, ← hlen]; exact hlate)
  rw [← hblocks] at hlines hidle hok
  -- what the card keeps
  rw [hlines, Card.take_transfer, List.nil_append, hlen] at hkept
  have hnum : back.length = i.blkcnt.toNat + 1 := by
    have := congrArg List.length hkept
    rwa [List.length_map, List.length_map, List.length_range] at this
  have hunit : ∀ k (hk : k < back.length), ∀ t < dc + 16,
      back[k].1 t = frame i.bus4bit words (p + 8 * (i.blksize.toNat + 1) * k) dc t := by
    intro k hk t ht
    have hblock :
        (List.range (dc + 16)).map back[k].1 = kept i.bus4bit words (p + 8 * (i.blksize.toNat + 1) * k) dc := by
      have := congrArg (·[k]?) hkept
      simpa [hk, hnum ▸ hk] using this
    exact List.map_inj_left.1 hblock t (List.mem_range.2 ht)
  -- what is read
  have hcodes : ∀ b ∈ back, CodesOk i.bus4bit dc b.1 16 := by
    intro b hb
    obtain ⟨k, hk, rfl⟩ := List.mem_iff_getElem.1 hb
    exact (codesOk_congr (hunit k hk)).2 (codesOk_frame _ _ _ _)
  have hbits : back.flatMap (fun b => dataBits i.bus4bit b.1 dc) = (List.range bits).map fun j =>
      streamBit words (p + j) := by
    rw [← flatMap_kept, List.flatMap_def, List.flatMap_def]
    refine congrArg List.flatten (List.ext_getElem (by simp [hnum]) fun k hk _ => ?_)
    rw [List.getElem_map, List.getElem_map, List.getElem_range]
    exact dataBits_congr fun t ht => hunit k (by simpa using hk) t (by omega)
  obtain ⟨good', last', hback'⟩ : ∃ good last, back = good ++ [last] := by
    refine ⟨back.dropLast, back.getLast (List.length_pos_iff.1 (by omega)), ?_⟩
    rw [List.dropLast_append_getLast]
  have hcount' : good'.length = i.blkcnt.toNat := by
    rw [hback', List.length_append, List.length_singleton] at hnum
    omega
  have hready := DataSerial.feed_start hs' hwe hi'
  rw [hbus, hsize, hcnt] at hready
  have hdone := reads_done good' last' hready
    (fun b hb => ⟨hback b (by simp [hback', hb]), hcodes b (by simp [hback', hb])⟩)
      (hback last' (by simp [hback'])) (by omega) (.inl hcount')
  rw [← hback', ← hdc, hbits] at hdone
  have hwords := hdone.words
  rw [givenOut, if_pos hcount'] at hwords
  obtain ⟨hnum', hbit⟩ := Packer.flush_foldl (show 8 * i'.byteAlignment.toNat < 32 by omega) h'.dataOut
    ((List.range bits).map fun j => streamBit words (p + j))
  refine ⟨⟨hidle, hok.2 (hgood last (by simp [hblocks])).2⟩,
    ⟨hdone.state, hdone.crcOk.2 (hcodes last' (by simp [hback']))⟩,
    ?_, fun j hj w hw => ?_⟩
  · rw [hwords, hnum', List.length_map, List.length_range]
  · have hval := hbit j (by simpa using hj)
    rw [← hwords, hw, Option.getD_some] at hval
    rw [hval]
    simp

/-- The edges that give back a block of four bytes on one line. -/
def wordBack (d : ℕ → BitVec 4) : List DataSerialIn :=
  let quiet : DataSerialIn := { wordIn with start := 0#2 }
  { quiet with datReg := 0xe#4 } :: (List.range 50).map fun t => { quiet with datReg := d t }

theorem wordBack_carries (d : ℕ → BitVec 4) : Carries false 3#12 d (wordBack d) := by
  refine ⟨⟨[], _, _, rfl, List.forall_mem_nil _, by decide, rfl, fun t ht => by simp⟩, fun j hj => ?_⟩
  simp [wordBack] at hj
  obtain rfl | ⟨t, -, rfl⟩ := hj <;> exact ⟨by simp, rfl⟩

/-- A block of `twoWords` as it comes back. -/
def wordFrame (k : ℕ) : ℕ → BitVec 4 := frame false twoWords (32 * k) 32

theorem writes_then_reads_word :
    let sent := ([wordBlock, wordBlock].flatMap Block.edges).foldl (DataSerial.draw twoWords)
      (DataSerial.draw twoWords (default, 0) wordIn)
    let back := [(wordFrame 0, wordBack (wordFrame 0)), (wordFrame 1, wordBack (wordFrame 1))]
    let got :=
      (back.flatMap Prod.snd).foldl DataSerial.feed (DataSerial.feed (default, []) { wordIn with start := 0b10#2 })
    (sent.1.state = .idle ∧ sent.1.crcOk = true) ∧ (got.1.state = .idle ∧ got.1.crcOk = true) ∧ got.2.length = 2 ∧
      ∀ j < 64, ∀ w, got.2[(0 + j) / 32]? = some w → w.getMsbD ((0 + j) % 32) = streamBit twoWords (0 + j) := by
  intro sent back got
  have hfits : ∀ b ∈ [wordBlock, wordBlock], b.Fits 32 3#12 ∧ accepts b.bits := by
    intro b hb
    obtain rfl : b = wordBlock := by simpa using hb
    exact ⟨wordBlock_fits, rfl, rfl, rfl, rfl⟩
  have hback : ∀ b ∈ back, Carries false 3#12 b.1 b.2 := by
    intro b hb
    simp only [back, List.mem_cons, List.not_mem_nil, or_false] at hb
    obtain rfl | rfl := hb <;> exact wordBack_carries _
  exact @writes_then_reads twoWords default default wordIn { wordIn with start := 0b10#2 } rfl rfl rfl _ hfits rfl
    (fun h => absurd h (by decide)) rfl rfl rfl rfl rfl rfl back hback (by decide +kernel)

/-! ## Blocks that the lines spoil -/

/-- What comes in is what was sent. -/
def Whole (bus4 : Bool) (q d : ℕ → BitVec 4) : Prop := ∀ j ∈ lanes bus4, ∀ t, (d t).getLsbD j = (q t).getLsbD j

/-- A block with its codes, of which each line spoils at most sixteen bits next to each other. -/
structure Spoilt (bus4 : Bool) (dc : ℕ) (q d : ℕ → BitVec 4) : Prop where
  codes : CodesOk bus4 dc q 16
  burst : ∃ a n : Fin 4 → ℕ, (∀ j, n j ≤ 16 ∧ a j + n j ≤ dc + 16) ∧
    ∀ j t, ¬ (a j ≤ t ∧ t < a j + n j) → (d t).getLsbD j = (q t).getLsbD j

theorem Spoilt.codesOk {bus4 : Bool} {dc : ℕ} {q d : ℕ → BitVec 4} (h : Spoilt bus4 dc q d) :
    CodesOk bus4 dc d 16 ↔ Whole bus4 q d := by
  obtain ⟨a, n, hn, hsame⟩ := h.burst
  exact codesOk_burst h.codes (fun j => (hn j).1) (fun j => (hn j).2) hsame

theorem Whole.dataBits {bus4 : Bool} {dc : ℕ} {q d : ℕ → BitVec 4} (h : Whole bus4 q d) :
    dataBits bus4 d dc = dataBits bus4 q dc := by
  have hunit : ∀ t, unitBits bus4 (d t) = unitBits bus4 (q t) := fun t => List.map_congr_left fun j hj => h j hj t
  simp only [Sdhost.dataBits, hunit]

/-- A block on its way: what the card sends, what comes in, and the edges that bring it. -/
structure Sent where
  sent : ℕ → BitVec 4
  comes : ℕ → BitVec 4
  edges : List DataSerialIn

/-- The bits that the card sends in a transfer. -/
def sentBits (bus4 : Bool) (blksize : BitVec 12) (bs : List Sent) : List Bool :=
  bs.flatMap fun b => dataBits bus4 b.sent (dataCyclesOf bus4 blksize)

/-- A transfer up to the first block that is spoilt, or to its end. -/
theorem reads_sent {bus4 : Bool} {blksize : BitVec 12} {nb : BitVec 16} {al : BitVec 2} {p : Packer 32}
    {s : DataSerial × List (BitVec 32)} (hw : ReadWaiting bus4 (dataCyclesOf bus4 blksize) nb al p s)
    {good : List Sent}
    {last : Sent} (hblocks : ∀ b ∈ good ++ [last], Carries bus4 blksize b.comes b.edges ∧
      Spoilt bus4 (dataCyclesOf bus4 blksize) b.sent b.comes)
    (hgood : ∀ b ∈ good, Whole bus4 b.sent b.comes) (hlen : good.length ≤ nb.toNat)
    (hend : good.length = nb.toNat ∨ ¬ Whole bus4 last.sent last.comes) :
    let s' := ((good ++ [last]).flatMap Sent.edges).foldl DataSerial.feed s
    s'.1.state = .idle ∧ s'.1.we = false ∧ (s'.1.crcOk = true ↔ Whole bus4 last.sent last.comes) ∧
      (s'.1.crcOk = true → good.length = nb.toNat ∧
        s'.2 = ((sentBits bus4 blksize (good ++ [last])).foldl Packer.put p).flush) := by
  intro s'
  have hlast := hblocks last (by simp)
  have hcodes := hlast.2.codesOk
  let pair : Sent → (ℕ → BitVec 4) × List DataSerialIn := fun b => (b.comes, b.edges)
  have hdone := reads_done (good.map pair) (pair last) hw (fun b hb => by
    obtain ⟨c, hc, rfl⟩ := List.mem_map.1 hb
    have hb := hblocks c (by simp [hc])
    exact ⟨hb.1, hb.2.codesOk.2 (hgood c hc)⟩) hlast.1 (by simpa using hlen) (by simpa [pair, hcodes] using hend)
  have hedges : (good.map pair ++ [pair last]).flatMap (·.2) = (good ++ [last]).flatMap Sent.edges := by
    simp [pair, List.flatMap_map]
  rw [hedges, List.length_map] at hdone
  have hok : s'.1.crcOk = true ↔ Whole bus4 last.sent last.comes := hdone.crcOk.trans hcodes
  refine ⟨hdone.state, hdone.we, hok, fun hcrc => ?_⟩
  have hwhole := hok.1 hcrc
  have hfull := hend.resolve_right (not_not_intro hwhole)
  have hbits : ((good.map pair ++ [pair last]).flatMap fun b => dataBits bus4 b.1 (dataCyclesOf bus4 blksize))
      = sentBits bus4 blksize (good ++ [last]) := by
    have hall : ∀ b ∈ good ++ [last], dataBits bus4 b.comes (dataCyclesOf bus4 blksize)
        = dataBits bus4 b.sent (dataCyclesOf bus4 blksize) := by
      intro b hb
      rcases List.mem_append.1 hb with hb | hb
      · exact (hgood b hb).dataBits
      · exact (List.mem_singleton.1 hb ▸ hwhole).dataBits
    rw [← List.map_singleton, ← List.map_append, List.flatMap_map]
    exact List.flatMap_congr hall
  have hwords := hdone.words
  rw [givenOut, if_pos hfull, hbits] at hwords
  exact ⟨hfull, hwords⟩

/-- A transfer up to the first block that is spoilt, or to its end. It is found good just when nothing of it was
spoilt, and then the FIFO has what the card sent. -/
theorem reads_checked {h : DataSerial} {i : DataSerialIn} (hs : h.state = .idle) (hwe : h.we = false)
    (hi : i.start = 0b10#2)
    {good : List Sent} {last : Sent}
    (hblocks : ∀ b ∈ good ++ [last], Carries i.bus4bit i.blksize b.comes b.edges ∧
      Spoilt i.bus4bit (dataCyclesOf i.bus4bit i.blksize) b.sent b.comes)
    (hgood : ∀ b ∈ good, Whole i.bus4bit b.sent b.comes) (hlen : good.length ≤ i.blkcnt.toNat)
    (hend : good.length = i.blkcnt.toNat ∨ ¬ Whole i.bus4bit last.sent last.comes) :
    let s' := ((good ++ [last]).flatMap Sent.edges).foldl DataSerial.feed (DataSerial.feed (h, []) i)
    let bits := sentBits i.bus4bit i.blksize (good ++ [last])
    let first := 8 * i.byteAlignment.toNat
    s'.1.state = .idle ∧ (s'.1.crcOk = true ↔ Whole i.bus4bit last.sent last.comes) ∧
      (s'.1.crcOk = true → s'.2.length = (first + bits.length + 31) / 32 ∧
        ∀ j (hj : j < bits.length) (w : BitVec 32), s'.2[(first + j) / 32]? = some w →
          w.getMsbD ((first + j) % 32) = bits[j]) := by
  intro s' bits first
  obtain ⟨hidle, -, hok, hwords⟩ := reads_sent (DataSerial.feed_start hs hwe hi) hblocks hgood hlen hend
  refine ⟨hidle, hok, fun hcrc => ?_⟩
  obtain ⟨-, hwords⟩ := hwords hcrc
  obtain ⟨hnum, hbit⟩ := Packer.flush_foldl (show first < 32 by have := i.byteAlignment.isLt; omega) h.dataOut bits
  rw [← hwords] at hnum hbit
  refine ⟨hnum, fun j hj w hw => ?_⟩
  rw [← hbit j hj, hw, Option.getD_some]

/-- One edge of a block turned over. -/
def flipped (q : ℕ → BitVec 4) (n t : ℕ) : BitVec 4 := if t = n then ~~~ q t else q t

theorem spoilt_flipped {bus4 : Bool} {dc n : ℕ} {q : ℕ → BitVec 4} (hq : CodesOk bus4 dc q 16) (hn : n < dc + 16) :
    Spoilt bus4 dc q (flipped q n) := by
  refine ⟨hq, fun _ => n, fun _ => 1, fun _ => ⟨Nat.le_add_left 1 15, hn⟩, fun j t ht => ?_⟩
  have hne : t ≠ n := by
    rintro rfl
    exact ht ⟨Nat.le_refl t, Nat.lt_succ_self t⟩
  rw [flipped, if_neg hne]

/-- A block that comes in as `d`. -/
def wordSeen (k : ℕ) (d : ℕ → BitVec 4) : Sent := ⟨wordFrame k, d, wordBack d⟩

theorem reads_checked_flipped :
    let good := [wordSeen 0 (wordFrame 0)]
    let last := wordSeen 1 (flipped (wordFrame 1) 7)
    let s' := ((good ++ [last]).flatMap Sent.edges).foldl DataSerial.feed
      (DataSerial.feed (default, []) { wordIn with start := 0b10#2 })
    s'.1.state = .idle ∧ (s'.1.crcOk = true ↔ Whole false (wordFrame 1) (flipped (wordFrame 1) 7)) := by
  intro good last s'
  have hspoilt : Spoilt false 32 (wordFrame 1) (flipped (wordFrame 1) 7) :=
    spoilt_flipped (codesOk_frame _ _ _ _) (by omega)
  have hwhole : Spoilt false 32 (wordFrame 0) (wordFrame 0) :=
    ⟨codesOk_frame _ _ _ _, fun _ => 0, fun _ => 0, fun _ => by simp, fun _ _ _ => rfl⟩
  have hblocks : ∀ b ∈ good ++ [last], Carries false 3#12 b.comes b.edges ∧ Spoilt false 32 b.sent b.comes := by
    intro b hb
    simp only [good, List.cons_append, List.nil_append, List.mem_cons, List.not_mem_nil, or_false] at hb
    obtain rfl | rfl := hb
    · exact ⟨wordBack_carries _, hwhole⟩
    · exact ⟨wordBack_carries _, hspoilt⟩
  have h := @reads_checked default { wordIn with start := 0b10#2 } rfl rfl rfl good last hblocks
    (fun b hb => by rw [List.mem_singleton.1 hb]; exact fun _ _ _ => rfl) (Nat.le_refl 1) (.inl rfl)
  exact ⟨h.1, h.2.1⟩

end Soceteer.Sdhost
