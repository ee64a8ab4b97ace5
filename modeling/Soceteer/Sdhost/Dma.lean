import Soceteer.Sdhost.Fifo

/-!
# Soceteer.Sdhost.Dma — the AXI master

`sdc_controller` moves the words between the FIFO and the memory in bursts, from the address of the transfer on.
Addresses count words here where the source counts them.

* `Dma`, `Dma.tick`: the registers of the AXI master, with the FIFO, and a clock edge.
* `burstLen`, `burstLen_spec`: how long a burst may be.
* `Bus`, `Bus.tick`: what has crossed the bus so far.
* `beats`: the words that a burst is about.
-/

namespace Soceteer.Sdhost

open Lib

/-- The registers; `n` is `fifo_addr_bits`, and `a` is two less than `dma_addr_bits`. -/
structure Dma (n a : ℕ) where
  fifo : Fifo n
  cyc : Bool
  awaddr : BitVec (a + 2)
  awlen : BitVec 8
  awvalid : Bool
  wcnt : BitVec 8
  wlast : Bool
  wvalid : Bool
  araddr : BitVec (a + 2)
  arlen : BitVec 8
  arvalid : Bool
  adr : BitVec a
  brespCnt : BitVec 3
  busError : Bool

/-- What a clock edge reads: `reset | ctrl_rst`, the side of the SD bus, and the slave. -/
structure DmaIn (a : ℕ) where
  reset : Bool
  cmdStart : Bool
  enRx : Bool
  enTx : Bool
  rxWe : Bool
  rxData : BitVec 32
  txRe : Bool
  dataBusy : Bool
  dmaAddr : BitVec a
  awready : Bool
  wready : Bool
  bvalid : Bool
  bresp : BitVec 2
  arready : Bool
  rvalid : Bool
  rdata : BitVec 32
  rlast : Bool
  rresp : BitVec 2

/-- `m_bus_dat_i`, `m_axi_wdata`: the bytes of a word in the other order. -/
def swap (v : BitVec 32) : BitVec 32 :=
  v.extractLsb' 0 8 ++ v.extractLsb' 8 8 ++ v.extractLsb' 16 8 ++ v.extractLsb' 24 8

variable {n a : ℕ}

/-- `tx_burst_len`, `rx_burst_len`: one less than the beats of a burst for `len` words, which ends at a 4 KB
boundary. -/
def burstLen (adr : BitVec a) (len : BitVec n) : BitVec n :=
  let low := (adr.extractLsb' 0 10).setWidth (max 10 n)
  if low ≤ low + len.setWidth (max 10 n) then len - 1#n else ~~~ adr.extractLsb' 0 n

/-- `m_axi_awlen`, `m_axi_arlen` of a burst -/
def axiLen (burst : BitVec n) : BitVec 8 := if burst.toNat < 0xff then burst.setWidth 8 else 0xff#8

namespace Dma

variable (d : Dma n a) (i : DmaIn a)

/-- `m_axi_bready` -/
def bready : Bool := d.brespCnt ≠ 0#3

/-- `m_axi_rready` -/
def rready : Bool := d.cyc && !i.enRx

/-- `m_axi_wdata` -/
def wdata : BitVec 32 := swap d.fifo.dout

/-- `tx_stb` -/
def txStb : Bool := i.enTx && 2 ^ n / 3 ≤ d.fifo.freeLen.toNat

/-- `rx_stb` -/
def rxStb : Bool :=
  i.enRx && d.brespCnt ≠ 7#3 && (2 ^ n / 3 ≤ d.fifo.dataLen.toNat || !d.fifo.empty && !i.dataBusy)

/-- `fifo_we`, `fifo_re` and `fifo_din` -/
def fifoIn : FifoIn where
  clear := i.reset || !(i.enRx || i.enTx)
  we := if i.enRx then i.rxWe else d.rready i && i.rvalid
  re := if i.enRx then i.wready && d.wvalid else i.txRe
  din := if i.enRx then i.rxData else swap i.rdata

/-- The registers of the burst. -/
def burst : Dma n a :=
  if i.reset then { d with arvalid := false, awvalid := false, wvalid := false, cyc := false }
  else if d.cyc then
    let d' := { d with awvalid := d.awvalid && !i.awready, arvalid := d.arvalid && !i.arready }
    let d' :=
      if d.wvalid ∧ i.wready then
        if d.wlast then { d' with wvalid := false, cyc := false }
        else { d' with wlast := d.wcnt.toNat + 1 = d.awlen.toNat, wcnt := d.wcnt + 1#8 }
      else d'
    if i.rvalid ∧ d.rready i ∧ i.rlast then { d' with cyc := false } else d'
  else if d.txStb i ∨ d.rxStb i then
    let d' := { d with cyc := true, wcnt := 0#8 }
    if i.enRx then
      let len := burstLen d.adr d.fifo.dataLen
      { d' with awaddr := d.adr ++ 0#2, awlen := axiLen len, wlast := len = 0#n, awvalid := true, wvalid := true }
    else
      { d' with araddr := d.adr ++ 0#2, arlen := axiLen (burstLen d.adr d.fifo.freeLen), arvalid := true }
  else d

def tick : Dma n a :=
  let aw := d.awvalid && i.awready
  let b := i.bvalid && d.bready
  { d.burst i with
    fifo := d.fifo.tick (d.fifoIn i)
    adr :=
      if i.reset then 0#a
      else if i.wready ∧ d.wvalid ∨ d.rready i ∧ i.rvalid then d.adr + 1#a
      else if d.cyc = false ∧ i.enRx = false ∧ i.enTx = false then i.dmaAddr
      else d.adr
    brespCnt :=
      if i.reset then 0#3
      else if aw ∧ b = false then d.brespCnt + 1#3
      else if aw = false ∧ b then d.brespCnt - 1#3
      else d.brespCnt
    busError :=
      if i.reset ∨ i.cmdStart then false
      else if b ∧ i.bresp ≠ 0#2 then true
      else if i.rvalid ∧ d.rready i ∧ i.rresp ≠ 0#2 then true
      else d.busError }

end Dma

/-! ## The length of a burst -/

/-- A burst for `len` words asks for no more than them and stays below the next 4 KB boundary. -/
theorem burstLen_spec (hn : n ≤ 10) (adr : BitVec a) {len : BitVec n} (hlen : 0 < len.toNat) :
    (burstLen adr len).toNat + 1 ≤ len.toNat ∧ adr.toNat % 1024 + (burstLen adr len).toNat < 1024 := by
  have hlt := len.isLt
  have hpow : 2 ^ n * 2 ^ (10 - n) = 1024 := by rw [← Nat.pow_add, Nat.add_sub_cancel' hn]
  have hle : 2 ^ n ≤ 1024 := Nat.le_of_dvd (by omega) ⟨_, hpow.symm⟩
  have hmod : adr.toNat % 1024 % 2 ^ n = adr.toNat % 2 ^ n := Nat.mod_mod_of_dvd _ ⟨_, hpow.symm⟩
  have hcond : (adr.extractLsb' 0 10).setWidth (max 10 n) ≤ (adr.extractLsb' 0 10).setWidth (max 10 n) +
      len.setWidth (max 10 n) ↔ adr.toNat % 1024 + len.toNat < 1024 := by
    rw [Nat.max_eq_left hn, BitVec.le_def]
    simp only [BitVec.toNat_add, BitVec.toNat_setWidth, BitVec.extractLsb'_toNat, Nat.shiftRight_zero]
    omega
  simp only [burstLen]
  split_ifs with hfits <;> rw [hcond] at hfits
  · have hsub : (len - 1#n).toNat = len.toNat - 1 := by
      have hone : (1#n).toNat = 1 := by
        rw [BitVec.toNat_ofNat, Nat.mod_eq_of_lt (by omega)]
      rw [BitVec.toNat_sub_of_le (BitVec.le_def.2 (by omega)), hone]
    omega
  · have hnot : (~~~ adr.extractLsb' 0 n).toNat = 2 ^ n - 1 - adr.toNat % 2 ^ n := by
      rw [BitVec.toNat_not, BitVec.extractLsb'_toNat, Nat.shiftRight_zero]
    -- the word address is in the last `2 ^ n` words of its page
    obtain ⟨m, hm⟩ := Nat.exists_eq_add_one_of_ne_zero (Nat.ne_of_gt (Nat.two_pow_pos (10 - n)))
    have hpage : 1024 = 2 ^ n * m + 2 ^ n := by rw [← hpow, hm, Nat.mul_succ]
    have hp : adr.toNat % 1024 % 2 ^ n = adr.toNat % 1024 - 2 ^ n * m := by
      conv_lhs => rw [← Nat.add_sub_cancel' (show 2 ^ n * m ≤ adr.toNat % 1024 by omega), Nat.mul_add_mod]
      exact Nat.mod_eq_of_lt (by omega)
    rw [hnot, ← hmod, hp]
    omega

theorem axiLen_toNat (burst : BitVec n) : (axiLen burst).toNat = min burst.toNat 255 := by
  rw [axiLen]
  split_ifs with h
  · rw [BitVec.toNat_setWidth, Nat.mod_eq_of_lt (by omega)]
    omega
  · have hcap : (0xff#8).toNat = 255 := rfl
    omega

/-! ## What crosses the bus -/

/-- The AXI master with what it has done: the words that the FIFO has taken in and given out, the bursts that the
slave has accepted, the words of them that have been moved, and the responses. -/
structure Bus (n a : ℕ) where
  dma : Dma n a
  taken : List (BitVec 32)
  given : List (BitVec 32)
  aws : List (BitVec (a + 2) × BitVec 8)
  ws : List (BitVec 32 × Bool)
  acks : ℕ
  ars : List (BitVec (a + 2) × BitVec 8)
  rs : List (BitVec 32)

/-- Nothing has been moved yet, and nothing is on its way. -/
def Bus.rest (n a : ℕ) : Bus n a where
  dma := {
    fifo := ⟨⟨fun _ => 0#32, 0#n, 0#n⟩, 0#32⟩, cyc := false, awaddr := 0#(a + 2), awlen := 0#8,
    awvalid := false, wcnt := 0#8,
    wlast := false, wvalid := false, araddr := 0#(a + 2), arlen := 0#8, arvalid := false,
    adr := 0#a, brespCnt := 0#3,
    busError := false }
  taken := []
  given := []
  aws := []
  ws := []
  acks := 0
  ars := []
  rs := []

/-- `l` with `x` behind it, when it happens. -/
def withMore {α : Type} (l : List α) (b : Bool) (x : α) : List α := if b then l ++ [x] else l

@[simp] theorem withMore_true {α : Type} (l : List α) (x : α) : withMore l true x = l ++ [x] := rfl

@[simp] theorem withMore_false {α : Type} (l : List α) (x : α) : withMore l false x = l := rfl

def Bus.tick (s : Bus n a) (i : DmaIn a) : Bus n a where
  dma := s.dma.tick i
  taken := s.taken ++ s.dma.fifo.taken (s.dma.fifoIn i)
  given := s.given ++ s.dma.fifo.given (s.dma.fifoIn i)
  aws := withMore s.aws (s.dma.awvalid && i.awready) (s.dma.awaddr, s.dma.awlen)
  ws := withMore s.ws (s.dma.wvalid && i.wready) (s.dma.wdata, s.dma.wlast)
  acks := if i.bvalid && s.dma.bready then s.acks + 1 else s.acks
  ars := withMore s.ars (s.dma.arvalid && i.arready) (s.dma.araddr, s.dma.arlen)
  rs := withMore s.rs (s.dma.rready i && i.rvalid) i.rdata

/-- The beats of a burst: the words that they are about, and the mark on the last one. -/
def beats (b : BitVec (a + 2) × BitVec 8) : List (BitVec a × Bool) :=
  (List.range (b.2.toNat + 1)).map fun k => (b.1.extractLsb' 2 a + BitVec.ofNat a k, decide (k = b.2.toNat))

/-- A burst starts at a word and stays within 4 KB. -/
def Paged (b : BitVec (a + 2) × BitVec 8) : Prop :=
  b.1.extractLsb' 0 2 = 0#2 ∧ (b.1.extractLsb' 2 a).toNat % 1024 + b.2.toNat < 1024

/-- Words from `A` on, one after the other. -/
def placed {α : Type} (A : BitVec a) (l : List α) : List (BitVec a × α) :=
  l.zipIdx.map fun p => (A + BitVec.ofNat a p.2, p.1)

theorem placed_concat {α : Type} (A : BitVec a) (l : List α) (x : α) :
    placed A (l ++ [x]) = placed A l ++ [(A + BitVec.ofNat a l.length, x)] := by
  simp [placed, List.zipIdx_append]

@[simp] theorem length_placed {α : Type} (A : BitVec a) (l : List α) : (placed A l).length = l.length := by
  simp [placed]

@[simp] theorem length_beats (b : BitVec (a + 2) × BitVec 8) : (beats b).length = b.2.toNat + 1 := by simp [beats]

theorem take_all_beats (addr : BitVec (a + 2)) (len : BitVec 8) :
    (beats (addr, len)).take (len.toNat + 1) = beats (addr, len) :=
  List.take_of_length_le (Nat.le_of_eq (length_beats _))

theorem take_beats {b : BitVec (a + 2) × BitVec 8} {c : ℕ} (hc : c ≤ b.2.toNat) :
    (beats b).take (c + 1)
      = (beats b).take c ++ [(b.1.extractLsb' 2 a + BitVec.ofNat a c, decide (c = b.2.toNat))] := by
  rw [List.take_add_one, List.getElem?_eq_getElem (by rw [length_beats]; omega)]
  simp [beats]

theorem word_addr (adr : BitVec a) : (adr ++ 0#2).extractLsb' 2 a = adr ∧ (adr ++ 0#2).extractLsb' 0 2 = 0#2 :=
  ⟨BitVec.extractLsb'_append_eq_left, BitVec.extractLsb'_append_eq_right⟩

/-! ## Before a transfer -/

/-- Nothing is under way, and nothing has crossed the bus. -/
structure BusIdle (s : Bus n a) : Prop where
  cyc : s.dma.cyc = false
  awvalid : s.dma.awvalid = false
  wvalid : s.dma.wvalid = false
  arvalid : s.dma.arvalid = false
  brespCnt : s.dma.brespCnt = 0#3
  fresh : s.taken = [] ∧ s.given = [] ∧ s.aws = [] ∧ s.ws = [] ∧ s.acks = 0 ∧ s.ars = [] ∧ s.rs = []

/-- The start of a transfer at the word `A`. -/
structure BusStart (A : BitVec a) (s : Bus n a) : Prop extends BusIdle s where
  fifo : Shows [] s.dma.fifo
  adr : s.dma.adr = A

variable {A : BitVec a} {s : Bus n a} {i : DmaIn a}

/-- A cycle in which no burst starts, and no word comes into the FIFO. -/
theorem BusIdle.tick (h : BusIdle s) (hreset : i.reset = false)
    (hstb : s.dma.txStb i = false ∧ s.dma.rxStb i = false)
    (htaken : s.dma.fifo.taken (s.dma.fifoIn i) = []) (hgiven : s.dma.fifo.given (s.dma.fifoIn i) = []) :
    BusIdle (s.tick i) := by
  have hburst : s.dma.burst i = s.dma := by simp [Dma.burst, hreset, h.cyc, hstb.1, hstb.2]
  have hready : s.dma.bready = false ∧ s.dma.rready i = false := by
    simp [Dma.bready, Dma.rready, h.brespCnt, h.cyc]
  refine ⟨?_, ?_, ?_, ?_, ?_, ?_⟩
  · simp only [Bus.tick, Dma.tick, hburst, h.cyc]
  · simp only [Bus.tick, Dma.tick, hburst, h.awvalid]
  · simp only [Bus.tick, Dma.tick, hburst, h.wvalid]
  · simp only [Bus.tick, Dma.tick, hburst, h.arvalid]
  · simp [Bus.tick, Dma.tick, hreset, h.awvalid, hready.1, h.brespCnt]
  · simp only [Bus.tick, htaken, hgiven, h.awvalid, h.wvalid, h.arvalid, hready.1, hready.2,
      Bool.false_and, Bool.and_false,
      withMore_false, List.append_nil, Bool.false_eq_true, if_false]
    exact h.fresh

/-- A cycle with the FIFO off. -/
theorem BusIdle.tick_off (h : BusIdle s) (hreset : i.reset = false) (hoff : i.enRx = false ∧ i.enTx = false) :
    BusStart i.dmaAddr (s.tick i) := by
  have hclear : (s.dma.fifoIn i).clear = true := by simp [Dma.fifoIn, hoff.1, hoff.2]
  refine ⟨h.tick hreset (by simp [Dma.txStb, Dma.rxStb, hoff.1, hoff.2]) ?_ ?_, Fifo.tick_clear hclear, ?_⟩
  · simp [Fifo.taken, hclear]
  · simp [Fifo.given, hclear]
  · simp [Bus.tick, Dma.tick, hreset, h.wvalid, Dma.rready, h.cyc, hoff.1, hoff.2]

/-- A cycle of a transfer from the card before its first word. -/
theorem BusStart.tick_rx (hn : 2 ≤ n) (h : BusStart A s) (hreset : i.reset = false) (hrx : i.enRx = true)
    (htx : i.enTx = false)
    (hwe : i.rxWe = false) : BusStart A (s.tick i) := by
  have hempty : s.dma.fifo.empty = true := h.fifo.empty.2 rfl
  have hthird : 2 ^ 2 ≤ 2 ^ n := Nat.pow_le_pow_right (by omega) hn
  have hin : s.dma.fifoIn i = ⟨false, false, false, i.rxData⟩ := by simp [Dma.fifoIn, hreset, hrx, hwe, h.wvalid]
  have hstb : s.dma.rxStb i = false := by
    have hlen : s.dma.fifo.dataLen.toNat = 0 := h.fifo.dataLen
    have hnot : ¬ 2 ^ n / 3 ≤ 0 := by omega
    simp [Dma.rxStb, hlen, hnot, hempty]
  have hclear : (s.dma.fifoIn i).clear = false := by rw [hin]
  obtain ⟨q, horder, hshows⟩ := h.fifo.tick hclear
  have htaken : s.dma.fifo.taken (s.dma.fifoIn i) = [] := by simp [Fifo.taken, hin]
  have hgiven : s.dma.fifo.given (s.dma.fifoIn i) = [] := by simp [Fifo.given, hin]
  rw [htaken, hgiven] at horder
  refine ⟨h.toBusIdle.tick hreset ⟨by simp [Dma.txStb, htx], hstb⟩ htaken hgiven, ?_, ?_⟩
  · obtain rfl : q = [] := by simpa using horder
    exact hshows
  · simp [Bus.tick, Dma.tick, hreset, h.wvalid, Dma.rready, h.cyc, hrx, h.adr]

end Soceteer.Sdhost
