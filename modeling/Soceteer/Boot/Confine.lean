import Soceteer.Boot.Load

/-!
# Soceteer.Boot.Confine — what the boot ROM writes, for any file

The check of a segment adds `p_vaddr` and `p_memsz` in 64 bits, and the sum may wrap.

* `Safe`: all reads and stores are in RAM and above the ROM's own data, and a segment that is not in RAM ends the
  download before anything of it is stored.
* `arrivals`: the segments the loop over the program headers can come to.
* `wp_loadFrom_clean`: what the loop does where every segment that passes the check is in RAM.
* `whole_loadFrom`: where one is not, a run without failures stores some of it.
* `safe_iff`: a file is safe exactly when no segment passes the check by wrapping.
-/

namespace Soceteer.Boot

open Soceteer.Lib

variable {L : Layout} {fs : Fs}

/-! ## The property -/

/-- A segment that is not in RAM is the last thing in the log, and the error is `ERR_SEGMENT_ADDR`. -/
def Refuses (L : Layout) (outcome : Option Err) (log : List Access) : Prop :=
  ∀ pre seg post, log = pre ++ .segment seg :: post → ¬ seg.InRam L → post = [] ∧ outcome = some .segmentAddr

/-- Every run with this file, whatever FatFs does, stays inside and refuses what is not in RAM. -/
def Safe (L : Layout) (file : List UInt8) : Prop :=
  ∀ fs : Fs, fs.file = file → ∀ (mem : Mem L.xlen) (alt : Bool),
    Wp (download fs L) (start mem alt) (fun _ s => Confined L s.log ∧ Refuses L none s.log)
      (fun e s => Confined L s.log ∧ Refuses L (some e) s.log)

instance (file : List UInt8) (ofs : ℕ) : Decidable (Readable L file ofs) := inferInstanceAs (Decidable (_ ∧ _))

instance (file : List UInt8) : Decidable (HeaderOk L file) :=
  decidable_of_iff
    (24 + 3 * (L.xlen / 8) + 10 ≤ file.length ∧ file.take 4 = [0x7f, 0x45, 0x4c, 0x46] ∧
      file.getD 4 0 = (if L.xlen = 32 then 1 else 2) ∧ file.getD 5 0 = 1)
    ⟨fun ⟨h₁, h₂, h₃, h₄⟩ => ⟨h₁, h₂, h₃, h₄⟩, fun ⟨h₁, h₂, h₃, h₄⟩ => ⟨h₁, h₂, h₃, h₄⟩⟩

/-- The segments that loading comes to, of `k` program headers from the `i`-th on: after one that is refused, or
that is longer than the file, it does not go on. -/
def arrivalsFrom (L : Layout) (file : List UInt8) (phoff phentsize : ℕ) : ℕ → ℕ → List Seg
  | _, 0 => []
  | i, k + 1 =>
    if Readable L file (phOfs phoff phentsize i) then
      match segAt L file (phOfs phoff phentsize i) with
      | none => arrivalsFrom L file phoff phentsize (i + 1) k
      | some seg =>
        seg :: if Accepts L seg ∧ min seg.filesz seg.memsz ≤ (file.drop seg.offset).length then
          arrivalsFrom L file phoff phentsize (i + 1) k else []
    else []

def arrivals (L : Layout) (file : List UInt8) : List Seg :=
  if HeaderOk L file then
    arrivalsFrom L file (numAt file (24 + L.xlen / 8) (L.xlen / 8)) (numAt file (24 + 3 * (L.xlen / 8) + 6) 2) 0
      (numAt file (24 + 3 * (L.xlen / 8) + 8) 2)
  else []

theorem lt_of_mem_arrivalsFrom {file : List UInt8} {phoff phentsize : ℕ} {seg : Seg} : ∀ (k i : ℕ),
    seg ∈ arrivalsFrom L file phoff phentsize i k → seg.vaddr < 2 ^ L.xlen ∧ seg.memsz < 2 ^ L.xlen
  | 0, _, h => nomatch h
  | k + 1, i, h => by
    rw [arrivalsFrom] at h
    split_ifs at h
    swap
    · exact nomatch h
    cases hseg : segAt L file (phOfs phoff phentsize i) with
    | none =>
      rw [hseg] at h
      exact lt_of_mem_arrivalsFrom k (i + 1) h
    | some seg' =>
      rw [hseg] at h
      rcases List.mem_cons.mp h with rfl | h
      · exact segAt_lt hseg
      · split_ifs at h
        · exact lt_of_mem_arrivalsFrom k (i + 1) h
        · exact nomatch h

/-- The fields of a segment are addresses. -/
theorem lt_of_mem_arrivals {file : List UInt8} {seg : Seg} (h : seg ∈ arrivals L file) :
    seg.vaddr < 2 ^ L.xlen ∧ seg.memsz < 2 ^ L.xlen := by
  rw [arrivals] at h
  split_ifs at h
  · exact lt_of_mem_arrivalsFrom _ _ h
  · exact nomatch h

theorem end_mod (L : Layout) : (L.base + L.size) % 2 ^ 64 = L.base + L.size := Nat.mod_eq_of_lt L.addressable.2

/-- A segment in RAM passes the check. -/
theorem Seg.InRam.accepts {seg : Seg} (h : seg.InRam L) : Accepts L seg := by
  have hlt := L.addressable.2
  have hram := h.2
  refine ⟨h.1, ?_⟩
  rw [Seg.end64, end_mod, Nat.mod_eq_of_lt (by omega)]
  exact hram

/-- A segment that passes the check is in RAM exactly when the sum does not wrap. -/
theorem Accepts.inRam_iff {seg : Seg} (h : Accepts L seg) : seg.InRam L ↔ seg.vaddr + seg.memsz < 2 ^ 64 := by
  have hlt := L.addressable.2
  refine ⟨fun hin => by have := hin.2; omega, fun hwrap => ⟨h.1, ?_⟩⟩
  have hend := h.2
  rwa [Seg.end64, end_mod, Nat.mod_eq_of_lt hwrap] at hend

/-! ## Files with no wrapping segment -/

/-- The log has segments in RAM and stores inside only. -/
def Clean (L : Layout) (log : List Access) : Prop :=
  ∀ x ∈ log, x.Inside L ∨ ∃ seg : Seg, x = .segment seg ∧ seg.InRam L

/-- How a download ends: with a clean log, or at a segment that it refuses. -/
def Ends (L : Layout) (outcome : Option Err) (log : List Access) : Prop :=
  Clean L log ∨ outcome = some .segmentAddr ∧ ∃ pre seg, log = pre ++ [.segment seg] ∧ Clean L pre

theorem Clean.grows {l l' : List Access} (h : Clean L l) (hg : Grows L l l') : Clean L l' := by
  obtain ⟨xs, rfl, hxs⟩ := hg
  intro x hx
  rcases List.mem_append.mp hx with hx | hx
  · exact h x hx
  · exact Or.inl (hxs x hx)

theorem Clean.segment {l : List Access} {seg : Seg} (h : Clean L l) (hseg : seg.InRam L) :
    Clean L (l ++ [.segment seg]) := by
  intro x hx
  rcases List.mem_append.mp hx with hx | hx
  · exact h x hx
  · exact Or.inr ⟨seg, List.mem_singleton.mp hx, hseg⟩

theorem Clean.confined {l : List Access} (h : Clean L l) : Confined L l := by
  intro x hx
  rcases h x hx with hin | ⟨seg, rfl, -⟩
  · exact Or.inr hin
  · exact Or.inl ⟨seg, rfl⟩

theorem Clean.inRam {l : List Access} {seg : Seg} (h : Clean L l) (hseg : .segment seg ∈ l) : seg.InRam L := by
  rcases h _ hseg with hin | ⟨seg', heq, hram⟩
  · exact hin.elim
  · cases heq
    exact hram

theorem Ends.safe {outcome : Option Err} {log : List Access} (h : Ends L outcome log) :
    Confined L log ∧ Refuses L outcome log := by
  rcases h with h | ⟨houtcome, pre, seg, rfl, h⟩
  · refine ⟨h.confined, fun pre seg post hlog hnot => ?_⟩
    exact absurd (h.inRam (by rw [hlog]; simp)) hnot
  · refine ⟨h.confined.segment seg, fun pre' seg' post hlog hnot => ⟨?_, houtcome⟩⟩
    -- the segment that is not in RAM is not among the clean part
    rcases List.append_eq_append_iff.mp hlog with ⟨mid, rfl, hmid⟩ | ⟨mid, rfl, hmid⟩
    · rcases List.cons_eq_append_iff.mp hmid with ⟨rfl, hpost⟩ | ⟨mid', rfl, hnil⟩
      · exact (List.cons.inj hpost).2
      · exact absurd hnil (by simp)
    · cases mid with
      | nil => exact (List.cons.inj hmid).2
      | cons x mid =>
        obtain ⟨rfl, -⟩ := List.cons.inj hmid
        exact absurd (h.inRam (by simp)) hnot

section Clean

variable {m₀ : Mem L.xlen} {phoff phentsize : ℕ}

/-- Every segment that loading comes to and that passes the check is in RAM. -/
def Sound (L : Layout) (segs : List Seg) : Prop := ∀ seg ∈ segs, Accepts L seg → seg.InRam L

theorem wp_segment_clean {seg : Seg} {loadEnd : ℕ} {s : St L.xlen} (hlt : seg.vaddr < 2 ^ L.xlen)
    (hsound : Accepts L seg → seg.InRam L) (h : ∃ r K, Loaded m₀ r K s) (hlog : Clean L s.log) :
    Wp (segment fs L seg loadEnd) s
      (fun _ s' => Accepts L seg ∧ min seg.filesz seg.memsz ≤ (fs.file.drop seg.offset).length ∧
        (∃ r K, Loaded m₀ r K s') ∧ Clean L s'.log)
      (fun e s' => Ends L (some e) s'.log) := by
  obtain ⟨r, K, h⟩ := h
  by_cases hacc : Accepts L seg
  · have hram := hsound hacc
    refine (wp_segment ⟨hlt, hram⟩ h).mono ?_ fun e s' hgrows => Or.inl ((hlog.segment hram).grows hgrows)
    rintro _ s' ⟨-, hlen, h', hgrows⟩
    exact ⟨hacc, hlen, ⟨_, _, h'⟩, (hlog.segment hram).grows hgrows⟩
  · simp only [segment, access, wp_bind, wp_modify, wp_ite, wp_throw]
    exact ⟨fun _ => Or.inr ⟨rfl, s.log, seg, rfl, hlog⟩, fun hc => absurd hacc hc⟩

theorem wp_loadFrom_clean : ∀ (k i loadEnd : ℕ) (s : St L.xlen),
    Sound L (arrivalsFrom L fs.file phoff phentsize i k) → (∃ r K, Loaded m₀ r K s) → Clean L s.log →
    Wp (loadFrom fs L phoff phentsize i k loadEnd) s (fun _ s' => Clean L s'.log)
      (fun e s' => Ends L (some e) s'.log)
  | 0, _, _, _, _, _, hlog => hlog
  | k + 1, i, loadEnd, s, hsound, h, hlog => by
    rw [loadFrom]
    simp only [wp_bind]
    refine wp_programHeader.mono ?_ fun e s' he => Or.inl (by rwa [he.2.log])
    rintro res s₁ ⟨hread, rfl, hq⟩
    have h₁ : ∃ r K, Loaded m₀ r K s₁ := by
      obtain ⟨r, K, h⟩ := h
      exact ⟨r, K, h.quiet hq⟩
    have hlog₁ : Clean L s₁.log := by rwa [hq.log]
    rw [arrivalsFrom, if_pos hread] at hsound
    cases hseg : segAt L fs.file (phOfs phoff phentsize i) with
    | none =>
      rw [hseg] at hsound
      exact wp_loadFrom_clean k (i + 1) loadEnd s₁ hsound h₁ hlog₁
    | some seg =>
      rw [hseg] at hsound
      dsimp only at hsound
      simp only [wp_bind]
      refine (wp_segment_clean (segAt_lt hseg).1 (hsound seg List.mem_cons_self) h₁ hlog₁).mono ?_ fun _ _ he => he
      rintro loadEnd' s₂ ⟨hacc, hlen, h₂, hlog₂⟩
      rw [if_pos ⟨hacc, hlen⟩] at hsound
      exact wp_loadFrom_clean k (i + 1) loadEnd' s₂
        (fun seg' hs => hsound seg' (List.mem_cons_of_mem _ hs)) h₂ hlog₂

theorem wp_download_clean {alt : Bool} (hsound : Sound L (arrivals L fs.file)) :
    Wp (download fs L) (start m₀ alt) (fun _ s => Clean L s.log) (fun e s => Ends L (some e) s.log) := by
  simp only [download, fClose, wp_bind]
  refine wp_elfHeader.mono ?_ fun e s he => Or.inl (by rw [he.2.log]; exact List.forall_mem_nil _)
  rintro _ s₁ ⟨hheader, rfl, hq⟩
  rw [arrivals, if_pos hheader] at hsound
  have hlog₁ : Clean L s₁.log := by
    rw [hq.log]
    exact List.forall_mem_nil _
  simp only [headerOf]
  refine (wp_loadFrom_clean _ _ _ _ hsound ⟨m₀, ∅, .of_start hq⟩ hlog₁).mono ?_ fun _ _ he => he
  intro loadEnd s₂ hlog₂
  refine wp_call ?_ fun _ => Or.inl hlog₂
  refine wp_deviceTree.mono ?_ fun e s hlog => Or.inl (by rw [hlog]; exact hlog₂)
  rintro _ s₃ ⟨-, -, -, -, hgrows⟩
  simp only [wp_get, wp_ite, wp_pure]
  exact ⟨fun _ => hlog₂.grows hgrows, fun _ => hlog₂.grows hgrows⟩

end Clean

/-! ## Runs without failures -/

/-- The log is only appended to. -/
def Appends {α : Type} {w : ℕ} (p : Rom w α) : Prop :=
  ∀ s, Wp p s (fun _ s' => s.log <+: s'.log) (fun _ s' => s.log <+: s'.log)

section Appends

variable {α β : Type} {w : ℕ}

theorem Appends.bind {p : Rom w α} {k : α → Rom w β} (hp : Appends p) (hk : ∀ a, Appends (k a)) :
    Appends (p >>= k) := by
  intro s
  rw [wp_bind]
  refine (hp s).mono (fun a s₁ h₁ => ?_) fun _ _ h => h
  exact (hk a s₁).mono (fun _ _ h => h₁.trans h) fun _ _ h => h₁.trans h

theorem appends_pure (a : α) : Appends (pure a : Rom w α) := fun _ => List.prefix_rfl

theorem appends_throw (e : Err) : Appends (throw e : Rom w α) := fun _ => List.prefix_rfl

theorem appends_get : Appends (get : Rom w (St w)) := fun _ => List.prefix_rfl

theorem appends_modify {f : St w → St w} (h : ∀ s, s.log <+: (f s).log) :
    Appends (modify f : Rom w PUnit) := fun s => h s

theorem appends_ite {c : Prop} [Decidable c] {p q : Rom w α} (hp : Appends p) (hq : Appends q) :
    Appends (if c then p else q) := by
  split_ifs
  · exact hp
  · exact hq

theorem appends_guard {c : Prop} {_ : Decidable c} {e : Err} {k : PUnit → Rom w α} (hk : ∀ u, Appends (k u)) :
    Appends (if c then throw e >>= k else k ⟨⟩) := appends_ite ((appends_throw e).bind hk) (hk _)

theorem appends_call : Appends (call fs : Rom w ℕ) := fun _ => wp_call List.prefix_rfl fun _ => List.prefix_rfl

theorem appends_fLseek (ofs : ℕ) : Appends (fLseek fs ofs : Rom w Unit) :=
  appends_call.bind fun _ => appends_modify fun _ => List.prefix_rfl

theorem appends_fRead (n : ℕ) : Appends (fRead fs n : Rom w (List UInt8)) :=
  fun _ => wp_fRead (fun _ _ => List.prefix_rfl) fun _ => List.prefix_rfl

theorem appends_readNum (n : ℕ) : Appends (readNum fs n : Rom w ℕ) :=
  (appends_fRead n).bind fun _ => appends_guard fun _ => appends_pure _

theorem appends_access (x : Access) : Appends (access x : Rom w Unit) :=
  appends_modify fun _ => List.prefix_append _ _

theorem appends_setAlt (alt : Bool) : Appends (setAlt alt : Rom w Unit) := appends_modify fun _ => List.prefix_rfl

theorem appends_store (x : ℕ) (bs : List UInt8) : Appends (store x bs : Rom w Unit) :=
  appends_modify fun _ => List.prefix_rfl

theorem appends_readLoop (seg : Seg) : ∀ fuel addr pos, Appends (readLoop fs L seg fuel addr pos : Rom w (ℕ × ℕ))
  | 0, _, _ => appends_pure _
  | fuel + 1, addr, pos => by
    rw [readLoop]
    refine appends_ite ?_ (appends_pure _)
    refine (appends_setAlt _).bind fun _ => (appends_access _).bind fun _ => (appends_fRead _).bind fun data => ?_
    refine appends_guard fun _ => (appends_store _ _).bind fun _ => ?_
    exact appends_readLoop seg fuel _ _

theorem appends_zeroLoop (seg : Seg) : ∀ fuel addr pos, Appends (zeroLoop L seg fuel addr pos : Rom w Unit)
  | 0, _, _ => appends_pure _
  | fuel + 1, addr, pos => by
    rw [zeroLoop]
    refine appends_ite ?_ (appends_pure _)
    refine (appends_setAlt _).bind fun _ => (appends_access _).bind fun _ => ?_
    exact (appends_store _ _).bind fun _ => appends_zeroLoop seg fuel _ _

theorem appends_segment (seg : Seg) (loadEnd : ℕ) : Appends (segment fs L seg loadEnd : Rom w ℕ) := by
  unfold segment
  refine (appends_access _).bind fun _ => appends_guard fun _ => (appends_fLseek _).bind fun _ => ?_
  exact (appends_readLoop _ _ _ _).bind fun _ => (appends_zeroLoop _ _ _ _).bind fun _ => appends_pure _

theorem appends_programHeader (phoff phentsize i : ℕ) :
    Appends (programHeader fs L phoff phentsize i : Rom w (Option Seg)) := by
  unfold programHeader
  refine (appends_fLseek _).bind fun _ => (appends_readNum _).bind fun pType => appends_ite (appends_pure _) ?_
  refine (appends_get.bind fun _ => appends_pure _).bind fun _ => (appends_fLseek _).bind fun _ => ?_
  refine (appends_readNum _).bind fun _ => (appends_readNum _).bind fun _ => (appends_readNum _).bind fun _ => ?_
  exact (appends_readNum _).bind fun _ => (appends_readNum _).bind fun _ => appends_pure _

theorem appends_loadFrom (phoff phentsize : ℕ) :
    ∀ k i loadEnd, Appends (loadFrom fs L phoff phentsize i k loadEnd : Rom w ℕ)
  | 0, _, _ => appends_pure _
  | k + 1, i, loadEnd => by
    rw [loadFrom]
    refine (appends_programHeader _ _ _).bind fun res => ?_
    cases res with
    | none => exact appends_loadFrom phoff phentsize k (i + 1) loadEnd
    | some seg => exact (appends_segment _ _).bind fun _ => appends_loadFrom phoff phentsize k (i + 1) _

theorem appends_deviceTree (loadEnd : ℕ) : Appends (deviceTree L loadEnd : Rom w ℕ) := by
  unfold deviceTree
  refine appends_guard fun _ => (appends_access _).bind fun _ => ?_
  refine (appends_store _ _).bind fun _ => appends_get.bind fun _ => (appends_access _).bind fun _ => ?_
  refine (appends_store _ _).bind fun _ => (appends_access _).bind fun _ => ?_
  exact (appends_store _ _).bind fun _ => appends_pure _

end Appends

section Whole

variable {file : List UInt8}

theorem whole_call {w : ℕ} {s : St w} {Q : ℕ → St w → Prop} {E : Err → St w → Prop}
    (hQ : Q s.calls { s with calls := s.calls + 1 }) : Wp (call (wholeReads file)) s Q E := hQ

theorem whole_fRead {w n : ℕ} {s : St w} {Q : List UInt8 → St w → Prop} {E : Err → St w → Prop} (hn : n ≤ 0x10000)
    (hQ : Q ((file.drop s.pos).take n)
      { s with calls := s.calls + 1, pos := s.pos + ((file.drop s.pos).take n).length }) :
    Wp (fRead (wholeReads file) n) s Q E := by
  have hmin : min n 0x10000 = n := Nat.min_eq_left hn
  rw [← hmin] at hQ
  exact hQ

theorem whole_seek_at {w ofs : ℕ} {s₀ s : St w} {Q : Unit → St w → Prop} {E : Err → St w → Prop} (hq : Quiet s₀ s)
    (h : ∀ s', s'.pos = min ofs file.length → Quiet s₀ s' → Q () s') : Wp (fLseek (wholeReads file) ofs) s Q E :=
  h { s with calls := s.calls + 1, pos := min ofs file.length } rfl ⟨hq.mem, hq.alt, hq.log⟩

theorem whole_readNum_at {w size ofs : ℕ} {s₀ s : St w} {Q : ℕ → St w → Prop} {E : Err → St w → Prop}
    (hsize : size ≤ 8)
    (hlen : ofs + size ≤ file.length) (hpos : s.pos = ofs) (hq : Quiet s₀ s)
    (h : ∀ s', s'.pos = ofs + size → Quiet s₀ s' → Q (numAt file ofs size) s') :
    Wp (readNum (wholeReads file) size) s Q E := by
  have hfull : ((file.drop ofs).take size).length = size :=
    List.length_take_of_le (by rw [List.length_drop]; omega)
  simp only [readNum, wp_bind, wp_ite, wp_throw, wp_pure]
  refine whole_fRead (by omega) ?_
  rw [hpos, hfull]
  exact ⟨fun hshort => absurd hshort (Nat.lt_irrefl _), fun _ => h _ rfl ⟨hq.mem, hq.alt, hq.log⟩⟩

/-- A program header that is all in the file is read. -/
theorem whole_programHeader {phoff phentsize i : ℕ} {s : St L.xlen}
    (hread : Readable L file (phOfs phoff phentsize i)) :
    Wp (programHeader (wholeReads file) L phoff phentsize i) s
      (fun res s' => res = segAt L file (phOfs phoff phentsize i) ∧ Quiet s s') (fun _ _ => False) := by
  have hb : L.xlen / 8 ≤ 8 := by rcases bytes_xlen L with ⟨h, -⟩ | ⟨h, -⟩ <;> omega
  obtain ⟨hlen, haddrs⟩ := hread
  have hreturns :
      Wp (programHeader (wholeReads file) L phoff phentsize i) s (fun _ _ => True) (fun _ _ => False) := by
    simp only [programHeader, wp_bind, wp_ite, wp_pure]
    refine whole_seek_at (.refl s) fun s₁ hpos₁ hq₁ => ?_
    change s₁.pos = min (phOfs phoff phentsize i) file.length at hpos₁
    rw [Nat.min_eq_left (by omega)] at hpos₁
    refine whole_readNum_at (by omega) hlen hpos₁ hq₁ fun s₂ hpos₂ hq₂ => ⟨fun _ => trivial, fun hload => ?_⟩
    have haddrs := haddrs (not_not.mp hload)
    rw [wp_fTell, hpos₂]
    refine whole_seek_at hq₂ fun s₃ hpos₃ hq₃ => ?_
    change s₃.pos = min (addrOfs L (phOfs phoff phentsize i)) file.length at hpos₃
    rw [Nat.min_eq_left (by omega)] at hpos₃
    refine whole_readNum_at hb (by omega) hpos₃ hq₃ fun s₄ hpos₄ hq₄ => ?_
    refine whole_readNum_at hb (by omega) hpos₄ hq₄ fun s₅ hpos₅ hq₅ => ?_
    refine whole_readNum_at hb (by omega) hpos₅ hq₅ fun s₆ hpos₆ hq₆ => ?_
    refine whole_readNum_at hb (by omega) hpos₆ hq₆ fun s₇ hpos₇ hq₇ => ?_
    exact whole_readNum_at hb (by omega) hpos₇ hq₇ fun _ _ _ => trivial
  exact (wp_programHeader.and hreturns).mono (fun _ _ h => h.1.2) fun _ _ h => h.2

/-- The header of an ELF file is read. -/
theorem whole_elfHeader {s : St L.xlen} (hok : HeaderOk L file) :
    Wp (elfHeader (wholeReads file) L) s (fun res s' => res = headerOf L file ∧ Quiet s s')
      (fun _ _ => False) := by
  have hb : L.xlen / 8 ≤ 8 := by rcases bytes_xlen L with ⟨h, -⟩ | ⟨h, -⟩ <;> omega
  obtain ⟨hlong, hmagic, hbits, hendian⟩ := hok
  have hreturns : Wp (elfHeader (wholeReads file) L) s (fun _ _ => True) (fun _ _ => False) := by
    simp only [elfHeader, fOpen, wp_bind, wp_modify, wp_ite, wp_throw, wp_pure]
    refine whole_call (whole_fRead (by omega) ?_)
    dsimp only
    have htake : (file.take 6).take 4 = file.take 4 := by rw [List.take_take, Nat.min_eq_left (by omega)]
    have hget : ∀ i < 6, (file.take 6).getD i 0 = file.getD i 0 := by
      intro i hi
      rw [List.getD_eq_getElem?_getD, List.getElem?_take_of_lt hi, List.getD_eq_getElem?_getD]
    rw [List.drop_zero, List.length_take, Nat.min_eq_left (by omega), htake, hget 4 (by omega), hget 5 (by omega)]
    refine ⟨fun h => absurd h (by omega), fun _ =>
      ⟨fun h => absurd hmagic h, fun _ => ⟨fun h => absurd hbits h, fun _ =>
      ⟨fun h => absurd hendian h, fun _ => ?_⟩⟩⟩⟩
    refine whole_seek_at (.refl _) fun s₁ hpos₁ hq₁ => ?_
    rw [Nat.min_eq_left (by omega)] at hpos₁
    refine whole_readNum_at hb (by omega) hpos₁ hq₁ fun s₂ hpos₂ hq₂ => ?_
    refine whole_readNum_at hb (by omega) hpos₂ hq₂ fun s₃ hpos₃ hq₃ => ?_
    rw [wp_fTell, hpos₃]
    refine whole_seek_at hq₃ fun s₄ hpos₄ hq₄ => ?_
    rw [Nat.min_eq_left (by omega)] at hpos₄
    refine whole_readNum_at (by omega) (by omega) hpos₄ hq₄ fun s₅ hpos₅ hq₅ => ?_
    exact whole_readNum_at (by omega) (by omega) hpos₅ hq₅ fun _ _ _ => trivial
  exact (wp_elfHeader.and hreturns).mono (fun _ _ h => h.1.2) fun _ _ h => h.2

variable {seg : Seg}

/-- The pieces of a segment in RAM are read, if the file has them all. -/
theorem whole_readLoop (hfine : seg.Fine L) (hlen : min seg.filesz seg.memsz ≤ (file.drop seg.offset).length) :
    ∀ (fuel pos : ℕ) (s : St L.xlen), pos ≤ min seg.filesz seg.memsz → s.pos = min seg.offset file.length + pos →
    Wp (readLoop (wholeReads file) L seg fuel ((seg.vaddr + pos) % 2 ^ L.xlen) pos) s (fun _ _ => True)
      (fun _ _ => False)
  | 0, _, _, _, _ => trivial
  | fuel + 1, pos, s, hpos, hat => by
    rw [readLoop]
    split_ifs with hmore
    · obtain ⟨hsize, hsmall, hsizele⟩ : 0 < min (min 0x10000 (seg.filesz - pos)) (seg.memsz - pos) ∧
          min (min 0x10000 (seg.filesz - pos)) (seg.memsz - pos) ≤ 0x10000 ∧
          pos + min (min 0x10000 (seg.filesz - pos)) (seg.memsz - pos) ≤ min seg.filesz seg.memsz := by omega
      generalize min (min 0x10000 (seg.filesz - pos)) (seg.memsz - pos) = size at hsize hsmall hsizele ⊢
      have hfits : Fits L (seg.vaddr + pos) size := hfine.fits hsize hsmall (by omega)
      have hram := hfits.ram
      have htop := L.base_add_size_le
      obtain ⟨hpiece, hpiecele⟩ := piece_size hfits
      have hmod : (seg.vaddr + pos) % 2 ^ L.xlen = seg.vaddr + pos := Nat.mod_eq_of_lt (by omega)
      simp only [hmod, setAlt, access, store, wp_bind, wp_modify, wp_ite, wp_throw]
      refine whole_fRead (by omega) ?_
      dsimp only
      rw [hat, drop_min_add]
      generalize hdata : ((file.drop seg.offset).drop pos).take (piece L (seg.vaddr + pos) size).size = data
      have hdlen : data.length = (piece L (seg.vaddr + pos) size).size := by
        rw [← hdata, List.length_take, List.length_drop]
        omega
      refine ⟨fun hzero => by omega, fun _ => ?_⟩
      rw [Nat.add_assoc]
      exact whole_readLoop hfine hlen fuel (pos + data.length) _ (by omega) (by dsimp only; omega)
    · trivial

theorem zeroLoop_returns {w : ℕ} : ∀ (fuel addr pos : ℕ) (s : St w),
    Wp (zeroLoop L seg fuel addr pos) s (fun _ _ => True) (fun _ _ => False)
  | 0, _, _, _ => trivial
  | fuel + 1, addr, pos, s => by
    rw [zeroLoop]
    split_ifs
    · simp only [setAlt, access, store, wp_bind, wp_modify]
      exact zeroLoop_returns fuel _ _ _
    · trivial

/-- A segment in RAM is loaded, if the file has all of it. -/
theorem whole_segment {loadEnd : ℕ} {s : St L.xlen} (hfine : seg.Fine L)
    (hlen : min seg.filesz seg.memsz ≤ (file.drop seg.offset).length) :
    Wp (segment (wholeReads file) L seg loadEnd) s (fun _ _ => True) (fun _ _ => False) := by
  have hvaddr : (seg.vaddr + 0) % 2 ^ L.xlen = seg.vaddr := Nat.mod_eq_of_lt hfine.lt
  have hread := whole_readLoop hfine hlen (min seg.filesz seg.memsz) 0
  rw [hvaddr] at hread
  simp only [segment, access, wp_bind, wp_modify, wp_ite, wp_throw, wp_pure]
  refine ⟨fun h => h hfine.inRam.accepts, fun _ => whole_seek_at (.refl _) fun s₁ hpos₁ _ => ?_⟩
  refine (hread s₁ (Nat.zero_le _) hpos₁).mono (fun res s₂ _ => ?_) fun _ _ h => h
  exact zeroLoop_returns _ _ _ _

/-- A segment outside RAM is in the log and something comes after it. -/
def Bad (L : Layout) (log : List Access) : Prop :=
  ∃ pre seg x post, log = pre ++ .segment seg :: x :: post ∧ ¬ seg.InRam L

theorem Bad.grow {l l' : List Access} (h : Bad L l) (hl : l <+: l') : Bad L l' := by
  obtain ⟨pre, seg, x, post, rfl, hseg⟩ := h
  obtain ⟨xs, rfl⟩ := hl
  exact ⟨pre, seg, x, post ++ xs, by simp, hseg⟩

theorem Bad.not_refuses {outcome : Option Err} {log : List Access} (h : Bad L log) : ¬ Refuses L outcome log := by
  obtain ⟨pre, seg, x, post, hlog, hseg⟩ := h
  intro hr
  exact absurd (hr pre seg (x :: post) hlog hseg).1 (List.cons_ne_nil _ _)

/-- What is done after a bad log leaves it bad. -/
theorem Appends.bad {α : Type} {p : Rom L.xlen α} (hp : Appends p) {s : St L.xlen} (hbad : Bad L s.log) :
    Wp p s (fun _ s' => Bad L s'.log) (fun _ s' => Bad L s'.log) :=
  (hp s).mono (fun _ _ h => hbad.grow h) fun _ _ h => hbad.grow h

/-- A segment that passes the check by wrapping is not refused. -/
theorem whole_segment_bad {loadEnd : ℕ} {s : St L.xlen} (hlt : seg.vaddr < 2 ^ L.xlen) (hacc : Accepts L seg)
    (hnot : ¬ seg.InRam L) :
    Wp (segment (wholeReads file) L seg loadEnd) s (fun _ s' => Bad L s'.log) (fun _ s' => Bad L s'.log) := by
  have hwrap := mt hacc.inRam_iff.mpr hnot
  have hle : 2 ^ L.xlen ≤ 2 ^ 64 := Nat.pow_le_pow_right (by omega) (by rcases L.xlen_eq with h | h <;> omega)
  obtain ⟨k, hk⟩ : ∃ k, seg.memsz = k + 1 := ⟨seg.memsz - 1, by omega⟩
  have hbad : ∀ {l : List Access} (x : Access), l = s.log ++ [.segment seg] → Bad L (l ++ [x]) := by
    rintro l x rfl
    exact ⟨s.log, seg, x, [], by simp, hnot⟩
  have hzero : ∀ addr pos (s₁ : St L.xlen), s₁.log = s.log ++ [.segment seg] → pos = 0 →
      Wp (zeroLoop L seg seg.memsz addr pos) s₁ (fun _ s' => Bad L s'.log) (fun _ s' => Bad L s'.log) := by
    rintro addr _ s₁ hlog rfl
    rw [hk, zeroLoop, if_pos (by omega)]
    simp only [setAlt, access, store, wp_bind, wp_modify]
    exact (appends_zeroLoop _ _ _ _).bad (hbad _ hlog)
  simp only [segment, access, wp_bind, wp_modify, wp_ite, wp_throw, wp_pure]
  refine ⟨fun h => absurd hacc h, fun _ => whole_seek_at (.refl _) fun s₁ _ hq => ?_⟩
  cases hfuel : min seg.filesz seg.memsz with
  | zero => exact hzero _ _ s₁ hq.log rfl
  | succ fuel =>
    rw [readLoop, if_pos (by omega)]
    simp only [setAlt, access, wp_bind, wp_modify]
    refine ((appends_fRead _).bad (hbad _ hq.log)).mono (fun data s₂ hbad₂ => ?_) fun _ _ h => h
    simp only [wp_ite, wp_throw, wp_bind]
    refine ⟨fun _ => hbad₂, fun _ => ?_⟩
    refine ((appends_store _ _).bad hbad₂).mono (fun _ s₃ hbad₃ => ?_) fun _ _ h => h
    refine ((appends_readLoop _ _ _ _).bad hbad₃).mono (fun res s₄ hbad₄ => ?_) fun _ _ h => h
    exact (appends_zeroLoop _ _ _ _).bad hbad₄

/-- **The loop over the program headers**, where a segment passes the check by wrapping. -/
theorem whole_loadFrom {phoff phentsize : ℕ} : ∀ (k i loadEnd : ℕ) (s : St L.xlen),
    ¬ Sound L (arrivalsFrom L file phoff phentsize i k) →
    Wp (loadFrom (wholeReads file) L phoff phentsize i k loadEnd) s (fun _ s' => Bad L s'.log)
      (fun _ s' => Bad L s'.log)
  | 0, _, _, _, hnot => absurd (List.forall_mem_nil _) hnot
  | k + 1, i, loadEnd, s, hnot => by
    rw [arrivalsFrom] at hnot
    split_ifs at hnot with hread
    swap
    · exact absurd (List.forall_mem_nil _) hnot
    rw [loadFrom]
    simp only [wp_bind]
    refine (whole_programHeader hread).mono ?_ fun _ _ h => h.elim
    rintro res s₁ ⟨rfl, -⟩
    cases hseg : segAt L file (phOfs phoff phentsize i) with
    | none =>
      rw [hseg] at hnot
      exact whole_loadFrom k (i + 1) loadEnd s₁ hnot
    | some seg =>
      rw [hseg] at hnot
      dsimp only at hnot
      simp only [wp_bind]
      have hlt := (segAt_lt hseg).1
      by_cases hone : Accepts L seg → seg.InRam L
      · -- the segment that wraps comes later
        split_ifs at hnot with hon
        · have hlater : ¬ Sound L (arrivalsFrom L file phoff phentsize (i + 1) k) := fun hc =>
            hnot (List.forall_mem_cons.mpr ⟨hone, hc⟩)
          refine (whole_segment ⟨hlt, hone hon.1⟩ hon.2).mono (fun loadEnd' s₂ _ => ?_) fun _ _ h => h.elim
          exact whole_loadFrom k (i + 1) loadEnd' s₂ hlater
        · exact absurd (List.forall_mem_cons.mpr ⟨hone, List.forall_mem_nil _⟩) hnot
      · obtain ⟨hacc, hout⟩ := Classical.not_imp.mp hone
        refine (whole_segment_bad hlt hacc hout).mono (fun loadEnd' s₂ hbad => ?_) fun _ _ h => h
        exact (appends_loadFrom _ _ _ _ _).bad hbad

theorem whole_download {m₀ : Mem L.xlen} {alt : Bool} (hnot : ¬ Sound L (arrivals L file)) :
    Wp (download (wholeReads file) L) (start m₀ alt) (fun _ s => Bad L s.log) (fun _ s => Bad L s.log) := by
  rw [arrivals] at hnot
  split_ifs at hnot with hheader
  swap
  · exact absurd (List.forall_mem_nil _) hnot
  simp only [download, fClose, wp_bind]
  refine (whole_elfHeader hheader).mono ?_ fun _ _ h => h.elim
  rintro _ s₁ ⟨rfl, -⟩
  simp only [headerOf]
  refine (whole_loadFrom _ _ _ _ hnot).mono (fun loadEnd s₂ hbad => ?_) fun _ _ h => h
  refine (appends_call.bad hbad).mono (fun _ s₃ hbad₃ => ?_) fun _ _ h => h
  refine ((appends_deviceTree _).bad hbad₃).mono (fun _ s₄ hbad₄ => ?_) fun _ _ h => h
  simp only [wp_get, wp_ite, wp_pure]
  exact ⟨fun _ => hbad₄, fun _ => hbad₄⟩

end Whole

/-! ## All files -/

/-- **Confinement.**  A file is safe exactly when no segment that loading comes to passes the check by wrapping.
On RV32 none can. -/
theorem safe_iff (L : Layout) (file : List UInt8) :
    (Safe L file ↔ ∀ seg ∈ arrivals L file, Accepts L seg → seg.vaddr + seg.memsz < 2 ^ 64) ∧
      (L.xlen = 32 → Safe L file) := by
  have hsound : (∀ seg ∈ arrivals L file, Accepts L seg → seg.vaddr + seg.memsz < 2 ^ 64) ↔
      Sound L (arrivals L file) :=
    forall₂_congr fun seg _ => forall_congr' fun hacc => hacc.inRam_iff.symm
  have hiff : Safe L file ↔ Sound L (arrivals L file) := by
    constructor
    · intro hsafe
      by_contra hnot
      have hrun := (hsafe (wholeReads file) rfl (fun _ => 0) false).and (whole_download hnot)
      unfold Wp at hrun
      split at hrun
      · exact hrun.2.not_refuses hrun.1.2
      · exact hrun.2.not_refuses hrun.1.2
    · rintro h fs rfl mem alt
      exact (wp_download_clean h).mono (fun _ _ hlog => Ends.safe (Or.inl hlog)) fun _ _ he => he.safe
  refine ⟨hiff.trans hsound.symm, fun hxlen => hiff.mpr fun seg hseg hacc => hacc.inRam_iff.mpr ?_⟩
  obtain ⟨hvaddr, hmemsz⟩ := lt_of_mem_arrivals hseg
  rw [hxlen] at hvaddr hmemsz
  omega

/-- The same RAM, on RV64. -/
def ram64 : Layout where
  xlen := 64
  base := 0x80000000
  size := 0x80000000
  memEnd := 0x80008000
  memAlt := 0xffff6000
  dtb := [0xd0, 0x0d, 0xfe, 0xed, 0, 0, 0, 40] ++ List.replicate 32 0
  xlen_eq := Or.inr rfl
  addressable := by decide
  own := full32.own
  words := full32.words
  top := full32.top
  room := full32.room
  header := full32.header
  packed := full32.packed

/-- A segment from the last 32 KiB of RAM on, to the end of the address space. -/
def wrap64 : List UInt8 := elfOf 64 0x80000000 [⟨0, 0xffff8000, 2 ^ 64 - 0xffff8000, 2 ^ 64 - 0xffff8000⟩]

/-- The log a program leaves. -/
def logOf {w : ℕ} {α : Type} : EStateM.Result Err (St w) α → List Access
  | .ok _ s => s.log
  | .error _ s => s.log

theorem Safe.confined {file : List UInt8} (h : Safe L file) (hfs : fs.file = file)
    (mem : Mem L.xlen) (alt : Bool) :
    Confined L (logOf (download fs L (start mem alt))) := by
  have hrun := h fs hfs mem alt
  unfold Wp at hrun
  generalize download fs L (start mem alt) = res at hrun ⊢
  cases res with
  | ok a s => exact hrun.1
  | error e s => exact hrun.1

/-- A read of 64 KiB goes to the last 32 KiB of RAM. -/
theorem wrap64_not_safe :
    .read 0xffff8000 0x10000 ∈ logOf (download (wholeReads wrap64) ram64 (start (fun _ => 0) false)) ∧
    ¬ Safe ram64 wrap64 := by
  have hread :
      .read 0xffff8000 0x10000 ∈ logOf (download (wholeReads wrap64) ram64 (start (fun _ => 0) false)) := by
    decide +kernel
  refine ⟨hread, fun hsafe => ?_⟩
  rcases hsafe.confined rfl _ _ _ hread with ⟨seg, hseg⟩ | hin
  · exact absurd hseg nofun
  · exact absurd hin.2 (by decide)

end Soceteer.Boot
