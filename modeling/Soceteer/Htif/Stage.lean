import Soceteer.Htif.Mailbox

/-!
# Soceteer.Htif.Stage — where the command of the lock's holder is

* `Phase`, `Stage`: the way of a command, from `tohost` to the return of its call.
* `Inv`: the harts, the host, the mailbox, the buffers and the log at each stage.
* `Move`, `step_moves`: everything a step can do as long as no probe gives up.
* `Move.inv`: the invariant is kept.
-/

namespace Soceteer.Htif

open Soceteer.Lib

variable {H : Type}

/-! ## Commands -/

namespace Call

/-- The command a call posts. -/
def slot (c : Call) : Word := htifTohost 0 0 (BitVec.ofNat 64 c.buf)

variable (c : Call)

theorem slot_eq : c.slot = BitVec.ofNat 64 c.buf &&& BitVec.ofNat 64 (2 ^ 48 - 1) := by
  rw [slot, htifTohost]
  exact BitVec.zero_or

theorem toNat_slot : c.slot.toNat = c.buf := by
  have hfits := c.fits
  rw [slot_eq, BitVec.toNat_and, BitVec.toNat_ofNat, BitVec.toNat_ofNat,
    Nat.mod_eq_of_lt (show 2 ^ 48 - 1 < 2 ^ 64 by decide), Nat.and_two_pow_sub_one_eq_mod,
    Nat.mod_eq_of_lt (show c.buf < 2 ^ 64 by omega), Nat.mod_eq_of_lt (by omega)]

theorem slot_ne_zero : c.slot ≠ 0 := by
  intro h
  have hnat := congrArg BitVec.toNat h
  have hpos := c.pos
  rw [toNat_slot] at hnat
  change c.buf = 0 at hnat
  omega

theorem slot_shift {n : ℕ} (hn : 48 ≤ n) : c.slot >>> n = 0 := by
  apply BitVec.eq_of_toNat_eq
  have hfits := c.fits
  have hpow : 2 ^ 48 ≤ 2 ^ n := Nat.pow_le_pow_right (by omega) hn
  rw [BitVec.toNat_ushiftRight, toNat_slot, Nat.shiftRight_eq_div_pow, Nat.div_eq_of_lt (by omega)]
  rfl

theorem device_slot : (Cmd.device c.slot).toNat = 0 := by
  rw [Cmd.device, c.slot_shift (by decide)]
  rfl

theorem cmd_slot : Cmd.cmd c.slot = 0 := by
  rw [Cmd.cmd, c.slot_shift (by decide)]
  rfl

theorem payload_slot : (Cmd.payload c.slot).toNat = c.buf := by
  have hfits := c.fits
  rw [Cmd.payload, BitVec.toNat_ushiftRight, BitVec.toNat_shiftLeft, toNat_slot, Nat.shiftLeft_eq,
    Nat.shiftRight_eq_div_pow, Nat.mod_eq_of_lt (by omega), Nat.mul_div_cancel _ (by decide)]

theorem respond_slot : Cmd.respond c.slot 1 = 1 := by
  rw [Cmd.respond, c.slot_shift (by decide)]
  rfl

theorem word_eq (i : Fin 8) : (Cmd.payload c.slot).toNat + 8 * i = c.word i := by rw [payload_slot, word]

theorem word_inj {i j : Fin 8} (h : c.word i = c.word j) : i = j := by
  unfold word at h
  omega

theorem Apart.word_ne {c c' : Call} (h : c.Apart c') (i j : Fin 8) : c.word i ≠ c'.word j := by
  have hbuf := h.1
  unfold word
  omega

theorem Apart.symm {c c' : Call} (h : c.Apart c') : c'.Apart c := ⟨Or.symm h.1, h.2.2, h.2.1⟩

end Call

/-! ## Areas -/

namespace Area

variable {d : Area} {a : ℕ}

/-- A word of the area is none of a buffer that the area does not meet. -/
theorem Meets.word_ne {c : Call} (h : d.Meets a 8) (hc : ¬ d.Meets c.buf 64) (i : Fin 8) : a ≠ c.word i := by
  have hi := i.isLt
  rintro rfl
  unfold Meets Call.word at h
  unfold Meets at hc
  omega

theorem Meets.ne {b : ℕ} (h : d.Meets a 8) (hb : ¬ d.Meets b 8) : a ≠ b := by
  rintro rfl
  exact hb h

end Area

/-- A store into an area that is clear of the shared words goes to memory. -/
theorem Sys.poke_of_clear {s : Sys H} {d : Area} {a : ℕ} (hd : s.words.Clear d) (ha : d.Meets a 8) (v : Word) :
    s.poke a v = s.store a v := by
  rw [Sys.poke, if_neg (ha.ne hd.1), if_neg (ha.ne hd.2.1), if_neg (ha.ne hd.2.2)]

/-! ## Where the command of the lock's holder is -/

/-- Posted, noticed by the host, being read, handled, in the queue, in `fromhost`, seen there by the hart, and
taken. -/
inductive Phase
  | posted
  | seen
  | handling
  | served
  | queued
  | answered
  | acking
  | leaving

namespace Phase

def tohost : Phase → Call → Word
  | posted, c => c.slot
  | seen, c => c.slot
  | _, _ => 0

def fromhost : Phase → Word
  | answered => 1
  | acking => 1
  | _ => 0

def queue : Phase → List Word
  | queued => [1]
  | _ => []

/-- Where the hart of a call that waits is. -/
def pc : Phase → Call → ℕ → Hart
  | acking, c, k => .ack c k
  | leaving, c, k => .unlock c k true
  | _, c, k => .spin c k

/-- Where the hart may be: a probe looks at the clock as well, and gives up when its time is up. -/
def hartAt (ph : Phase) (c : Call) (k : ℕ) (p : Hart) : Prop :=
  p = ph.pc c k ∨ ph.pc c k = .spin c k ∧ c.wait = false ∧ (p = .clock c k ∨ p = .unlock c k false)

/-- How many commands have been handled when command `k` is in this phase. -/
def handled : Phase → ℕ → ℕ
  | posted, k => k
  | seen, k => k
  | handling, k => k
  | _, k => k + 1

/-- How many responses have been taken. -/
def acked : Phase → ℕ → ℕ
  | leaving, k => k + 1
  | _, k => k

end Phase

/-- The lock is free, its holder has not posted yet, or its holder's command is on its way. -/
inductive Stage (H : Type)
  | free
  | ready (h : H) (c : Call)
  | busy (ph : Phase) (h : H) (c : Call) (k : ℕ)

/-- Inside the critical section. -/
def Hart.inside : Hart → Prop
  | .post _ => True
  | .spin _ _ => True
  | .clock _ _ => True
  | .ack _ _ => True
  | .unlock _ _ _ => True
  | _ => False

namespace Stage

def lock : Stage H → Bool
  | free => false
  | _ => true

def tohost : Stage H → Word
  | busy ph _ c _ => ph.tohost c
  | _ => 0

def fromhost : Stage H → Word
  | busy ph _ _ _ => ph.fromhost
  | _ => 0

def queue : Stage H → List Word
  | busy ph _ _ _ => ph.queue
  | _ => []

/-- Where hart `h` may be. -/
def hartAt : Stage H → H → Hart → Prop
  | free, _, p => ¬ p.inside
  | ready h₀ c, h, p => (h = h₀ → p = .post c) ∧ (h ≠ h₀ → ¬ p.inside)
  | busy ph h₀ c k, h, p => (h = h₀ → ph.hartAt c k p) ∧ (h ≠ h₀ → ¬ p.inside)

/-- How the numbers of commands, results and responses compare. -/
def counts : Stage H → Log → Prop
  | busy ph _ c k, l => l.posted[k]? = some c ∧ l.posted.length = k + 1 ∧ l.handled.length = ph.handled k ∧
      l.acked = List.range (ph.acked k)
  | _, l => l.handled.length = l.posted.length ∧ l.acked = List.range l.posted.length

end Stage

/-- The host waits for a command, or has ended. -/
def Host.waiting : Host → Prop
  | .head => True
  | .checkFrom => True
  | .decide _ => True
  | .done => True
  | .crashed => True
  | _ => False

/-- The buffer holds the arguments. -/
def Filled (mem : ℕ → Word) (c : Call) : Prop := ∀ j, mem (c.word j) = c.args j

/-- The buffer's first word is the result of the command. -/
def Answered (l : Log) (mem : ℕ → Word) (c : Call) (k : ℕ) : Prop :=
  l.posted[k]? = some c ∧ l.handled[k]? = some (c.args, mem (c.word 0))

theorem getElem?_mono {α : Type} {xs ys : List α} {k : ℕ} {x : α} (h : xs <+: ys) (hk : xs[k]? = some x) :
    ys[k]? = some x := by
  obtain ⟨zs, rfl⟩ := h
  rw [List.getElem?_append_left (List.getElem?_eq_some_iff.mp hk).1, hk]

theorem Answered.frame {l l' : Log} {mem mem' : ℕ → Word} {c : Call} {k : ℕ} (h : Answered l mem c k)
    (hmem : mem' (c.word 0) = mem (c.word 0)) (hpost : l.posted <+: l'.posted) (hhand : l.handled <+: l'.handled) :
    Answered l' mem' c k :=
  ⟨getElem?_mono hpost h.1, by rw [hmem]; exact getElem?_mono hhand h.2⟩

/-- The buffers of the harts outside the critical section, and of those on their way into it. -/
def Kept (l : Log) (mem : ℕ → Word) : Hart → Prop
  | .fill c i => ∀ j < i, mem (c.word j) = c.args j
  | .lock c => Filled mem c
  | .post c => Filled mem c
  | .ret c k => Answered l mem c k
  | _ => True

/-- The host and the buffer of the command in each phase. -/
def Phase.Holds : Phase → Call → ℕ → Log → (ℕ → Word) → Host → Prop
  | posted, c, _, _, mem, p => Filled mem c ∧ p.waiting
  | seen, c, _, _, mem, p => Filled mem c ∧ p = .clear c.slot
  | handling, c, _, _, mem, p => Filled mem c ∧
      ((∃ i m, p = .read c.slot i m ∧ ∀ j < i, m j = c.args j) ∨ p = .serve c.slot c.args ∨
        p = .crashed ∧ (c.args 0).setWidth 32 ≠ devTest)
  | served, c, k, l, mem, p => ∃ r, l.handled[k]? = some (c.args, r) ∧
      ((∃ i, p = .write c.slot i (Function.update c.args 0 r) ∧ (i ≠ 0 → mem (c.word 0) = r)) ∨
        p = .respond c.slot ∧ mem (c.word 0) = r)
  | queued, c, k, l, mem, p => Answered l mem c k ∧ (p = .checkFrom ∨ p = .decide 0)
  | _, c, k, l, mem, p => Answered l mem c k ∧ p.waiting

def Stage.Holds : Stage H → Log → (ℕ → Word) → Host → Prop
  | .busy ph _ c k, l, mem, p => ph.Holds c k l mem p
  | _, _, _, p => p.waiting

/-- What has been handled is what was posted, and what was returned is what was handled. -/
structure LogOk (l : Log) : Prop where
  handled : l.handled.map Prod.fst <+: l.posted.map Call.args
  returned : ∀ k c v, (k, c, v) ∈ l.returned → l.posted[k]? = some c ∧ l.handled[k]? = some (c.args, v)

/-- The number of commands whose calls have left the critical section. -/
def Stage.left : Stage H → Log → ℕ
  | .busy _ _ _ k, _ => k
  | _, l => l.posted.length

/-- Every call that has left returns once. -/
structure Fresh (n : ℕ) (hart : H → Hart) (returned : List (ℕ × Call × Word)) : Prop where
  lt : ∀ h c k, hart h = .ret c k → k < n
  inj : ∀ h h' c c' k, hart h = .ret c k → hart h' = .ret c' k → h = h'
  new : ∀ h c k, hart h = .ret c k → k ∉ returned.map Prod.fst
  old : ∀ k ∈ returned.map Prod.fst, k < n
  nodup : (returned.map Prod.fst).Nodup

structure Inv (g : Stage H) (s : Sys H) : Prop where
  lock : s.lock = g.lock
  tohost : s.tohost = g.tohost
  fromhost : s.fromhost = g.fromhost
  queue : s.queue = g.queue
  hart : ∀ h, g.hartAt h (s.hart h)
  apart : ∀ h h' c c', h ≠ h' → (s.hart h).call? = some c → (s.hart h').call? = some c' → c.Apart c'
  own : ∀ h c, (s.hart h).call? = some c → c.Private s.words
  kept : ∀ h, Kept s.log s.mem (s.hart h)
  host : g.Holds s.log s.mem s.host
  counts : g.counts s.log
  log : LogOk s.log
  fresh : Fresh (g.left s.log) s.hart s.log.returned

theorem inv_init (words : Words) (mem : ℕ → Word) : Inv .free (init H words mem) where
  lock := rfl
  tohost := rfl
  fromhost := rfl
  queue := rfl
  hart := fun _ => id
  apart := nofun
  own := nofun
  kept := fun _ => trivial
  host := trivial
  counts := ⟨rfl, rfl⟩
  log := ⟨List.nil_prefix, nofun⟩
  fresh := ⟨nofun, nofun, nofun, nofun, List.nodup_nil⟩

/-! ## Places -/

/-- The place after a store into the buffer. -/
def Call.filling (c : Call) (i : Fin 8) : Hart := if hi : i.val + 1 < 8 then .fill c ⟨i + 1, hi⟩ else .lock c

/-- The place after a load from the buffer. -/
def Call.reading (c : Call) (i : Fin 8) (m : Fin 8 → Word) : Host :=
  if hi : i.val + 1 < 8 then .read c.slot ⟨i + 1, hi⟩ m else .serve c.slot m

/-- The place after the host's store into the buffer. -/
def Call.writing (c : Call) (i : Fin 8) (m : Fin 8 → Word) : Host :=
  if hi : i.val + 1 < 8 then .write c.slot ⟨i + 1, hi⟩ m else .respond c.slot

/-! ## Frames -/

section Frames

variable {s : Sys H} {g : Stage H}

/-- The stage of a hart inside the critical section. -/
theorem Inv.inside {h : H} {p : Hart} (hi : Inv g s) (hp : s.hart h = p) (hin : p.inside) :
    (∃ c, g = .ready h c ∧ p = .post c) ∨ ∃ ph c k, g = .busy ph h c k ∧ ph.hartAt c k p := by
  have hart := hi.hart h
  rw [hp] at hart
  cases g with
  | free => exact absurd hin hart
  | ready h₀ c =>
    by_cases hh : h = h₀
    · subst hh
      exact Or.inl ⟨c, rfl, hart.1 rfl⟩
    · exact absurd hin (hart.2 hh)
  | busy ph h₀ c k =>
    by_cases hh : h = h₀
    · subst hh
      exact Or.inr ⟨ph, c, k, rfl, hart.1 rfl⟩
    · exact absurd hin (hart.2 hh)

theorem Phase.hartAt.inside {ph : Phase} {c : Call} {k : ℕ} {p : Hart} (h : ph.hartAt c k p) :
    p.inside ∧ p.call? = some c := by
  rcases h with rfl | ⟨-, -, rfl | rfl⟩
  · cases ph <;> exact ⟨trivial, rfl⟩
  · exact ⟨trivial, rfl⟩
  · exact ⟨trivial, rfl⟩

/-- The stage of a hart that waits for its response. -/
theorem Inv.spin {h : H} {c : Call} {k : ℕ} (hi : Inv g s) (hp : s.hart h = .spin c k) :
    ∃ ph, g = .busy ph h c k ∧ ph.pc c k = .spin c k := by
  obtain ⟨c', -, hc⟩ | ⟨ph, c', k', rfl, hat⟩ := hi.inside hp trivial
  · cases hc
  · obtain hpc | ⟨-, -, hc | hc⟩ := hat
    · cases ph <;> cases hpc <;> exact ⟨_, rfl, rfl⟩
    · cases hc
    · cases hc

/-- The stage of a probe that looks at the clock. -/
theorem Inv.probing {h : H} {c : Call} {k : ℕ} {p : Hart} (hi : Inv g s) (hp : s.hart h = p)
    (hc : p = .clock c k ∨ p = .unlock c k false) :
    ∃ ph, g = .busy ph h c k ∧ ph.pc c k = .spin c k ∧ c.wait = false := by
  obtain ⟨c', -, hpost⟩ | ⟨ph, c', k', rfl, hat⟩ := hi.inside hp (by rcases hc with rfl | rfl <;> trivial)
  · rcases hc with rfl | rfl <;> cases hpost
  · obtain hpc | ⟨hpc, hw, hp' | hp'⟩ := hat
    · rcases hc with rfl | rfl <;> cases ph <;> cases hpc
    · rcases hc with rfl | rfl <;> cases hp'
      exact ⟨ph, rfl, hpc, hw⟩
    · rcases hc with rfl | rfl <;> cases hp'
      exact ⟨ph, rfl, hpc, hw⟩

/-- The host is at work on a command. -/
theorem Stage.Holds.working {l : Log} {mem : ℕ → Word} {p : Host} (h : g.Holds l mem p) (hw : ¬ p.waiting) :
    ∃ ph h₀ c k, g = .busy ph h₀ c k ∧ (ph = .seen ∨ ph = .handling ∨ ph = .served) := by
  cases g with
  | free => exact absurd h hw
  | ready h₀ c => exact absurd h hw
  | busy ph h₀ c k =>
    refine ⟨ph, h₀, c, k, rfl, ?_⟩
    cases ph with
    | posted => exact absurd h.2 hw
    | seen => exact Or.inl rfl
    | handling => exact Or.inr (Or.inl rfl)
    | served => exact Or.inr (Or.inr rfl)
    | queued =>
      obtain ⟨-, rfl | rfl⟩ := h <;> exact absurd trivial hw
    | answered => exact absurd h.2 hw
    | acking => exact absurd h.2 hw
    | leaving => exact absurd h.2 hw

/-- What the host does when it is at work tells the phase of the command. -/
theorem Stage.Holds.doing {l : Log} {mem : ℕ → Word} {p : Host} (h : g.Holds l mem p)
    (hw : ¬ p.waiting) : ∃ h₀ c k,
    (g = .busy .seen h₀ c k ∧ p = .clear c.slot) ∨
    (g = .busy .handling h₀ c k ∧ ((∃ i m, p = .read c.slot i m) ∨ p = .serve c.slot c.args ∨ p = .crashed)) ∨
    (g = .busy .served h₀ c k ∧ ((∃ i m, p = .write c.slot i m) ∨ p = .respond c.slot)) := by
  obtain ⟨ph, h₀, c, k, rfl, rfl | rfl | rfl⟩ := h.working hw
  · exact ⟨h₀, c, k, Or.inl ⟨rfl, h.2⟩⟩
  · refine ⟨h₀, c, k, Or.inr (Or.inl ⟨rfl, ?_⟩)⟩
    obtain ⟨-, ⟨i, m, hv, -⟩ | hv | ⟨hv, -⟩⟩ := h
    · exact Or.inl ⟨i, m, hv⟩
    · exact Or.inr (Or.inl hv)
    · exact Or.inr (Or.inr hv)
  · refine ⟨h₀, c, k, Or.inr (Or.inr ⟨rfl, ?_⟩)⟩
    obtain ⟨r, -, ⟨i, hv, -⟩ | ⟨hv, -⟩⟩ := h
    · exact Or.inl ⟨i, _, hv⟩
    · exact Or.inr hv

/-- The host notices a command, and is not at work on another. -/
theorem Inv.noticed (hi : Inv g s) (hw : s.host.waiting) (ht : s.tohost ≠ 0) :
    ∃ h c k, g = .busy .posted h c k ∧ s.tohost = c.slot := by
  have hhost := hi.host
  rw [hi.tohost] at ht ⊢
  cases g with
  | busy ph h c k =>
    cases ph with
    | posted => exact ⟨h, c, k, rfl, rfl⟩
    | seen =>
      rw [hhost.2] at hw
      exact absurd hw id
    | _ => exact absurd rfl ht
  | _ => exact absurd rfl ht

/-- The command that is handled is the one on its way. -/
theorem Inv.serving {v : Word} {m : Fin 8 → Word} (hi : Inv g s) (hp : s.host = .serve v m) :
    ∃ h c k, g = .busy .handling h c k ∧ v = c.slot ∧ m = c.args := by
  have hhost := hi.host
  rw [hp] at hhost
  obtain ⟨h, c, k, ⟨rfl, hv⟩ | ⟨rfl, ⟨i, m, hv⟩ | hv | hv⟩ | ⟨rfl, ⟨i, m, hv⟩ | hv⟩⟩ := hhost.doing id <;> cases hv
  exact ⟨h, c, k, rfl, rfl, rfl⟩

/-- A store into the buffer of another hart's call. -/
theorem Inv.store_other (hi : Inv g s) {h h' : H} {c c' : Call} (hne : h' ≠ h) (hc : (s.hart h).call? = some c)
    (hc' : (s.hart h').call? = some c') (i j : Fin 8) (v : Word) :
    Function.update s.mem (c.word i) v (c'.word j) = s.mem (c'.word j) :=
  Function.update_of_ne ((hi.apart h' h c' c hne hc' hc).word_ne j i) _ _

/-- What the call of the command on its way names is not in the buffer of any call in progress. -/
theorem Inv.area_clear {ph : Phase} {h h' : H} {c c' : Call} {k : ℕ} (hi : Inv (.busy ph h c k) s)
    (hc' : (s.hart h').call? = some c') : ¬ c.area.Meets c'.buf 64 := by
  have hat : ph.hartAt c k (s.hart h) := (hi.hart h).1 rfl
  have hc := hat.inside.2
  by_cases hh : h' = h
  · subst hh
    rw [hc] at hc'
    cases hc'
    exact (hi.own h' c hc).2.2.1
  · exact (hi.apart h h' c c' (Ne.symm hh) hc hc').2.1

/-- A store of the handler of the command on its way. -/
theorem Inv.store_data {ph : Phase} {h h' : H} {c c' : Call} {k a : ℕ} (hi : Inv (.busy ph h c k) s)
    (ha : c.area.Meets a 8) (hc' : (s.hart h').call? = some c') (j : Fin 8) (v : Word) :
    Function.update s.mem a v (c'.word j) = s.mem (c'.word j) :=
  Function.update_of_ne (ha.word_ne (hi.area_clear hc') j).symm _ _

/-- The command on its way is not affected by what happens to other buffers. -/
theorem Phase.Holds.frame {ph : Phase} {c : Call} {k : ℕ} {l l' : Log} {mem mem' : ℕ → Word} {p : Host}
    (h : ph.Holds c k l mem p) (hmem : ∀ j, mem' (c.word j) = mem (c.word j)) (hpost : l'.posted = l.posted)
    (hhand : l'.handled = l.handled) : ph.Holds c k l' mem' p := by
  have hans : Answered l mem c k → Answered l' mem' c k := fun ha =>
    ha.frame (hmem 0) (by rw [hpost]) (by rw [hhand])
  cases ph with
  | posted => exact ⟨fun j => (hmem j).trans (h.1 j), h.2⟩
  | seen => exact ⟨fun j => (hmem j).trans (h.1 j), h.2⟩
  | handling => exact ⟨fun j => (hmem j).trans (h.1 j), h.2⟩
  | served =>
    obtain ⟨r, hr, hw⟩ := h
    refine ⟨r, by rw [hhand, hr], ?_⟩
    rwa [hmem 0]
  | _ => exact ⟨hans h.1, h.2⟩

theorem Stage.Holds.frame {l l' : Log} {mem mem' : ℕ → Word} {p : Host} (h : g.Holds l mem p)
    (hmem : ∀ ph h₀ c k, g = .busy ph h₀ c k → ∀ j, mem' (c.word j) = mem (c.word j))
    (hpost : l'.posted = l.posted)
    (hhand : l'.handled = l.handled) : g.Holds l' mem' p := by
  cases g with
  | busy ph h₀ c k => exact Phase.Holds.frame h (hmem ph h₀ c k rfl) hpost hhand
  | _ => exact h

/-- The host goes round its loop with nothing to do. -/
theorem Stage.Holds.idle {l : Log} {mem : ℕ → Word} {p p' : Host} (h : g.Holds l mem p) (hp : p.waiting)
    (hc : p ≠ .crashed) (hq : g.queue = []) (hp' : p'.waiting) : g.Holds l mem p' := by
  cases g with
  | busy ph h₀ c k =>
    cases ph with
    | seen =>
      rw [h.2] at hp
      exact absurd hp id
    | handling =>
      obtain ⟨-, ⟨i, m, rfl, -⟩ | rfl | ⟨rfl, -⟩⟩ := h
      · exact absurd hp id
      · exact absurd hp id
      · exact absurd rfl hc
    | served =>
      obtain ⟨r, -, ⟨i, rfl, -⟩ | ⟨rfl, -⟩⟩ := h <;> exact absurd hp id
    | queued => cases hq
    | _ => exact ⟨h.1, hp'⟩
  | _ => exact hp'

/-- At the head of the loop no response is in the queue. -/
theorem Inv.queue_nil (hi : Inv g s) (hp : s.host = .head) : g.queue = [] := by
  have hhost := hi.host
  rw [hp] at hhost
  cases g with
  | busy ph h c k =>
    cases ph with
    | queued => obtain ⟨-, hc | hc⟩ := hhost <;> cases hc
    | _ => rfl
  | _ => rfl

/-- What is known of a buffer lasts as long as the buffer, whatever is added to the log. -/
theorem Kept.frame {l l' : Log} {mem mem' : ℕ → Word} {p : Hart} (hk : Kept l mem p)
    (hmem : ∀ c, p.call? = some c → ∀ j, mem' (c.word j) = mem (c.word j)) (hpost : l.posted <+: l'.posted)
    (hhand : l.handled <+: l'.handled) : Kept l' mem' p := by
  cases p with
  | fill c i => exact fun j hj => (hmem c rfl j).trans (hk j hj)
  | lock c => exact fun j => (hmem c rfl j).trans (hk j)
  | post c => exact fun j => (hmem c rfl j).trans (hk j)
  | ret c k => exact Answered.frame hk (hmem c rfl 0) hpost hhand
  | _ => trivial

/-- One more word of the arguments is in the buffer. -/
theorem kept_filling {l : Log} {mem : ℕ → Word} {c : Call} {i : Fin 8} (hk : ∀ j < i, mem (c.word j) = c.args j) :
    Kept l (Function.update mem (c.word i) (c.args i)) (c.filling i) := by
  have hword : ∀ j ≤ i, Function.update mem (c.word i) (c.args i) (c.word j) = c.args j := by
    intro j hj
    rcases hj.lt_or_eq with hlt | rfl
    · rw [Function.update_of_ne fun hc => hlt.ne (c.word_inj hc)]
      exact hk j hlt
    · exact Function.update_self ..
  unfold Call.filling
  split_ifs with hi
  · exact fun j hj => hword j (by rw [Fin.lt_def] at hj; rw [Fin.le_def]; dsimp only at hj; omega)
  · exact fun j => hword j (by rw [Fin.le_def]; omega)

theorem holds_reading {c : Call} {k : ℕ} {l : Log} {mem : ℕ → Word} {i : Fin 8} {m : Fin 8 → Word}
    (hf : Filled mem c) (hm : ∀ j < i, m j = c.args j) :
    Phase.handling.Holds c k l mem (c.reading i (Function.update m i (mem (c.word i)))) := by
  have hread : ∀ j ≤ i, Function.update m i (mem (c.word i)) j = c.args j := by
    intro j hj
    rcases hj.lt_or_eq with hlt | rfl
    · rw [Function.update_of_ne hlt.ne]
      exact hm j hlt
    · rw [Function.update_self]
      exact hf j
  refine ⟨hf, ?_⟩
  unfold Call.reading
  split_ifs with hi
  · refine Or.inl ⟨_, _, rfl, fun j hj => hread j ?_⟩
    rw [Fin.lt_def] at hj
    rw [Fin.le_def]
    dsimp only at hj
    omega
  · have hargs : Function.update m i (mem (c.word i)) = c.args := by
      funext j
      exact hread j (by rw [Fin.le_def]; omega)
    exact Or.inr (Or.inl (by rw [hargs]))

theorem holds_writing {c : Call} {k : ℕ} {l : Log} {mem : ℕ → Word} {i : Fin 8} {r : Word}
    (hr : l.handled[k]? = some (c.args, r)) (hmem : i ≠ 0 → mem (c.word 0) = r) :
    Phase.served.Holds c k l (Function.update mem (c.word i) (Function.update c.args 0 r i))
      (c.writing i (Function.update c.args 0 r)) := by
  have hword : Function.update mem (c.word i) (Function.update c.args 0 r i) (c.word 0) = r := by
    by_cases h0 : i = 0
    · subst h0
      rw [Function.update_self, Function.update_self]
    · rw [Function.update_of_ne fun hc => h0 (c.word_inj hc).symm]
      exact hmem h0
  refine ⟨r, hr, ?_⟩
  unfold Call.writing
  split_ifs with hi
  · exact Or.inl ⟨_, rfl, fun _ => hword⟩
  · exact Or.inr ⟨rfl, hword⟩

end Frames

/-! ## Moves -/

section Moves

variable [DecidableEq H]

/-- Everything a step can do. -/
inductive Move (s : Sys H) : Stage H → Event H → Stage H → Sys H → Prop
  | call (g : Stage H) (h : H) (c : Call) (hp : s.hart h = .idle) (hown : c.Private s.words)
      (hapart : ∀ h', ∀ c' ∈ (s.hart h').call?, c.Apart c') : Move s g (.call h c) g (s.setHart h (.fill c 0))
  | fill (g : Stage H) (h : H) (c : Call) (i : Fin 8) (hp : s.hart h = .fill c i) :
      Move s g (.hart h) g ((s.store (c.word i) (c.args i)).setHart h (c.filling i))
  | stay (g : Stage H) (h : H) (hg : ∀ ph c k, g = .busy ph h c k → ph.fromhost = 0)
      (hp : (∃ c, s.hart h = .lock c) ∨ ∃ c k, s.hart h = .spin c k) : Move s g (.hart h) g s
  | acquire (h : H) (c : Call) (hp : s.hart h = .lock c) :
      Move s .free (.hart h) (.ready h c) ({ s with lock := true }.setHart h (.post c))
  | post (h : H) (c : Call) (hp : s.hart h = .post c) :
      Move s (.ready h c) (.hart h) (.busy .posted h c s.log.posted.length)
        ({ s with tohost := c.slot, log := { s.log with posted := s.log.posted ++ [c] } }.setHart h
          (.spin c s.log.posted.length))
  | tick (ph : Phase) (h : H) (c : Call) (k : ℕ) (hp : s.hart h = .spin c k) (hph : ph.pc c k = .spin c k)
      (hw : c.wait = false) : Move s (.busy ph h c k) (.hart h) (.busy ph h c k) (s.setHart h (.clock c k))
  | tock (ph : Phase) (h : H) (c : Call) (k : ℕ) (hp : s.hart h = .clock c k) (hph : ph.pc c k = .spin c k) :
      Move s (.busy ph h c k) (.hart h) (.busy ph h c k) (s.setHart h (.spin c k))
  | expire (ph : Phase) (h : H) (c : Call) (k : ℕ) (hp : s.hart h = .clock c k) (hph : ph.pc c k = .spin c k)
      (hw : c.wait = false) :
      Move s (.busy ph h c k) (.expire h) (.busy ph h c k) (s.setHart h (.unlock c k false))
  | see (h : H) (c : Call) (k : ℕ) (hp : s.hart h = .spin c k) :
      Move s (.busy .answered h c k) (.hart h) (.busy .acking h c k) (s.setHart h (.ack c k))
  | ack (h : H) (c : Call) (k : ℕ) (hp : s.hart h = .ack c k) :
      Move s (.busy .acking h c k) (.hart h) (.busy .leaving h c k)
        ({ s with fromhost := 0, log := { s.log with acked := s.log.acked ++ [k] } }.setHart h (.unlock c k true))
  | unlock (h : H) (c : Call) (k : ℕ) (hp : s.hart h = .unlock c k true) :
      Move s (.busy .leaving h c k) (.hart h) .free ({ s with lock := false }.setHart h (.ret c k))
  | ret (g : Stage H) (h : H) (c : Call) (k : ℕ) (hp : s.hart h = .ret c k) :
      Move s g (.hart h) g
        ({ s with log := { s.log with returned := s.log.returned ++ [(k, c, s.mem (c.word 0))] } }.setHart h .idle)
  | quit (g : Stage H) (hp : s.host = .head) (hx : s.exited = true) : Move s g .host g { s with host := .done }
  | pass (g : Stage H) (hp : s.host = .head) (hx : s.tohost = 0) : Move s g .host g { s with host := .checkFrom }
  | check (g : Stage H) (hp : s.host = .checkFrom) : Move s g .host g { s with host := .decide s.fromhost }
  | again (g : Stage H) (f : Word) (hp : s.host = .decide f) (hq : g.queue = []) :
      Move s g .host g { s with host := .head }
  | notice (h : H) (c : Call) (k : ℕ) (hp : s.host = .head) :
      Move s (.busy .posted h c k) .host (.busy .seen h c k) { s with host := .clear c.slot }
  | clear (h : H) (c : Call) (k : ℕ) (hp : s.host = .clear c.slot) :
      Move s (.busy .seen h c k) .host (.busy .handling h c k)
        { s with tohost := 0, host := .read c.slot 0 fun _ => 0 }
  | read (h : H) (c : Call) (k : ℕ) (i : Fin 8) (m : Fin 8 → Word) (hp : s.host = .read c.slot i m) :
      Move s (.busy .handling h c k) .host (.busy .handling h c k)
        { s with host := c.reading i (Function.update m i (s.mem (c.word i))) }
  | data (h : H) (c : Call) (k a : ℕ) (v : Word) (hp : s.host = .serve c.slot c.args) (ha : c.area.Meets a 8) :
      Move s (.busy .handling h c k) (.data a v) (.busy .handling h c k) (s.store a v)
  | crash (h : H) (c : Call) (k : ℕ) (b : Bool) (hp : s.host = .serve c.slot c.args)
      (hr : mayReturn c.args none b) :
      Move s (.busy .handling h c k) (.serve none b) (.busy .handling h c k) { s with host := .crashed }
  | serve (h : H) (c : Call) (k : ℕ) (r : Word) (b : Bool) (hp : s.host = .serve c.slot c.args) :
      Move s (.busy .handling h c k) (.serve (some r) b) (.busy .served h c k)
        { s with
          host := .write c.slot 0 (Function.update c.args 0 r)
          exited := s.exited || b
          log := { s.log with handled := s.log.handled ++ [(c.args, r)] } }
  | write (h : H) (c : Call) (k : ℕ) (i : Fin 8) (m : Fin 8 → Word) (hp : s.host = .write c.slot i m) :
      Move s (.busy .served h c k) .host (.busy .served h c k)
        { s.store (c.word i) (m i) with host := c.writing i m }
  | respond (h : H) (c : Call) (k : ℕ) (hp : s.host = .respond c.slot) :
      Move s (.busy .served h c k) .host (.busy .queued h c k) { s with queue := [1], host := .checkFrom }
  | deliver (h : H) (c : Call) (k : ℕ) (hp : s.host = .decide 0) :
      Move s (.busy .queued h c k) .host (.busy .answered h c k)
        { s with fromhost := 1, queue := [], host := .head }

variable {s s' : Sys H} {g g' : Stage H} {e : Event H}

/-- A hart takes a step, other than the one with which a probe gives up. -/
theorem hartStep_moves {h : H} (hi : Inv g s) (hout : ∀ c k, s.hart h ≠ .unlock c k false)
    (hs : hartStep h s = some s') : ∃ g', Move s g (.hart h) g' s' := by
  rw [hartStep] at hs
  split at hs
  · cases hs
  · next c i hp =>
    cases hs
    exact ⟨g, .fill g h c i hp⟩
  · next c hp =>
    split_ifs at hs with hl <;> cases hs
    · refine ⟨g, .stay g h (fun ph c' k hg => ?_) (Or.inl ⟨c, hp⟩)⟩
      subst hg
      have hat := (hi.hart h).1 rfl
      rw [hp] at hat
      exact absurd hat.inside.1 id
    · rw [hi.lock] at hl
      cases g with
      | free => exact ⟨_, .acquire h c hp⟩
      | _ => exact absurd rfl hl
  · next c hp =>
    obtain ⟨c', rfl, hc⟩ | ⟨ph, c', k', rfl, hat⟩ := hi.inside hp trivial
    · cases hc
      cases hs
      exact ⟨_, .post h c hp⟩
    · obtain hpc | ⟨-, -, hc | hc⟩ := hat
      · cases ph <;> cases hpc
      · cases hc
      · cases hc
  · next c k hp =>
    obtain ⟨ph, rfl, hpc⟩ := hi.spin hp
    have hfrom : s.fromhost = ph.fromhost := hi.fromhost
    split_ifs at hs with hf hw <;> cases hs
    · refine ⟨_, .stay _ h (fun ph' c' k' hg => ?_) (Or.inr ⟨c, k, hp⟩)⟩
      cases hg
      rw [← hfrom, hf]
    · exact ⟨_, .tick ph h c k hp hpc (by simpa using hw)⟩
    · rw [hfrom] at hf
      cases ph <;> first | exact absurd rfl hf | exact ⟨_, .see h c k hp⟩ | cases hpc
  · next c k hp =>
    obtain ⟨ph, rfl, hpc, -⟩ := hi.probing hp (Or.inl rfl)
    cases hs
    exact ⟨_, .tock ph h c k hp hpc⟩
  · next c k hp =>
    obtain ⟨c', rfl, hc⟩ | ⟨ph, c', k', rfl, hat⟩ := hi.inside hp trivial
    · cases hc
    · obtain hpc | ⟨-, -, hc | hc⟩ := hat
      · cases ph <;> cases hpc
        cases hs
        exact ⟨_, .ack h c k hp⟩
      · cases hc
      · cases hc
  · next c k hp =>
    obtain ⟨c', rfl, hc⟩ | ⟨ph, c', k', rfl, hat⟩ := hi.inside hp trivial
    · cases hc
    · obtain hpc | ⟨-, -, hc | hc⟩ := hat
      · cases ph <;> cases hpc
        cases hs
        exact ⟨_, .unlock h c k hp⟩
      · cases hc
      · cases hc
  · next c k hp => exact absurd hp (hout c k)
  · next c k hp =>
    cases hs
    exact ⟨g, .ret g h c k hp⟩

theorem hostStep_moves (hi : Inv g s) (hs : hostStep s = some s') : ∃ g', Move s g .host g' s' := by
  have hhost := hi.host
  have hqueue := hi.queue
  rw [hostStep] at hs
  split at hs
  · next hp =>
    split_ifs at hs with hx ht <;> cases hs
    · exact ⟨g, .quit g hp hx⟩
    · obtain ⟨h, c, k, rfl, htohost⟩ := hi.noticed (by rw [hp]; trivial) ht
      have hmove := Move.notice (s := s) h c k hp
      rw [← htohost] at hmove
      exact ⟨_, hmove⟩
    · exact ⟨g, .pass g hp (not_not.mp ht)⟩
  · next v hp =>
    rw [hp] at hhost
    obtain ⟨h, c, k, ⟨rfl, hv⟩ | ⟨rfl, ⟨i, m, hv⟩ | hv | hv⟩ | ⟨rfl, ⟨i, m, hv⟩ | hv⟩⟩ :=
      hhost.doing id <;> cases hv
    rw [if_neg (by rw [c.device_slot]; omega), if_neg (by rw [c.cmd_slot]; exact not_not.mpr rfl)] at hs
    cases hs
    exact ⟨_, .clear h c k hp⟩
  · next v i m hp =>
    rw [hp] at hhost
    obtain ⟨h, c, k, ⟨rfl, hv⟩ | ⟨rfl, ⟨i, m, hv⟩ | hv | hv⟩ | ⟨rfl, ⟨i, m, hv⟩ | hv⟩⟩ :=
      hhost.doing id <;> cases hv
    cases hs
    rw [c.word_eq]
    exact ⟨_, .read h c k i m hp⟩
  · cases hs
  · next v i m hp =>
    rw [hp] at hhost
    obtain ⟨h, c, k, ⟨rfl, hv⟩ | ⟨rfl, ⟨i, m, hv⟩ | hv | hv⟩ | ⟨rfl, ⟨i, m, hv⟩ | hv⟩⟩ :=
      hhost.doing id <;> cases hv
    cases hs
    rw [c.word_eq]
    exact ⟨_, .write h c k i _ hp⟩
  · next v hp =>
    rw [hp] at hhost
    obtain ⟨h, c, k, ⟨rfl, hv⟩ | ⟨rfl, ⟨i, m, hv⟩ | hv | hv⟩ | ⟨rfl, ⟨i, m, hv⟩ | hv⟩⟩ :=
      hhost.doing id <;> cases hv
    rw [hqueue, c.respond_slot] at hs
    cases hs
    exact ⟨_, .respond h c k hp⟩
  · next hp =>
    cases hs
    exact ⟨g, .check g hp⟩
  · next f hp =>
    rw [hp] at hhost
    rw [hqueue] at hs
    split at hs
    · next hq =>
      cases hs
      rw [← hqueue]
      exact ⟨g, .again g f hp hq⟩
    · next x q hq =>
      cases g with
      | busy ph h c k =>
        cases ph <;> cases hq
        obtain ⟨-, hf | hf⟩ := hhost <;> cases hf
        cases hs
        exact ⟨_, .deliver h c k hp⟩
      | _ => cases hq
  · cases hs
  · cases hs

theorem dataStep_moves {a : ℕ} {v : Word} (hi : Inv g s) (hs : dataStep a v s = some s') :
    ∃ g', Move s g (.data a v) g' s' := by
  unfold dataStep at hs
  split at hs
  · next v' m hp =>
    obtain ⟨h, c, k, rfl, rfl, rfl⟩ := hi.serving hp
    split_ifs at hs with ha
    have hat : Phase.handling.hartAt c k (s.hart h) := (hi.hart h).1 rfl
    rw [s.poke_of_clear (hi.own h c hat.inside.2).2.2.2 ha.2] at hs
    cases hs
    exact ⟨_, .data h c k a v hp ha.2⟩
  · cases hs

theorem serveStep_moves {result : Option Word} {exits : Bool} (hi : Inv g s)
    (hs : serveStep result exits s = some s') : ∃ g', Move s g (.serve result exits) g' s' := by
  unfold serveStep at hs
  split at hs
  · next v m hp =>
    obtain ⟨h, c, k, rfl, rfl, rfl⟩ := hi.serving hp
    split_ifs at hs with hr
    cases result with
    | none =>
      cases hs
      exact ⟨_, .crash h c k exits hp hr⟩
    | some r =>
      cases hs
      exact ⟨_, .serve h c k r exits hp⟩
  · cases hs

/-- A step with which no probe gives up. -/
def Holding (s : Sys H) (e : Event H) : Prop := ∀ h c k, e = .hart h → s.hart h ≠ .unlock c k false

theorem step_moves [Fintype H] (hi : Inv g s) (hout : Holding s e) (hs : step s e = some s') :
    ∃ g', Move s g e g' s' := by
  cases e with
  | call h c =>
    rw [step, callStep] at hs
    split at hs
    · next hp =>
      split_ifs at hs with hnew
      cases hs
      exact ⟨g, .call g h c hp hnew.1 hnew.2⟩
    · cases hs
  | hart h => exact hartStep_moves hi (fun c k => hout h c k rfl) hs
  | expire h =>
    rw [step, expireStep] at hs
    split at hs
    · next c k hp =>
      obtain ⟨ph, rfl, hpc, hw⟩ := hi.probing hp (Or.inl rfl)
      cases hs
      exact ⟨_, .expire ph h c k hp hpc hw⟩
    · cases hs
  | host => exact hostStep_moves hi hs
  | data a v => exact dataStep_moves hi hs
  | serve result exits => exact serveStep_moves hi hs

/-! ## The invariant is kept -/

theorem Move.words (hi : Inv g s) (hm : Move s g e g' s') :
    s'.lock = g'.lock ∧ s'.tohost = g'.tohost ∧ s'.fromhost = g'.fromhost ∧ s'.queue = g'.queue := by
  obtain ⟨hl, ht, hf, hq⟩ := (⟨hi.lock, hi.tohost, hi.fromhost, hi.queue⟩ : _ ∧ _ ∧ _ ∧ _)
  cases hm <;> first
    | exact ⟨hl, ht, hf, hq⟩
    | exact ⟨rfl, ht, hf, hq⟩
    | exact ⟨hl, rfl, hf, hq⟩
    | exact ⟨hl, ht, rfl, hq⟩
    | exact ⟨hl, ht, hf, rfl⟩
    | exact ⟨hl, ht, rfl, rfl⟩

/-- A hart that moves outside the critical section. -/
theorem hartAt_update {hart : H → Hart} {h : H} {p : Hart} (hg : ∀ h, g.hartAt h (hart h))
    (hout : ¬ (hart h).inside) (hp : ¬ p.inside) : ∀ h', g.hartAt h' (Function.update hart h p h') := by
  intro h'
  have hat := hg h'
  by_cases hh : h' = h
  · subst hh
    rw [Function.update_self]
    cases g with
    | free => exact hp
    | ready h₀ c =>
      refine ⟨fun hc => absurd ?_ hout, fun _ => hp⟩
      rw [hat.1 hc]
      trivial
    | busy ph h₀ c k =>
      exact ⟨fun hc => absurd (hat.1 hc).inside.1 hout, fun _ => hp⟩
  · rwa [Function.update_of_ne hh]

/-- The holder of the lock moves. -/
theorem hartAt_holder {hart : H → Hart} {h : H} {p : Hart} {q : Hart → Prop}
    (hout : ∀ h', h' ≠ h → ¬ (hart h').inside) (hp : q p) (h' : H) :
    (h' = h → q (Function.update hart h p h')) ∧ (h' ≠ h → ¬ (Function.update hart h p h').inside) := by
  refine ⟨fun hh => ?_, fun hh => ?_⟩
  · subst hh
    rwa [Function.update_self]
  · rw [Function.update_of_ne hh]
    exact hout h' hh

theorem Move.hart (hi : Inv g s) (hm : Move s g e g' s') : ∀ h, g'.hartAt h (s'.hart h) := by
  have hart := hi.hart
  cases hm with
  | call g h c hp => exact hartAt_update hart (by rw [hp]; exact id) id
  | fill g h c i hp =>
    refine hartAt_update hart (show ¬ (s.hart h).inside by rw [hp]; exact id) ?_
    unfold Call.filling
    split_ifs <;> exact id
  | ret g h c k hp => exact hartAt_update hart (by rw [hp]; exact id) id
  | acquire h c hp => exact hartAt_holder (q := (· = .post c)) (fun h' _ => hart h') rfl
  | unlock h c k hp =>
    intro h'
    by_cases hh : h' = h
    · subst hh
      change ¬ (Function.update s.hart h' _ h').inside
      rw [Function.update_self]
      exact id
    · change ¬ (Function.update s.hart h _ h').inside
      rw [Function.update_of_ne hh]
      exact (hart h').2 hh
  | post h c hp => exact hartAt_holder (fun h' hh => (hart h').2 hh) (Or.inl rfl)
  | see h c k hp => exact hartAt_holder (fun h' hh => (hart h').2 hh) (Or.inl rfl)
  | ack h c k hp => exact hartAt_holder (fun h' hh => (hart h').2 hh) (Or.inl rfl)
  | tick ph h c k hp hph hw => exact hartAt_holder (fun h' hh => (hart h').2 hh) (Or.inr ⟨hph, hw, Or.inl rfl⟩)
  | tock ph h c k hp hph => exact hartAt_holder (fun h' hh => (hart h').2 hh) (Or.inl hph.symm)
  | expire ph h c k hp hph hw => exact hartAt_holder (fun h' hh => (hart h').2 hh) (Or.inr ⟨hph, hw, Or.inr rfl⟩)
  | _ => exact hart

theorem call?_update {hart : H → Hart} {h : H} {p : Hart} (hp : ∀ c, p.call? = some c → (hart h).call? = some c) :
    ∀ h' c, (Function.update hart h p h').call? = some c → (hart h').call? = some c := by
  intro h' c hc
  by_cases hh : h' = h
  · subst hh
    rw [Function.update_self] at hc
    exact hp c hc
  · rwa [Function.update_of_ne hh] at hc

/-- The call a hart is in is the one it was in, or one that starts. -/
theorem Move.calls (hm : Move s g e g' s') {h : H} {c : Call} (hc : (s'.hart h).call? = some c) :
    (s.hart h).call? = some c ∨
      e = .call h c ∧ c.Private s.words ∧ ∀ h', ∀ c' ∈ (s.hart h').call?, c.Apart c' := by
  cases hm with
  | call g h₀ c₀ hp hown hapart =>
    by_cases hh : h = h₀
    · subst hh
      rw [show (s.setHart h (.fill c₀ 0)).hart h = .fill c₀ 0 from Function.update_self ..] at hc
      cases hc
      exact Or.inr ⟨rfl, hown, hapart⟩
    · rw [show (s.setHart h₀ (.fill c₀ 0)).hart h = s.hart h from Function.update_of_ne hh ..] at hc
      exact Or.inl hc
  | fill g h₀ c₀ i hp =>
    refine Or.inl (call?_update (fun c' hc' => ?_) h c hc)
    rw [hp]
    unfold Call.filling at hc'
    split_ifs at hc' <;> exact hc'
  | acquire h₀ c₀ hp => exact Or.inl (call?_update (fun c' hc' => by rwa [hp]) h c hc)
  | post h₀ c₀ hp => exact Or.inl (call?_update (fun c' hc' => by rwa [hp]) h c hc)
  | tick ph h₀ c₀ k hp => exact Or.inl (call?_update (fun c' hc' => by rwa [hp]) h c hc)
  | tock ph h₀ c₀ k hp => exact Or.inl (call?_update (fun c' hc' => by rwa [hp]) h c hc)
  | expire ph h₀ c₀ k hp => exact Or.inl (call?_update (fun c' hc' => by rwa [hp]) h c hc)
  | see h₀ c₀ k hp => exact Or.inl (call?_update (fun c' hc' => by rwa [hp]) h c hc)
  | ack h₀ c₀ k hp => exact Or.inl (call?_update (fun c' hc' => by rwa [hp]) h c hc)
  | unlock h₀ c₀ k hp => exact Or.inl (call?_update (fun c' hc' => by rwa [hp]) h c hc)
  | ret g h₀ c₀ k hp => exact Or.inl (call?_update (fun c' hc' => by cases hc') h c hc)
  | _ => exact Or.inl hc

theorem Move.apart (hi : Inv g s) (hm : Move s g e g' s') : ∀ h h' c c', h ≠ h' → (s'.hart h).call? = some c →
    (s'.hart h').call? = some c' → c.Apart c' := by
  intro h h' c c' hne hc hc'
  rcases hm.calls hc with hold | ⟨he, -, hapart⟩ <;> rcases hm.calls hc' with hold' | ⟨he', -, hapart'⟩
  · exact hi.apart h h' c c' hne hold hold'
  · exact (hapart' h c hold).symm
  · exact hapart h' c' hold'
  · rw [he] at he'
    cases he'
    exact absurd rfl hne

theorem Move.words_eq (hm : Move s g e g' s') : s'.words = s.words := by
  cases hm <;> rfl

theorem Move.own (hi : Inv g s) (hm : Move s g e g' s') :
    ∀ h c, (s'.hart h).call? = some c → c.Private s'.words := by
  intro h c hc
  rw [hm.words_eq]
  rcases hm.calls hc with hold | ⟨-, hown, -⟩
  · exact hi.own h c hold
  · exact hown

theorem kept_update {l : Log} {mem : ℕ → Word} {hart : H → Hart} {h : H} {p : Hart}
    (hother : ∀ h', h' ≠ h → Kept l mem (hart h')) (hp : Kept l mem p) :
    ∀ h', Kept l mem (Function.update hart h p h') := by
  intro h'
  by_cases hh : h' = h
  · subst hh
    rwa [Function.update_self]
  · rw [Function.update_of_ne hh]
    exact hother h' hh

theorem Move.kept (hi : Inv g s) (hm : Move s g e g' s') : ∀ h, Kept s'.log s'.mem (s'.hart h) := by
  have hkept := hi.kept
  cases hm with
  | call g h c hp => exact kept_update (fun h' _ => hkept h') fun j hj => absurd hj (Nat.not_lt_zero _)
  | fill g h c i hp =>
    have hc : (s.hart h).call? = some c := by rw [hp]; rfl
    have hself : Kept s.log s.mem (.fill c i) := hp ▸ hkept h
    refine kept_update (fun h' hh => ?_) (kept_filling hself)
    exact (hkept h').frame (fun c' hc' j => hi.store_other hh hc hc' i j _) (List.prefix_refl _)
      (List.prefix_refl _)
  | acquire h c hp =>
    have hself : Kept s.log s.mem (.lock c) := hp ▸ hkept h
    exact kept_update (fun h' _ => hkept h') hself
  | post h c hp =>
    refine kept_update (fun h' _ => ?_) trivial
    exact (hkept h').frame (fun _ _ _ => rfl) (List.prefix_append _ _) (List.prefix_refl _)
  | tick | tock | expire | see => exact kept_update (fun h' _ => hkept h') trivial
  | ack h c k hp =>
    refine kept_update (fun h' _ => ?_) trivial
    exact (hkept h').frame (fun _ _ _ => rfl) (List.prefix_refl _) (List.prefix_refl _)
  | unlock h c k hp => exact kept_update (fun h' _ => hkept h') hi.host.1
  | ret g h c k hp =>
    refine kept_update (fun h' _ => ?_) trivial
    exact (hkept h').frame (fun _ _ _ => rfl) (List.prefix_refl _) (List.prefix_refl _)
  | data h c k a v hp ha =>
    exact fun h' => (hkept h').frame (fun c' hc' j => hi.store_data ha hc' j v) (List.prefix_refl _)
      (List.prefix_refl _)
  | serve h c k r b hp =>
    exact fun h' => (hkept h').frame (fun _ _ _ => rfl) (List.prefix_refl _) (List.prefix_append _ _)
  | write h c k i m hp =>
    intro h'
    have hat : Phase.served.hartAt c k (s.hart h) := (hi.hart h).1 rfl
    by_cases hh : h' = h
    · subst hh
      change Kept _ _ (s.hart h')
      rcases hat with hp' | ⟨-, -, hp' | hp'⟩ <;> rw [hp'] <;> trivial
    · exact (hkept h').frame (fun c' hc' j => hi.store_other hh hat.inside.2 hc' i j _) (List.prefix_refl _)
        (List.prefix_refl _)
  | _ => exact hkept

theorem Move.host (hi : Inv g s) (hm : Move s g e g' s') : g'.Holds s'.log s'.mem s'.host := by
  have hhost := hi.host
  cases hm with
  | call => exact hhost
  | stay => exact hhost
  | fill g h c i hp =>
    refine hhost.frame (fun ph h₀ c₀ k hg j => ?_) rfl rfl
    subst hg
    have hat : ph.hartAt c₀ k (s.hart h₀) := (hi.hart h₀).1 rfl
    have hne : h₀ ≠ h := by
      rintro rfl
      rw [hp] at hat
      exact absurd hat.inside.1 id
    exact hi.store_other hne (by rw [hp]; rfl) hat.inside.2 i j _
  | acquire => exact hhost
  | post h c hp =>
    have hself : Kept s.log s.mem (.post c) := hp ▸ hi.kept h
    exact ⟨hself, hhost⟩
  | tick | tock | expire | see => exact hhost
  | ack => exact ⟨hhost.1, hhost.2⟩
  | unlock => exact hhost.2
  | ret => exact hhost.frame (fun _ _ _ _ _ _ => rfl) rfl rfl
  | quit g hp hx => exact hhost.idle (by rw [hp]; trivial) (by rw [hp]; nofun) (hi.queue_nil hp) trivial
  | pass g hp hx => exact hhost.idle (by rw [hp]; trivial) (by rw [hp]; nofun) (hi.queue_nil hp) trivial
  | check g hp =>
    by_cases hq : g.queue = []
    · exact hhost.idle (by rw [hp]; trivial) (by rw [hp]; nofun) hq trivial
    · cases g with
      | busy ph h c k =>
        cases ph with
        | queued =>
          refine ⟨hhost.1, Or.inr ?_⟩
          rw [hi.fromhost]
          rfl
        | _ => exact absurd rfl hq
      | _ => exact absurd rfl hq
  | again g f hp hq => exact hhost.idle (by rw [hp]; trivial) (by rw [hp]; nofun) hq trivial
  | notice h c k hp => exact ⟨hhost.1, rfl⟩
  | clear h c k hp => exact ⟨hhost.1, Or.inl ⟨0, _, rfl, fun j hj => absurd hj (Nat.not_lt_zero _)⟩⟩
  | read h c k i m hp =>
    obtain ⟨hf, ⟨i', m', hv, hm'⟩ | hv | ⟨hv, -⟩⟩ := hhost <;> rw [hp] at hv <;> cases hv
    exact @holds_reading c k s.log s.mem i m hf hm'
  | data h c k a v hp ha =>
    have hat : Phase.handling.hartAt c k (s.hart h) := (hi.hart h).1 rfl
    have hself : Phase.handling.Holds c k s.log s.mem s.host := hhost
    exact hself.frame (fun j => hi.store_data ha hat.inside.2 j v) rfl rfl
  | crash h c k b hp hr =>
    refine ⟨hhost.1, Or.inr (Or.inr ⟨rfl, ?_⟩)⟩
    simpa [mayReturn] using hr
  | serve h c k r b hp =>
    have hlen : s.log.handled.length = k := hi.counts.2.2.1
    refine ⟨r, ?_, Or.inl ⟨0, rfl, fun hc => absurd rfl hc⟩⟩
    subst hlen
    exact List.getElem?_concat_length
  | write h c k i m hp =>
    obtain ⟨r, hr, ⟨i', hv, hmem⟩ | ⟨hv, -⟩⟩ := hhost <;> rw [hp] at hv <;> cases hv
    exact holds_writing hr hmem
  | respond h c k hp =>
    obtain ⟨r, hr, ⟨i', hv, -⟩ | ⟨-, hmem⟩⟩ := hhost
    · rw [hp] at hv
      cases hv
    · exact ⟨⟨hi.counts.1, by rw [hmem]; exact hr⟩, Or.inl rfl⟩
  | deliver h c k hp => exact ⟨hhost.1, trivial⟩

theorem Move.counts (hi : Inv g s) (hm : Move s g e g' s') : g'.counts s'.log := by
  have hcounts := hi.counts
  cases hm with
  | post h c hp =>
    obtain ⟨hhand, hack⟩ := hcounts
    exact ⟨List.getElem?_concat_length, List.length_append, hhand, hack⟩
  | ack h c k hp =>
    obtain ⟨hpost, hlen, hhand, hack⟩ := hcounts
    refine ⟨hpost, hlen, hhand, ?_⟩
    change s.log.acked ++ [k] = List.range (k + 1)
    rw [hack, List.range_succ]
    rfl
  | unlock h c k hp =>
    obtain ⟨hpost, hlen, hhand, hack⟩ := hcounts
    exact ⟨hhand.trans hlen.symm, hack.trans (congrArg List.range hlen.symm)⟩
  | ret g h c k hp => cases g <;> exact hcounts
  | serve h c k r b hp =>
    obtain ⟨hpost, hlen, hhand, hack⟩ := hcounts
    refine ⟨hpost, hlen, ?_, hack⟩
    change (s.log.handled ++ [_]).length = k + 1
    rw [List.length_append, hhand]
    rfl
  | _ => exact hcounts

/-- The next command is handled. -/
theorem LogOk.serve {l : Log} {c : Call} (h : LogOk l) (r : Word) (hc : l.posted[l.handled.length]? = some c) :
    LogOk { l with handled := l.handled ++ [(c.args, r)] } := by
  refine ⟨?_, fun k c' v hv => ?_⟩
  · obtain ⟨hlt, hget⟩ := List.getElem?_eq_some_iff.mp hc
    have hprefix := h.handled
    rw [List.prefix_iff_eq_take, List.length_map] at hprefix
    change (l.handled ++ [(c.args, r)]).map Prod.fst <+: l.posted.map Call.args
    rw [List.map_append, hprefix, List.map_singleton]
    have htake : (l.posted.map Call.args).take (l.handled.length + 1) =
        (l.posted.map Call.args).take l.handled.length ++ [c.args] := by
      rw [List.take_add_one, List.getElem?_map, hc]
      rfl
    rw [← htake]
    exact List.take_prefix _ _
  · obtain ⟨hpost, hhand⟩ := h.returned k c' v hv
    exact ⟨hpost, getElem?_mono (List.prefix_append _ _) hhand⟩

theorem LogOk.post {l : Log} (h : LogOk l) (c : Call) : LogOk { l with posted := l.posted ++ [c] } := by
  refine ⟨?_, fun k c' v hv => ?_⟩
  · change l.handled.map Prod.fst <+: (l.posted ++ [c]).map Call.args
    rw [List.map_append]
    exact h.handled.trans (List.prefix_append _ _)
  · obtain ⟨hpost, hhand⟩ := h.returned k c' v hv
    exact ⟨getElem?_mono (List.prefix_append _ _) hpost, hhand⟩

theorem LogOk.ret {l : Log} {mem : ℕ → Word} {c : Call} {k : ℕ} (h : LogOk l) (ha : Answered l mem c k) :
    LogOk { l with returned := l.returned ++ [(k, c, mem (c.word 0))] } := by
  refine ⟨h.handled, fun k' c' v hv => ?_⟩
  rcases List.mem_append.mp hv with hold | hnew
  · exact h.returned k' c' v hold
  · cases List.mem_singleton.mp hnew
    exact ha

theorem Move.log (hi : Inv g s) (hm : Move s g e g' s') : LogOk s'.log := by
  have hlog := hi.log
  cases hm with
  | post h c hp => exact hlog.post c
  | ack h c k hp => exact ⟨hlog.handled, hlog.returned⟩
  | ret g h c k hp =>
    have hself : Kept s.log s.mem (.ret c k) := hp ▸ hi.kept h
    exact hlog.ret hself
  | serve h c k r b hp =>
    obtain ⟨hpost, -, hhand, -⟩ := hi.counts
    refine hlog.serve r ?_
    rw [hhand]
    exact hpost
  | _ => exact hlog

/-- A hart that is not about to return, before or after. -/
theorem Fresh.update {n : ℕ} {hart : H → Hart} {returned : List (ℕ × Call × Word)} {h : H} {p : Hart}
    (hf : Fresh n hart returned) (hp : ∀ c k, p ≠ .ret c k) : Fresh n (Function.update hart h p) returned := by
  have hold : ∀ h' c k, Function.update hart h p h' = .ret c k → hart h' = .ret c k := by
    intro h' c k hr
    by_cases hh : h' = h
    · subst hh
      rw [Function.update_self] at hr
      exact absurd hr (hp c k)
    · rwa [Function.update_of_ne hh] at hr
  exact ⟨fun h' c k hr => hf.lt h' c k (hold h' c k hr),
    fun h₁ h₂ c c' k hr hr' => hf.inj h₁ h₂ c c' k (hold _ _ _ hr) (hold _ _ _ hr'),
    fun h' c k hr => hf.new h' c k (hold h' c k hr), hf.old, hf.nodup⟩

/-- The call of command `n` leaves. -/
theorem Fresh.leave {n : ℕ} {hart : H → Hart} {returned : List (ℕ × Call × Word)} {h : H} {c : Call}
    (hf : Fresh n hart returned) : Fresh (n + 1) (Function.update hart h (.ret c n)) returned := by
  have hold : ∀ h' c' k, Function.update hart h (.ret c n) h' = .ret c' k →
      h' = h ∧ k = n ∨ hart h' = .ret c' k ∧ k < n := by
    intro h' c' k hr
    by_cases hh : h' = h
    · subst hh
      rw [Function.update_self] at hr
      cases hr
      exact Or.inl ⟨rfl, rfl⟩
    · rw [Function.update_of_ne hh] at hr
      exact Or.inr ⟨hr, hf.lt h' c' k hr⟩
  refine ⟨fun h' c' k hr => ?_, fun h₁ h₂ c₁ c₂ k hr₁ hr₂ => ?_, fun h' c' k hr hmem => ?_,
    fun k hk => ?_, hf.nodup⟩
  · rcases hold h' c' k hr with ⟨-, rfl⟩ | ⟨-, hlt⟩ <;> omega
  · rcases hold h₁ c₁ k hr₁ with ⟨rfl, hk₁⟩ | ⟨hr₁', hlt₁⟩ <;>
      rcases hold h₂ c₂ k hr₂ with ⟨rfl, hk₂⟩ | ⟨hr₂', hlt₂⟩
    · rfl
    · omega
    · omega
    · exact hf.inj h₁ h₂ c₁ c₂ k hr₁' hr₂'
  · rcases hold h' c' k hr with ⟨-, rfl⟩ | ⟨hr', -⟩
    · exact absurd (hf.old k hmem) (Nat.lt_irrefl k)
    · exact hf.new h' c' k hr' hmem
  · exact (hf.old k hk).trans (Nat.lt_succ_self n)

/-- A call returns. -/
theorem Fresh.ret {n k : ℕ} {hart : H → Hart} {returned : List (ℕ × Call × Word)} {h : H} {c : Call} (v : Word)
    (hf : Fresh n hart returned) (hp : hart h = .ret c k) :
    Fresh n (Function.update hart h .idle) (returned ++ [(k, c, v)]) := by
  have hf' := hf.update (h := h) (p := .idle) nofun
  have hmap : (returned ++ [(k, c, v)]).map Prod.fst = returned.map Prod.fst ++ [k] := by rw [List.map_append]; rfl
  refine ⟨hf'.lt, hf'.inj, fun h' c' k' hr hmem => ?_, fun k' hk' => ?_, ?_⟩
  · rw [hmap, List.mem_append, List.mem_singleton] at hmem
    rcases hmem with hold | rfl
    · exact hf'.new h' c' k' hr hold
    · have hh : h' ≠ h := by
        rintro rfl
        rw [Function.update_self] at hr
        cases hr
      rw [Function.update_of_ne hh] at hr
      exact hh (hf.inj h' h c' c k' hr hp)
  · rw [hmap, List.mem_append, List.mem_singleton] at hk'
    rcases hk' with hold | rfl
    · exact hf.old k' hold
    · exact hf.lt h c k' hp
  · rw [hmap, List.nodup_append]
    refine ⟨hf.nodup, List.nodup_singleton k, fun a ha b hb hab => ?_⟩
    rw [List.mem_singleton] at hb
    subst hab hb
    exact hf.new h c a hp ha

theorem Move.fresh (hi : Inv g s) (hm : Move s g e g' s') : Fresh (g'.left s'.log) s'.hart s'.log.returned := by
  have hfresh := hi.fresh
  cases hm with
  | call g h c hp => exact hfresh.update nofun
  | fill g h c i hp =>
    refine hfresh.update fun c' k => ?_
    unfold Call.filling
    split_ifs <;> nofun
  | acquire h c hp => exact hfresh.update nofun
  | post h c hp => exact hfresh.update nofun
  | tick | tock | expire | see => exact hfresh.update nofun
  | ack h c k hp => exact hfresh.update nofun
  | unlock h c k hp =>
    have hlen : s.log.posted.length = k + 1 := hi.counts.2.1
    change Fresh s.log.posted.length _ _
    rw [hlen]
    exact hfresh.leave
  | ret g h c k hp =>
    have hleft : g.left { s.log with returned := s.log.returned ++ [(k, c, s.mem (c.word 0))] } =
        g.left s.log := by
      cases g <;> rfl
    change Fresh (g.left { s.log with returned := s.log.returned ++ [(k, c, s.mem (c.word 0))] }) _ _
    rw [hleft]
    exact hfresh.ret _ hp
  | _ => exact hfresh

theorem Move.inv (hi : Inv g s) (hm : Move s g e g' s') : Inv g' s' where
  lock := (hm.words hi).1
  tohost := (hm.words hi).2.1
  fromhost := (hm.words hi).2.2.1
  queue := (hm.words hi).2.2.2
  hart := hm.hart hi
  apart := hm.apart hi
  own := hm.own hi
  kept := hm.kept hi
  host := hm.host hi
  counts := hm.counts hi
  log := hm.log hi
  fresh := hm.fresh hi

end Moves

end Soceteer.Htif
