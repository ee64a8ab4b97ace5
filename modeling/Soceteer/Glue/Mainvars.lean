import Soceteer.Fesvr.Dtm
import Soceteer.Glue.Dtb
import Soceteer.Glue.Uart
import Soceteer.Lib.Bytes
import Mathlib.Algebra.BigOperators.Group.List.Basic

/-!
# Soceteer.Glue.Mainvars — program arguments from the host to `main`

At start-up a program asks the host for its arguments: `_soct_start_main` (`soctglue.c`) calls `soct_syscall`
(`syscall-handler.c`) with the address and the size of `s_args`, the handler of `SOCT_GET_MAINVARS`
(`fesvr/syscall_device.cpp`) lays out words and strings for that address and writes them, and the program reads
`argc` and `argv` back from `s_args`.  The target has 64 bits.

* `Args`: the host's argument strings; `ptrs`, `size`, `encode`: the handler's layout; `getMainvars`: the handler.
* `Sys`, `Handler`, `soctSyscall`: the handler table of the program and its search.
* `startMain`: what the program sets `s_argc` and `s_argv` to.
* `mainvars_roundTrip`: the arguments arrive as they were, or nothing is written.
-/

namespace Soceteer.Glue

open Lib Fesvr

/-! ## The host -/

/-- `target_args()`: no string has a zero in it, and the host has room for what is made of them. -/
structure Args where
  strs : List CStr
  noNul : ∀ s ∈ strs, 0 ∉ s
  small : 8 * (strs.length + 3) + (strs.map fun s => s.length + 1).sum < 2 ^ 64

/-- The pointers of the strings from offset `sz` on. -/
def ptrs (pbuf : BitVec 64) : List CStr → ℕ → List (BitVec 64)
  | [], _ => []
  | s :: strs, sz => (pbuf + BitVec.ofNat 64 sz) :: ptrs pbuf strs (sz + (s.length + 1))

/-- `sz` behind the strings. -/
def sizeFrom : List CStr → ℕ → ℕ
  | [], sz => sz
  | s :: strs, sz => sizeFrom strs (sz + (s.length + 1))

/-- The `strcpy`s of the strings to where their words point. -/
def strcpys (pbuf : BitVec 64) : List (BitVec 64 × CStr) → List UInt8 → Option (List UInt8)
  | [], bytes => some bytes
  | (word, s) :: rest, bytes =>
    (memcpy bytes (word - pbuf).toNat (s ++ [0]) 0 (s.length + 1)).bind (strcpys pbuf rest)

/-- `words`: the number of the strings, their pointers, `argv[argc]` and `envp[0]`. -/
def mainWords (strs : List CStr) (pbuf : BitVec 64) : List (BitVec 64) :=
  BitVec.ofNat 64 strs.length :: ptrs pbuf strs (8 * (strs.length + 3)) ++ [0, 0]

/-- `bytes`: the words, and the strings behind them. -/
def encode (strs : List CStr) (pbuf : BitVec 64) : Option (List UInt8) :=
  let words := mainWords strs pbuf
  let raw := words.flatMap fun word => leBytes 8 word.toNat
  (memcpy (List.replicate (sizeFrom strs (8 * words.length)) 0) 0 raw 0 (8 * words.length)).bind
    (strcpys pbuf ((ptrs pbuf strs (8 * (strs.length + 3))).zip strs))

/-- `ENOMEM`, on the host and on the target. -/
def enomem : BitVec 64 := 12

/-- The handler of `SOCT_GET_MAINVARS`: its result and the memory it leaves.  `none` is a store outside a
vector. -/
def getMainvars (args : Args) (pbuf limit : BitVec 64) (m : Mem 64) : Option (BitVec 64 × Mem 64) :=
  (encode args.strs pbuf).map fun bytes =>
    if limit.toNat < bytes.length then (-enomem, m) else (0, splice m pbuf bytes)

/-! ## The program -/

/-- What the handlers of the program work on. -/
structure Sys where
  mem : Mem 64
  bus : List Bus

/-- A handler gets the number and the first three arguments of a call; no handler here uses the others. -/
abbrev Handler := BitVec 32 → BitVec 64 → BitVec 64 → BitVec 64 → Sys → Option (Resp × Sys)

/-- The memory after the stores of a trace. -/
def stored (m : Mem 64) (tr : List Bus) : Mem 64 :=
  tr.foldl (fun m b => match b with
    | .store a c => Function.update m (BitVec.ofNat 64 a) c
    | _ => m) m

def uartHandler (L : Line) : Handler := fun syscall a0 a1 a2 σ =>
  (soctHandleUart .rv64 L (fun a => σ.mem (BitVec.ofNat 64 a)) syscall a0 a1 a2 σ.bus).map fun r =>
    (r.1, ⟨stored σ.mem (r.2.drop σ.bus.length), r.2⟩)

/-- `soct_handle_htif`: whatever the call, the host answers it. -/
def htifHandler (args : Args) (host : Handler) : Handler := fun syscall a0 a1 a2 σ =>
  if syscall = 2011 then (getMainvars args a0 a1 σ.mem).map fun r => (.handled r.1, { σ with mem := r.2 })
  else host syscall a0 a1 a2 σ

/-- `s_syscall_handlers`: the user's handlers from the front, the default ones from the back. -/
structure Handlers where
  table : ℕ → Handler
  userCount : ℕ
  defaultCount : ℕ

/-- The order in which they are tried. -/
def Handlers.order (H : Handlers) : List Handler :=
  (List.range H.userCount).map H.table ++ (List.range H.defaultCount).map fun i => H.table (64 - 1 - i)

/-- `soct_register_default_handler`. -/
def Handlers.registerDefault (H : Handlers) (h : Handler) : Bool × Handlers :=
  if 64 ≤ H.userCount + H.defaultCount then (false, H)
  else
    (true, { H with
      table := Function.update H.table (64 - 1 - H.defaultCount) h
      defaultCount := H.defaultCount + 1 })

/-- `ENOSYS` of the target's C library. -/
def enosys : BitVec 32 := 88

/-- The loops of `soct_syscall`: the result, and `errno` if it is set. -/
def tryHandlers (syscall : BitVec 32) (a0 a1 a2 : BitVec 64) :
    List Handler → Sys → Option ((BitVec 64 × Option (BitVec 32)) × Sys)
  | [], σ => some ((-1, some enosys), σ)
  | h :: hs, σ =>
    (h syscall a0 a1 a2 σ).bind fun
      | (.pass, σ) => tryHandlers syscall a0 a1 a2 hs σ
      | (.handled ret, σ) =>
        if ret.toInt < 0 then some ((-1, some ((-ret).setWidth 32)), σ) else some ((ret, none), σ)

def soctSyscall (H : Handlers) (syscall : BitVec 32) (a0 a1 a2 : BitVec 64) (σ : Sys) :
    Option ((BitVec 64 × Option (BitVec 32)) × Sys) := tryHandlers syscall a0 a1 a2 H.order σ

/-- The word at an address. -/
def wordAt (m : Mem 64) (a : BitVec 64) : BitVec 64 := BitVec.ofNat 64 (leNat (bytesAt m a 8))

/-- The part of `_soct_start_main` that sets `s_argc` and `s_argv`, for an `s_args` of `size` bytes. -/
def startMain (H : Handlers) (sArgs size : BitVec 64) (σ : Sys) : Option ((BitVec 32 × BitVec 64) × Sys) :=
  (soctSyscall H 2011 sArgs size 0 σ).map fun (ret, σ) =>
    if ret.1 ≠ 0 then ((0, 0), σ) else (((wordAt σ.mem sArgs).setWidth 32, sArgs + 8), σ)

/-! ## The layout -/

/-- The bytes of a list of strings with their zeros. -/
def room (strs : List CStr) : ℕ := (strs.map fun s => s.length + 1).sum

@[simp] theorem room_cons (s : CStr) (strs : List CStr) : room (s :: strs) = s.length + 1 + room strs := by
  simp [room]

/-- The parts of the encoding: words, then strings. -/
def pieces (strs : List CStr) (pbuf : BitVec 64) : List (List UInt8) :=
  (mainWords strs pbuf).map (fun word => leBytes 8 word.toNat) ++ strs.map (· ++ [0])

variable {strs : List CStr} {pbuf : BitVec 64}

theorem sizeFrom_eq : ∀ (strs : List CStr) (sz : ℕ), sizeFrom strs sz = sz + room strs
  | [], sz => rfl
  | s :: strs, sz => by
    rw [sizeFrom, sizeFrom_eq strs, room_cons]
    omega

@[simp] theorem length_ptrs : ∀ (strs : List CStr) (sz : ℕ), (ptrs pbuf strs sz).length = strs.length
  | [], _ => rfl
  | s :: strs, sz => congrArg (· + 1) (length_ptrs strs (sz + (s.length + 1)))

theorem getElem?_ptrs : ∀ (strs : List CStr) (sz i : ℕ), i < strs.length →
    (ptrs pbuf strs sz)[i]? = some (pbuf + BitVec.ofNat 64 (sz + room (strs.take i)))
  | s :: strs, sz, 0, _ => by simp [ptrs, room]
  | s :: strs, sz, i + 1, h => by
    rw [ptrs, List.getElem?_cons_succ, getElem?_ptrs strs _ i (by simpa using h), List.take_succ_cons, room_cons]
    congr 3
    omega

@[simp] theorem length_mainWords (strs : List CStr) (pbuf : BitVec 64) :
    (mainWords strs pbuf).length = strs.length + 3 := by
  simp [mainWords]

/-- The copies fill the bytes behind `done`. -/
theorem strcpys_eq : ∀ (strs : List CStr) (done zeros : List UInt8), zeros.length = room strs →
    done.length + room strs < 2 ^ 64 →
      strcpys pbuf ((ptrs pbuf strs done.length).zip strs) (done ++ zeros) =
        some (done ++ (strs.map (· ++ [0])).flatten)
  | [], done, zeros, hz, _ => by
    obtain rfl : zeros = [] := List.eq_nil_of_length_eq_zero (by simpa [room] using hz)
    rfl
  | s :: strs, done, zeros, hz, hlt => by
    rw [room_cons] at hz hlt
    have hoff : (pbuf + BitVec.ofNat 64 done.length - pbuf).toNat = done.length := by
      rw [BitVec.add_comm, BitVec.add_sub_cancel, BitVec.toNat_ofNat, Nat.mod_eq_of_lt (by omega)]
    have hcopy : memcpy (done ++ zeros) done.length (s ++ [0]) 0 (s.length + 1) =
        some ((done ++ (s ++ [0])) ++ zeros.drop (s.length + 1)) := by
      rw [memcpy, if_pos ⟨by simp; omega, by simp⟩, List.take_left, List.drop_zero,
        List.take_of_length_le (by simp),
        List.drop_append, List.drop_eq_nil_of_le (Nat.le_add_right ..), List.nil_append, Nat.add_sub_cancel_left]
    have ih := strcpys_eq strs (done ++ (s ++ [0])) (zeros.drop (s.length + 1)) (by simp; omega) (by simp; omega)
    rw [ptrs, List.zip_cons_cons, strcpys, hoff, hcopy, Option.bind_some]
    simpa using ih

theorem length_flatten_words (words : List (BitVec 64)) :
    (words.map fun word => leBytes 8 word.toNat).flatten.length = 8 * words.length := by
  induction words with
  | nil => rfl
  | cons word words ih => simp [ih, Nat.mul_add, Nat.add_comm]

theorem length_flatten_strs (strs : List CStr) : (strs.map (· ++ [0])).flatten.length = room strs := by
  simp [room, Function.comp_def]

theorem length_pieces (strs : List CStr) (pbuf : BitVec 64) :
    (pieces strs pbuf).flatten.length = 8 * (strs.length + 3) + room strs := by
  rw [pieces, List.flatten_append, List.length_append, length_flatten_words, length_mainWords, length_flatten_strs]

/-- The handler lays the parts out one behind the other. -/
theorem encode_eq (hsmall : 8 * (strs.length + 3) + room strs < 2 ^ 64) :
    encode strs pbuf = some (pieces strs pbuf).flatten := by
  have hraw : ((mainWords strs pbuf).flatMap fun word => leBytes 8 word.toNat).length = 8 * (strs.length + 3) := by
    rw [List.flatMap_def, length_flatten_words, length_mainWords]
  rw [encode, length_mainWords, sizeFrom_eq, memcpy, if_pos ⟨by simp, by omega⟩, Option.bind_some, List.take_zero,
    List.nil_append, List.drop_zero, List.take_of_length_le (by omega), Nat.zero_add, ← hraw,
    strcpys_eq strs _ _ (by rw [hraw]; simp) (by rw [hraw]; exact hsmall), pieces, List.flatten_append,
      List.flatMap_def]

/-- Where a part starts. -/
def pieceOff (strs : List CStr) (pbuf : BitVec 64) (i : ℕ) : ℕ := (((pieces strs pbuf).map List.length).take i).sum

theorem pieceOff_word {i : ℕ} (h : i ≤ strs.length + 3) : pieceOff strs pbuf i = 8 * i := by
  rw [pieceOff, pieces, List.map_append, List.take_append_of_le_length (by simpa using h), List.map_map]
  simp [Function.comp_def, Nat.min_eq_left h, Nat.mul_comm]

theorem pieceOff_str (j : ℕ) :
    pieceOff strs pbuf (strs.length + 3 + j) = 8 * (strs.length + 3) + room (strs.take j) := by
  have hwords : (((mainWords strs pbuf).map fun word => leBytes 8 word.toNat).map List.length).sum =
      8 * (strs.length + 3) := by
    rw [← List.length_flatten, length_flatten_words, length_mainWords]
  have hlen : (((mainWords strs pbuf).map fun word => leBytes 8 word.toNat).map List.length).length =
      strs.length + 3 := by
    simp
  rw [pieceOff, pieces, List.map_append, ← hlen, List.take_length_add_append, List.sum_append, hwords,
    hlen, List.map_map]
  simp [room, Function.comp_def, List.map_take]

/-- A part of the encoding, read back from where it starts. -/
theorem bytesAt_piece {m : Mem 64} {i : ℕ} {p : List UInt8} (hsmall : 8 * (strs.length + 3) + room strs < 2 ^ 64)
    (hi : (pieces strs pbuf)[i]? = some p) :
    bytesAt (splice m pbuf (pieces strs pbuf).flatten) (pbuf + BitVec.ofNat 64 (pieceOff strs pbuf i))
      p.length = p := by
  obtain ⟨hlt, rfl⟩ := List.getElem?_eq_some_iff.mp hi
  have htail : ((pieces strs pbuf).drop i).flatten =
      (pieces strs pbuf)[i] ++ ((pieces strs pbuf).drop (i + 1)).flatten := by
    rw [List.drop_eq_getElem_cons hlt, List.flatten_cons]
  have hle : pieceOff strs pbuf i + (pieces strs pbuf)[i].length ≤ (pieces strs pbuf).flatten.length := by
    have hall := congrArg (fun l => l.flatten.length) (List.take_append_drop i (pieces strs pbuf))
    rw [List.flatten_append, htail, List.length_append, List.length_append, List.length_flatten, List.map_take,
      ← pieceOff] at hall
    omega
  rw [bytesAt_splice hle (by rw [length_pieces]; omega), pieceOff, List.drop_sum_flatten, htail, List.take_left]

/-! ## The view of the program -/

section View

variable {m : Mem 64} (hsmall : 8 * (strs.length + 3) + room strs < 2 ^ 64)

include hsmall

theorem wordAt_mainWords {i : ℕ} {word : BitVec 64} (hi : (mainWords strs pbuf)[i]? = some word) :
    wordAt (splice m pbuf (pieces strs pbuf).flatten) (pbuf + BitVec.ofNat 64 (8 * i)) = word := by
  have hlt : i < strs.length + 3 := by
    have h := (List.getElem?_eq_some_iff.mp hi).1
    rwa [length_mainWords] at h
  have hpiece : (pieces strs pbuf)[i]? = some (leBytes 8 word.toNat) := by
    rw [pieces, List.getElem?_append_left (by simpa using hlt), List.getElem?_map, hi]
    rfl
  have hbytes := bytesAt_piece (m := m) hsmall hpiece
  rw [pieceOff_word (by omega), length_leBytes] at hbytes
  have hword : word.toNat < 256 ^ 8 := word.isLt
  rw [wordAt, hbytes, leNat_leBytes, Nat.mod_eq_of_lt hword, BitVec.ofNat_toNat, BitVec.setWidth_eq]

/-- `argv[i]`. -/
theorem wordAt_argv {i : ℕ} (hi : i < strs.length) :
    wordAt (splice m pbuf (pieces strs pbuf).flatten) (pbuf + 8 + BitVec.ofNat 64 (8 * i)) =
      pbuf + BitVec.ofNat 64 (8 * (strs.length + 3) + room (strs.take i)) := by
  have hword : (mainWords strs pbuf)[i + 1]? =
      some (pbuf + BitVec.ofNat 64 (8 * (strs.length + 3) + room (strs.take i))) := by
    rw [mainWords, List.cons_append, List.getElem?_cons_succ, List.getElem?_append_left (by simpa using hi),
      getElem?_ptrs _ _ _ hi]
  have hview := wordAt_mainWords (m := m) hsmall hword
  rwa [show 8 * (i + 1) = 8 + 8 * i by omega, BitVec.ofNat_add, ← BitVec.add_assoc] at hview

/-- `argv[argc]` and `envp[0]`. -/
theorem wordAt_null {i : ℕ} (hi : i = strs.length ∨ i = strs.length + 1) :
    wordAt (splice m pbuf (pieces strs pbuf).flatten) (pbuf + 8 + BitVec.ofNat 64 (8 * i)) = 0 := by
  have hword : (mainWords strs pbuf)[i + 1]? = some 0 := by
    rw [mainWords, List.cons_append, List.getElem?_cons_succ, List.getElem?_append_right (by simp; omega),
      length_ptrs]
    rcases hi with rfl | rfl
    · simp
    · simp
  have hview := wordAt_mainWords (m := m) hsmall hword
  rwa [show 8 * (i + 1) = 8 + 8 * i by omega, BitVec.ofNat_add, ← BitVec.add_assoc] at hview

theorem bytesAt_str {i : ℕ} {s : CStr} (hi : strs[i]? = some s) :
    bytesAt (splice m pbuf (pieces strs pbuf).flatten)
      (pbuf + BitVec.ofNat 64 (8 * (strs.length + 3) + room (strs.take i))) (s.length + 1) = s ++ [0] := by
  have hpiece : (pieces strs pbuf)[strs.length + 3 + i]? = some (s ++ [0]) := by
    rw [pieces, List.getElem?_append_right (by simp), List.getElem?_map]
    simp [hi]
  have hbytes := bytesAt_piece (m := m) hsmall hpiece
  rwa [pieceOff_str, List.length_append] at hbytes

/-- `s_args[0]`, which becomes an `int`. -/
theorem setWidth_wordAt_count :
    (wordAt (splice m pbuf (pieces strs pbuf).flatten) pbuf).setWidth 32 = BitVec.ofNat 32 strs.length := by
  have hword : (mainWords strs pbuf)[0]? = some (BitVec.ofNat 64 strs.length) := by simp [mainWords]
  have hview := wordAt_mainWords (m := m) hsmall hword
  rw [Nat.mul_zero, BitVec.add_zero] at hview
  rw [hview, BitVec.setWidth_ofNat_of_le (by omega)]

end View

/-- A string ends before the next ones start. -/
theorem room_take_add_le : ∀ {strs : List CStr} {i j : ℕ} {s : CStr}, strs[i]? = some s → i < j →
    room (strs.take i) + (s.length + 1) ≤ room (strs.take j)
  | t :: strs, 0, j + 1, s, hi, _ => by
    obtain rfl : t = s := by simpa using hi
    rw [List.take_zero, List.take_succ_cons, room_cons, show room [] = 0 from rfl]
    omega
  | t :: strs, i + 1, j + 1, s, hi, hij => by
    have ih := room_take_add_le (show strs[i]? = some s by simpa using hi) (show i < j by omega)
    rw [List.take_succ_cons, List.take_succ_cons, room_cons, room_cons]
    omega

/-- What a program with `s_args` at `sArgs` finds of its arguments. -/
structure Arrived (strs : List CStr) (sArgs limit : BitVec 64) (m m' : Mem 64) (argc : BitVec 32)
    (argv : BitVec 64) : Prop where
  argc : strs.length < 2 ^ 31 → argc.toInt = strs.length
  strings :
    ∀ i s, strs[i]? = some s → bytesAt m' (wordAt m' (argv + BitVec.ofNat 64 (8 * i))) (s.length + 1) = s ++ [0]
  behind : ∀ i < strs.length, 8 * (strs.length + 3) ≤ (wordAt m' (argv + BitVec.ofNat 64 (8 * i)) - sArgs).toNat
  inside : ∀ i s, strs[i]? = some s →
    (wordAt m' (argv + BitVec.ofNat 64 (8 * i)) - sArgs).toNat + (s.length + 1) ≤ limit.toNat
  apart : ∀ i j s, strs[i]? = some s → i < j → j < strs.length →
    (wordAt m' (argv + BitVec.ofNat 64 (8 * i)) - sArgs).toNat + (s.length + 1) ≤
      (wordAt m' (argv + BitVec.ofNat 64 (8 * j)) - sArgs).toNat
  null : wordAt m' (argv + BitVec.ofNat 64 (8 * strs.length)) = 0
  noEnv : wordAt m' (argv + BitVec.ofNat 64 (8 * (strs.length + 1))) = 0
  frame : ∀ a, limit.toNat ≤ (a - sArgs).toNat → m' a = m a

theorem arrived {limit : BitVec 64} {m : Mem 64} (hfit : 8 * (strs.length + 3) + room strs ≤ limit.toNat) :
    Arrived strs pbuf limit m (splice m pbuf (pieces strs pbuf).flatten)
      ((wordAt (splice m pbuf (pieces strs pbuf).flatten) pbuf).setWidth 32) (pbuf + 8) := by
  have hsmall : 8 * (strs.length + 3) + room strs < 2 ^ 64 := Nat.lt_of_le_of_lt hfit limit.isLt
  have hroom : ∀ i s, strs[i]? = some s → room (strs.take i) + (s.length + 1) ≤ room strs := by
    intro i s hi
    have hle := room_take_add_le hi (List.getElem?_eq_some_iff.mp hi).1
    rwa [List.take_length] at hle
  -- the distance of a string from the start of the buffer
  have hptr : ∀ i < strs.length,
      (wordAt (splice m pbuf (pieces strs pbuf).flatten) (pbuf + 8 + BitVec.ofNat 64 (8 * i)) - pbuf).toNat =
        8 * (strs.length + 3) + room (strs.take i) := by
    intro i hi
    have hle := hroom i _ (List.getElem?_eq_getElem hi)
    rw [wordAt_argv hsmall hi, BitVec.add_comm pbuf, BitVec.add_sub_cancel, BitVec.toNat_ofNat,
      Nat.mod_eq_of_lt (by omega)]
  constructor
  case argc =>
    intro hn
    rw [setWidth_wordAt_count hsmall, BitVec.toInt_eq_toNat_of_lt (by rw [BitVec.toNat_ofNat]; omega),
      BitVec.toNat_ofNat, Nat.mod_eq_of_lt (by omega)]
  case strings =>
    intro i s hi
    rw [wordAt_argv hsmall (List.getElem?_eq_some_iff.mp hi).1]
    exact bytesAt_str hsmall hi
  case behind =>
    intro i hi
    rw [hptr i hi]
    omega
  case inside =>
    intro i s hi
    have hle := hroom i s hi
    rw [hptr i (List.getElem?_eq_some_iff.mp hi).1]
    omega
  case apart =>
    intro i j s hi hij hj
    have hle := room_take_add_le hi hij
    rw [hptr i (by omega), hptr j hj]
    omega
  case null => exact wordAt_null hsmall (Or.inl rfl)
  case noEnv => exact wordAt_null hsmall (Or.inr rfl)
  case frame =>
    intro a ha
    rw [splice_apply, List.getD_eq_default _ _ (by rw [length_pieces]; omega)]

/-! ## Start-up -/

/-- The handlers of `_soct_start_main`: that of the UART, if there is one, then that of the host. -/
def startHandlers (table : ℕ → Handler) (uart : Option Line) (args : Args) (host : Handler) : Handlers :=
  let H : Handlers := ⟨table, 0, 0⟩
  let H := match uart with
    | some L => (H.registerDefault (uartHandler L)).2
    | none => H
  (H.registerDefault (htifHandler args host)).2

theorem order_startHandlers (table : ℕ → Handler) (uart : Option Line) (args : Args) (host : Handler) :
    (startHandlers table uart args host).order = (uart.map uartHandler).toList ++ [htifHandler args host] := by
  cases uart with
  | none => simp [startHandlers, Handlers.registerDefault, Handlers.order]
  | some L => simp [startHandlers, Handlers.registerDefault, Handlers.order, List.range_succ]

/-- The UART passes the call on. -/
theorem uartHandler_mainvars (L : Line) (a0 a1 a2 : BitVec 64) (σ : Sys) :
    uartHandler L 2011 a0 a1 a2 σ = some (.pass, σ) := by
  simp [uartHandler, soctHandleUart, stored]

theorem soctSyscall_mainvars (table : ℕ → Handler) (uart : Option Line) (args : Args) (host : Handler)
    (a0 a1 : BitVec 64)
    (σ : Sys) : soctSyscall (startHandlers table uart args host) 2011 a0 a1 0 σ =
      tryHandlers 2011 a0 a1 0 [htifHandler args host] σ := by
  rw [soctSyscall, order_startHandlers]
  cases uart with
  | none => rfl
  | some L =>
    rw [Option.map_some, Option.toList_some, List.singleton_append, tryHandlers, uartHandler_mainvars]
    rfl

/-- The handler, by whether the encoding fits. -/
theorem getMainvars_eq (args : Args) (pbuf limit : BitVec 64) (m : Mem 64) : getMainvars args pbuf limit m =
    some (if limit.toNat < 8 * (args.strs.length + 3) + room args.strs then (-enomem, m)
      else (0, splice m pbuf (pieces args.strs pbuf).flatten)) := by
  rw [getMainvars, encode_eq args.small, Option.map_some, length_pieces]

/-- What start-up makes of the handler's answer. -/
theorem startMain_eq (table : ℕ → Handler) (uart : Option Line) (args : Args) (host : Handler)
    (sArgs limit : BitVec 64)
    (σ : Sys) : startMain (startHandlers table uart args host) sArgs limit σ =
      some (if limit.toNat < 8 * (args.strs.length + 3) + room args.strs then ((0, 0), σ)
        else (((wordAt (splice σ.mem sArgs (pieces args.strs sArgs).flatten) sArgs).setWidth 32, sArgs + 8),
          { σ with mem := splice σ.mem sArgs (pieces args.strs sArgs).flatten })) := by
  rw [startMain, soctSyscall_mainvars, tryHandlers, htifHandler, if_pos rfl, getMainvars_eq]
  split_ifs with h
  · have hneg : (-enomem).toInt < 0 := by decide
    simp [hneg]
  · simp

/-- Arguments that fit arrive as they were; otherwise nothing is written and there are none. -/
theorem mainvars_roundTrip (table : ℕ → Handler) (uart : Option Line) (args : Args) (host : Handler)
    (sArgs limit : BitVec 64)
    (σ : Sys) :
    (8 * (args.strs.length + 3) + room args.strs ≤ limit.toNat →
      ∃ argc argv m', getMainvars args sArgs limit σ.mem = some (0, m') ∧
        startMain (startHandlers table uart args host) sArgs limit σ = some ((argc, argv), { σ with mem := m' }) ∧
          Arrived args.strs sArgs limit σ.mem m' argc argv) ∧
    (limit.toNat < 8 * (args.strs.length + 3) + room args.strs →
      getMainvars args sArgs limit σ.mem = some (-enomem, σ.mem) ∧
        startMain (startHandlers table uart args host) sArgs limit σ = some ((0, 0), σ)) := by
  rw [getMainvars_eq, startMain_eq]
  refine ⟨fun hfit => ?_, fun hlt => ?_⟩
  · rw [if_neg (by omega), if_neg (by omega)]
    exact ⟨_, _, _, rfl, rfl, arrived hfit⟩
  · rw [if_pos hlt, if_pos hlt]
    exact ⟨rfl, rfl⟩

/-- A program called as `ab` with the argument `c`. -/
def twoArgs : Args where
  strs := [[97, 98], [99]]
  noNul := by decide
  small := by decide

/-- A machine of which nothing else is asked. -/
def quiet : Handler := fun _ _ _ _ σ => some (.pass, σ)

/-- The strings of `twoArgs` in the 128 words of `s_args`, the second behind the first. -/
theorem twoArgs_roundTrip : ∃ argc argv m',
    startMain (startHandlers (fun _ => quiet) (some Line.ready) twoArgs quiet) 0x80000000 1024 ⟨fun _ => 0, []⟩ =
      some ((argc, argv), ⟨m', []⟩) ∧ argc.toInt = 2 ∧
    bytesAt m' (wordAt m' (argv + 0)) 3 = [97, 98, 0] ∧ bytesAt m' (wordAt m' (argv + 8)) 2 = [99, 0] ∧
    (wordAt m' (argv + 0) - 0x80000000).toNat + 3 ≤ (wordAt m' (argv + 8) - 0x80000000).toNat := by
  obtain ⟨argc, argv, m', -, hstart, harrived⟩ :=
    (mainvars_roundTrip (fun _ => quiet) (some Line.ready) twoArgs quiet 0x80000000 1024 ⟨fun _ => 0, []⟩).1
      (by decide)
  exact ⟨argc, argv, m', hstart, harrived.argc (by decide), harrived.strings 0 _ rfl, harrived.strings 1 _ rfl,
    harrived.apart 0 1 _ rfl (by decide) (by decide)⟩

/-- `n` empty strings. -/
def emptyArgs (n : ℕ) (h : 9 * n + 24 < 2 ^ 64) : Args where
  strs := List.replicate n []
  noNul := fun s hs => by simp [List.eq_of_mem_replicate hs]
  small := by simp; omega

theorem size_emptyArgs (n : ℕ) (h : 9 * n + 24 < 2 ^ 64) :
    8 * ((emptyArgs n h).strs.length + 3) + room (emptyArgs n h).strs = 9 * n + 24 := by
  simp [emptyArgs, room]
  omega

theorem argc_emptyArgs (n : ℕ) (h : 9 * n + 24 < 2 ^ 64) (sArgs limit : BitVec 64)
    (hfit : 9 * n + 24 ≤ limit.toNat) (σ : Sys) :
    (startMain (startHandlers (fun _ => quiet) none (emptyArgs n h) quiet) sArgs limit σ).map (fun r => r.1.1) =
      some (BitVec.ofNat 32 n) := by
  have hsize := size_emptyArgs n h
  have hlen : (emptyArgs n h).strs.length = n := List.length_replicate
  rw [startMain_eq, if_neg (by omega), Option.map_some, setWidth_wordAt_count (by omega), hlen]

/-- `2 ^ 31` of them fit into a buffer that is large enough, and their number is negative as an `int`. -/
theorem manyArgs_argc : ∃ args : Args, args.strs.length = 2147483648 ∧
    8 * (args.strs.length + 3) + room args.strs ≤ (0x480000018 : BitVec 64).toNat ∧
      (startMain (startHandlers (fun _ => quiet) none args quiet) 0x80000000 0x480000018 ⟨fun _ => 0, []⟩).map
        (fun r => r.1.1.toInt) = some (-2147483648) := by
  have hsmall : 9 * 2147483648 + 24 < 2 ^ 64 := by omega
  have hfit : 9 * 2147483648 + 24 ≤ (0x480000018 : BitVec 64).toNat := by decide
  have hargc := argc_emptyArgs 2147483648 hsmall 0x80000000 0x480000018 hfit ⟨fun _ => 0, []⟩
  refine ⟨emptyArgs 2147483648 hsmall, List.length_replicate, by rw [size_emptyArgs]; exact hfit, ?_⟩
  have hmap := congrArg (Option.map BitVec.toInt) hargc
  rw [Option.map_map] at hmap
  exact hmap

end Soceteer.Glue
