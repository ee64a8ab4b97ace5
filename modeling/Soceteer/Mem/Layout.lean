import Mathlib.Algebra.BigOperators.Ring.List
import Mathlib.Algebra.Order.BigOperators.Group.List
import Mathlib.Data.Int.ConditionallyCompleteOrder
import Mathlib.Data.Rat.Cast.Order
import Mathlib.Tactic.FieldSimp
import Soceteer.Mem.Deinterleaver
import Soceteer.Mem.Ports

/-!
# Soceteer.Mem.Layout — the memory layout of a board

`SOCTMem.genMemConfig` resolves the parts and capacities of a board's DDR4 ports and makes a memory layout of them;
`ExtMem` of a multi-channel layout has the summed capacity.

* `genMemConfig`: the launcher's choice of a layout, with everything it throws.
* `MemLayout.extMem`: the `ExtMem` of a layout.
* `assignAddrTcl`: the address range that a DDR4 controller is given.
* `SharesFit`: the dense range of every channel lies within the capacity of its own port.
* `shares_fit_iff`: the boards and arguments whose layouts have that property.
-/

namespace Soceteer.Mem

open Jvm

/-! ## The launcher -/

/-- `FPGA`, as far as the memory layout reads it. -/
structure FPGA where
  friendlyName : String
  extDDR4Ports : List DDR4PortParams := []
  intDDR4Ports : List DDR4PortParams := []

/-- `SOCTArgs`, as far as the memory layout reads them. -/
structure SOCTArgs where
  board : Option FPGA
  extMemParts : List (List Char) := []
  xlen : ℤ := 64

/-- `WithSingleMemLayout` and `WithMultiMemLayout`. -/
inductive MemLayout
  | single (mem : DDR4PortParams)
  | multi (mems : List DDR4PortParams)
deriving DecidableEq

def design {α : Type} (message : String) : Except Failure α := .error (.vivadoDesign ⟨message⟩)

section Launcher

variable (locale : Locale)

/-- The part of an external port, and the port, on the custom interface where the part is not the preset one. -/
def selectPart (board : FPGA) (requestedOpt : Option (List Char)) (port : DDR4PortParams) :
    Except Failure (List Char × DDR4PortParams) :=
  match requestedOpt, port.defaultMemoryPart with
  | some requested, some preset =>
    if vivadoPartName locale requested ≠ vivadoPartName locale preset then
      if !port.supportsCustomInterface then
        design ("Port " ++ port.portName ++ ": the board interface enforces memory part '" ++
          String.ofList preset ++
          "' and the board definition of " ++ board.friendlyName ++ " does not provide custom-interface data " ++
          "(ddr4PinMap/ddr4TimePeriodPs/ddr4InputClockPeriodPs), so '" ++ String.ofList requested ++
          "' cannot be used. Add the custom-interface data to the board definition (see DDR4PortParams).")
      else port.withCustomInterface.map fun port => (requested, port)
    else .ok (requested, port)
  | some requested, none =>
    design ("Port " ++ port.portName ++ ": --ext-mem-part '" ++ String.ofList requested ++
      "' was provided, but the board definition of " ++ board.friendlyName ++
        " does not declare the part enforced " ++
      "by its DDR4 board interface (defaultMemoryPart), so preset and request cannot be compared. Declare " ++
      "defaultMemoryPart for the port.")
  | none, some preset => .ok (preset, port)
  | none, none =>
    design ("Port " ++ port.portName ++ ": the board definition of " ++ board.friendlyName ++
      " does not declare the " ++
      "memory part enforced by its DDR4 board interface. " ++
      "Declare defaultMemoryPart for the port (see DDR4PortParams).")

/-- One external port with its part and capacity. -/
def resolvePort (board : FPGA) (requestedOpt : Option (List Char)) (port : DDR4PortParams) :
    Except Failure DDR4PortParams := do
  let (part, port) ← selectPart locale board requestedOpt port
  match ← capacityOf locale part with
  | none =>
    design ("The capacity of memory part '" ++ String.ofList part ++
      "' could not be derived from its name. Add it to " ++
      "PartRegistry (known parts: " ++ mkString knownParts ++ ").")
  | some cap => pure ((port.withCap cap).withMemoryPart part)

/-- `extMem` of `genMemConfig`. -/
def extMem (board : FPGA) (extMemParts : List (List Char)) : Except Failure (List DDR4PortParams) :=
  if board.extDDR4Ports ≠ [] then
    if extMemParts ≠ [] ∧ extMemParts.length ≠ board.extDDR4Ports.length then
      design ("Number of memory parts provided via --ext-mem-part (" ++ toString extMemParts.length ++
        ") does not " ++
        "match the number of external DDR4 ports on the board " ++ board.friendlyName ++ ": (" ++
        toString board.extDDR4Ports.length ++ "). Please provide a part for each external DDR4 port.")
    else board.extDDR4Ports.zipIdx.mapM fun (port, i) => resolvePort locale board extMemParts[i]? port
  else if extMemParts ≠ [] then
    design ("--ext-mem-part was provided, but the board " ++ board.friendlyName ++
      " has no external DDR4 ports. " ++
      "Memory parts can only be selected for user-insertable (external) DIMMs.")
  else .ok []

/-- `_memCaps` of `genMemConfig`. -/
def boardMems (board : FPGA) (extMemParts : List (List Char)) : Except Failure (List DDR4PortParams) := do
  let ext ← extMem locale board extMemParts
  if ext ≠ [] ∧ board.intDDR4Ports ≠ [] then
    design
      ("Board " ++ board.friendlyName ++ " declares both external (DIMM) and internal (soldered) DDR4 ports; " ++
      "mixing the two in one design is unsupported.")
  else pure (ext ++ board.intDDR4Ports)

/-- `memCaps` of `genMemConfig`; the capacities before and after the limit are logged. -/
def memCaps (args : SOCTArgs) (mems : List DDR4PortParams) : Except Failure (List DDR4PortParams) :=
  if args.xlen = 32 then do
    let _ ← mems.mapM DDR4PortParams.getCap
    let limited ← limitToMaxCap locale mems MAX_MEM_SIZE_32_BIT
    let _ ← limited.mapM DDR4PortParams.getCap
    pure limited
  else .ok mems

def genMemConfig (args : SOCTArgs) (topSupportMultiMem : Bool) : Except Failure (Option MemLayout) :=
  match args.board with
  | none => .error (.noSuchElement "None.get")
  | some board => do
    let mems ← memCaps locale args (← boardMems locale board args.extMemParts)
    match mems with
    | [] => pure none
    | chosen :: rest =>
      if !topSupportMultiMem then do
        -- the warning about the other channels shows the capacity of the chosen one
        if rest ≠ [] then
          let _ ← chosen.getCap
        pure (some (.single chosen))
      else pure (some (.multi mems))

end Launcher

/-! ## `ExtMem` and the controllers -/

/-- rocket-chip's `MemoryPortParams`, as far as a layout changes them or a controller reads them. -/
structure MemoryPortParams where
  base : ℕ
  size : ℤ
  nMemoryChannels : ℕ
deriving DecidableEq

namespace MemLayout

/-- `RegisteredMems`. -/
def registeredMems : MemLayout → List DDR4PortParams
  | single mem => [mem]
  | multi mems => mems

/-- `ExtMem` of a layout over the configuration `up`. -/
def extMem (layout : MemLayout) (up : Option MemoryPortParams) : Except Failure (Option MemoryPortParams) :=
  match layout, up with
  | _, none => .ok none
  | single mem, some x => mem.getCap.map fun cap => some { x with nMemoryChannels := 1, size := cap.toInt }
  | multi mems, some x => (mems.mapM DDR4PortParams.getCap).map fun caps =>
      some { x with nMemoryChannels := mems.length, size := (Bytes.sum caps).toInt }

end MemLayout

/-- The range of `DDR4.assignAddrTcl`: the aperture, base and capacity, rounded up to a power of two. -/
def assignRange (instanceName : String) (port : DDR4PortParams) (ext : MemoryPortParams) : Except Failure ℕ := do
  let cap ← port.getCap
  let aperture := cap.toInt + ext.base
  if aperture ≤ 0 then
    design ("DDR4 " ++ instanceName ++ " has a non-positive address aperture (" ++ toString aperture ++
      "). Check the memory capacity and ExtMem base address.")
  else pure (2 ^ bitLength (aperture - 1))

/-- `DDR4.assignAddrTcl`. -/
def assignAddrTcl (instanceName axiAddrSpacePin bdPath : String) (port : DDR4PortParams) (ext : MemoryPortParams) :
    Except Failure String :=
  (assignRange instanceName port ext).map fun range =>
    "assign_bd_address -offset 0 -range 0x" ++ (toHex range).toUpper ++
      " -target_address_space [get_bd_addr_spaces " ++
      axiAddrSpacePin ++ "] [get_bd_addr_segs " ++ bdPath ++ "/C0_DDR4_MEMORY_MAP/C0_DDR4_ADDRESS_BLOCK]"

/-- The assigned range reaches over the whole aperture. -/
theorem le_assignRange {instanceName : String} {port : DDR4PortParams} {ext : MemoryPortParams} {cap : Bytes}
    {range : ℕ} (hcap : port.capOpt = some cap) (h : assignRange instanceName port ext = .ok range) :
    ext.base + cap.toInt ≤ range := by
  obtain ⟨_, hget, hrest⟩ := bind_ok_iff.mp h
  obtain rfl := Option.some.inj (hcap.symm.trans (DDR4PortParams.getCap_ok_iff.mp hget))
  dsimp only at hrest
  split_ifs at hrest with hpos
  · cases hrest
  have hrange : 2 ^ bitLength (cap.toInt + ext.base - 1) = range := Except.ok.inj hrest
  obtain ⟨y, hy⟩ := Int.eq_ofNat_of_zero_le (show 0 ≤ cap.toInt + ext.base - 1 by omega)
  have hlt : y < 2 ^ bitLength (y : ℤ) := by
    unfold bitLength
    by_cases h0 : y = 0
    · simp [h0]
    · simpa [h0, show ¬ (y : ℤ) < 0 by omega] using Nat.lt_log2_self
  rw [← hy, hrange] at hlt
  omega

/-! ## The shares of the channels -/

/-- The dense range of a channel, `[base, base + size / N)`. -/
def shareRange (ext : MemoryPortParams) : Set ℤ :=
  {x | (ext.base : ℤ) ≤ x ∧ (x : ℚ) < ext.base + (ext.size : ℚ) / ext.nMemoryChannels}

/-- The channels that rocket-chip makes of `ExtMem`: as many as asked for, together they see the memory, and the
memory is a whole number of interleave granules. -/
structure Presents (ext : MemoryPortParams) (sys : InterleavedSystem) : Prop where
  base_eq : sys.base = ext.base
  length_eq : sys.axiMems.length = ext.nMemoryChannels
  covers : ∀ a : ℕ, sys.Sees a ↔ ext.base ≤ a ∧ (a : ℤ) < ext.base + ext.size
  granules : ∀ g ∈ sys.geos, ((2 ^ (g.dropLsb + g.dropBits) : ℕ) : ℤ) ∣ ext.size

/-- **Every channel's share fits its memory.**  `ExtMem` has the summed capacity of the ports, and its share for
one of the channels is within the capacity of every port and so within every controller's aperture. -/
structure SharesFit (ext : MemoryPortParams) (mems : List DDR4PortParams) : Prop where
  summed : ∃ caps : List Bytes, mems.map (·.capOpt) = caps.map some ∧ ext.size = (caps.map Bytes.toInt).sum
  dense : ∀ sys, Presents ext sys → ∀ i < sys.axiMems.length,
    {x : ℤ | ∃ a d : ℕ, sys.Maps i a d ∧ x = d} = shareRange ext
  fits : ∀ port ∈ mems, ∀ cap, port.capOpt = some cap → (ext.size : ℚ) / ext.nMemoryChannels ≤ cap.toInt
  inside : ∀ port ∈ mems, ∀ cap, port.capOpt = some cap →
    shareRange ext ⊆ Set.Ico (ext.base : ℤ) (ext.base + cap.toInt)

/-- The deinterleavers compact every channel onto the share. -/
theorem dense_of_presents {ext : MemoryPortParams} {sys : InterleavedSystem} (h : Presents ext sys) {i : ℕ}
    (hi : i < sys.axiMems.length) : {x : ℤ | ∃ a d : ℕ, sys.Maps i a d ∧ x = d} = shareRange ext := by
  obtain ⟨m, g, hm, hg⟩ := InterleavedSystem.exists_channel hi
  obtain ⟨-, n, hgeo⟩ := InterleavedSystem.isGeometry hm hg
  -- some address is seen, so the size is positive
  obtain ⟨s, hs⟩ := List.exists_mem_of_ne_nil _ hgeo.nonempty
  have hsees := (h.covers s.base).mp ⟨m, List.mem_of_getElem? hm, s, hs, s.contains_base⟩
  obtain ⟨S, hS⟩ := Int.eq_ofNat_of_zero_le (show 0 ≤ ext.size by omega)
  have hcover : ∀ a, sys.Sees a ↔ a ∈ Set.Ico sys.base (sys.base + S) := by
    intro a
    rw [h.covers, Set.mem_Ico, h.base_eq, hS]
    omega
  have hgran : ∀ g ∈ sys.geos, 2 ^ (g.dropLsb + g.dropBits) ∣ S := by
    intro g hg
    have hdvd := h.granules g hg
    rw [hS] at hdvd
    exact Int.natCast_dvd_natCast.mp hdvd
  have himage := InterleavedSystem.image_eq hgran hcover hm hg
  have hlen := InterleavedSystem.length_eq_two_pow hgran hcover hm hg
  have hdvd : sys.axiMems.length ∣ S := by
    rw [hlen]
    exact (Dvd.intro_left _ (pow_add 2 g.dropLsb g.dropBits).symm).trans (hgran g (List.mem_of_getElem? hg))
  obtain ⟨q, rfl⟩ := hdvd
  have hpos : 0 < sys.axiMems.length := by omega
  rw [Nat.mul_div_cancel_left _ hpos] at himage
  have hquot : (ext.size : ℚ) / ext.nMemoryChannels = q := by
    rw [hS, ← h.length_eq]
    push_cast
    rw [mul_div_cancel_left₀ _ (by positivity)]
  ext x
  rw [shareRange, Set.mem_ofPred_eq, Set.mem_ofPred_eq, hquot]
  have hcast : ((x : ℚ) < ext.base + q) ↔ x < ext.base + q := by exact_mod_cast Iff.rfl
  rw [hcast]
  constructor
  · rintro ⟨a, d, hmaps, rfl⟩
    have hd : d ∈ Set.Ico sys.base (sys.base + q) := himage ▸ ⟨a, hmaps⟩
    rw [Set.mem_Ico, h.base_eq] at hd
    omega
  · rintro ⟨hlo, hhi⟩
    obtain ⟨d, rfl⟩ := Int.eq_ofNat_of_zero_le (show 0 ≤ x by omega)
    have hd : d ∈ Set.Ico sys.base (sys.base + q) := by
      rw [Set.mem_Ico, h.base_eq]
      omega
    rw [← himage] at hd
    obtain ⟨a, hmaps⟩ := hd
    exact ⟨a, d, hmaps, rfl⟩

/-- Numbers that are all at least their average are all equal to it. -/
theorem eq_average {l : List ℤ} (h : ∀ x ∈ l, l.sum ≤ l.length * x) {x : ℤ} (hx : x ∈ l) :
    l.sum = l.length * x := by
  by_contra hne
  have hlt : (l.map fun _ => l.sum).sum < (l.map fun y => (l.length : ℤ) * y).sum :=
    List.sum_lt_sum _ _ h ⟨x, hx, lt_of_le_of_ne (h x hx) hne⟩
  rw [List.map_const', List.sum_replicate, List.sum_map_mul_left, List.map_id', nsmul_eq_mul] at hlt
  exact absurd hlt (lt_irrefl _)

/-- The shares of a layout fit iff all its ports have one capacity and the sum is a `Long`. -/
theorem extMem_fit_iff {mems : List DDR4PortParams} (hne : mems ≠ []) (up : MemoryPortParams) :
    (∃ ext, (MemLayout.multi mems).extMem (some up) = .ok (some ext) ∧ SharesFit ext mems) ↔
      ∃ (n : ℕ) (c : Bytes), mems.map (·.capOpt) = List.replicate n (some c) ∧
        -2 ^ 63 ≤ n * c.toInt ∧ n * c.toInt < 2 ^ 63 := by
  have hpos : 0 < mems.length := List.length_pos_iff.mpr hne
  constructor
  · rintro ⟨ext, hext, hfit⟩
    obtain ⟨caps, hcaps, hsum⟩ := hfit.summed
    have hlen : caps.length = mems.length := by simpa using (congrArg List.length hcaps).symm
    rw [MemLayout.extMem, mapM_getCap_ok_iff.mpr hcaps] at hext
    obtain rfl := Option.some.inj (Except.ok.inj hext)
    have hle : ∀ x ∈ caps.map Bytes.toInt, (caps.map Bytes.toInt).sum ≤ (caps.map Bytes.toInt).length * x := by
      intro x hx
      obtain ⟨cap, hcap, rfl⟩ := List.mem_map.mp hx
      have hmem : some cap ∈ mems.map (·.capOpt) := hcaps ▸ List.mem_map_of_mem hcap
      obtain ⟨port, hport, heq⟩ := List.mem_map.mp hmem
      have hshare := hfit.fits port hport cap heq
      dsimp only at hshare hsum
      rw [div_le_iff₀ (by exact_mod_cast hpos), hsum] at hshare
      rw [List.length_map, hlen, mul_comm]
      exact_mod_cast hshare
    obtain ⟨c, hc⟩ := List.exists_mem_of_length_pos (hlen ▸ hpos)
    have hall : ∀ cap ∈ caps, cap = c := by
      intro cap hcap
      have h1 := eq_average hle (List.mem_map_of_mem hcap)
      have h2 := eq_average hle (List.mem_map_of_mem hc)
      rw [h1, List.length_map, hlen] at h2
      exact Bytes.toInt_inj.mp (mul_left_cancel₀ (by exact_mod_cast hpos.ne') h2)
    have hrep : caps = List.replicate caps.length c := List.eq_replicate_iff.mpr ⟨rfl, hall⟩
    have hbound := Bytes.sum_toInt_eq_iff.mp hsum
    rw [hrep, List.map_replicate, List.sum_replicate, nsmul_eq_mul] at hbound
    exact ⟨caps.length, c, by rw [hcaps, hrep, List.map_replicate, List.length_replicate], hbound⟩
  · rintro ⟨n, c, hcaps, hlo, hhi⟩
    rw [← List.map_replicate] at hcaps
    have hlen : mems.length = n := by simpa using congrArg List.length hcaps
    have hsum : ((List.replicate n c).map Bytes.toInt).sum = n * c.toInt := by
      rw [List.map_replicate, List.sum_replicate, nsmul_eq_mul]
    have hexact : (Bytes.sum (List.replicate n c)).toInt = n * c.toInt := by
      rw [← hsum]
      exact Bytes.sum_toInt_eq_iff.mpr (by rw [hsum]; exact ⟨hlo, hhi⟩)
    have hshare : ((n * c.toInt : ℤ) : ℚ) / mems.length = c.toInt := by
      rw [← hlen]
      push_cast
      exact mul_div_cancel_left₀ _ (by exact_mod_cast hpos.ne')
    have hcap : ∀ port ∈ mems, ∀ cap, port.capOpt = some cap → cap = c := by
      intro port hport cap heq
      have hmem : some cap ∈ (List.replicate n c).map some := hcaps ▸ List.mem_map.mpr ⟨port, hport, heq⟩
      exact (by simpa using hmem : _ ∧ cap = c).2
    refine ⟨{ up with nMemoryChannels := mems.length, size := n * c.toInt }, ?_, ⟨_, hcaps, hsum.symm⟩,
      fun sys hsys i hi => dense_of_presents hsys hi, ?_, ?_⟩
    · rw [MemLayout.extMem, mapM_getCap_ok_iff.mpr hcaps]
      exact congrArg (fun s => Except.ok (some { up with nMemoryChannels := mems.length, size := s })) hexact
    · intro port hport cap heq
      rw [hcap port hport cap heq]
      exact hshare.le
    · rintro port hport cap heq x ⟨hlo', hhi'⟩
      rw [hcap port hport cap heq]
      dsimp only at hlo' hhi' ⊢
      rw [hshare] at hhi'
      exact ⟨hlo', by exact_mod_cast hhi'⟩

/-! ## What the inputs say -/

section Inputs

variable {locale : Locale} {board : FPGA} {args : SOCTArgs}

/-- The capacity that a part name stands for. -/
def partCap (locale : Locale) (part : List Char) : Option ℤ :=
  match capacityOf locale part with
  | .ok (some cap) => some cap.toInt
  | _ => none

/-- The capacities that the inputs give the ports: those of the requested or preset parts, and the declared
ones. -/
def givenCaps (locale : Locale) (board : FPGA) (extMemParts : List (List Char)) : List (Option ℤ) :=
  board.extDDR4Ports.zipIdx.map (fun (port, i) => (extMemParts[i]?.or port.defaultMemoryPart).bind
    (partCap locale)) ++
    board.intDDR4Ports.map fun port => port.capOpt.map Bytes.toInt

/-- The capacities for which the shares fit.  For 32 bits the largest one is at least the whole budget, or ports of
the largest capacity use it up evenly; otherwise all are equal, with a `Long` for a sum. -/
def EvenCaps (xlen : ℤ) (caps : List ℤ) : Prop :=
  if xlen = 32 then
    ∃ c ∈ caps, (∀ x ∈ caps, x ≤ c) ∧ (2 ^ 31 ≤ c ∨ ∃ n : ℕ, -2 ^ 63 ≤ n * c ∧ FillsEvenly (2 ^ 31) caps c n)
  else ∃ c, (∀ x ∈ caps, x = c) ∧ -2 ^ 63 ≤ caps.length * c ∧ caps.length * c < 2 ^ 63

theorem selectPart_ok {requestedOpt : Option (List Char)} {port port' : DDR4PortParams} {part : List Char}
    (h : selectPart locale board requestedOpt port = .ok (part, port')) :
    requestedOpt.or port.defaultMemoryPart = some part := by
  unfold selectPart at h
  split at h
  · split_ifs at h
    · cases h
    · obtain ⟨_, -, hpair⟩ := map_ok_iff.mp h
      cases hpair
      rfl
    · cases h
      rfl
  · cases h
  · rename_i hpreset
    cases h
    exact hpreset
  · cases h

theorem resolvePort_ok {requestedOpt : Option (List Char)} {port port' : DDR4PortParams}
    (h : resolvePort locale board requestedOpt port = .ok port') :
    port'.capOpt.map Bytes.toInt = (requestedOpt.or port.defaultMemoryPart).bind (partCap locale) := by
  obtain ⟨⟨part, sel⟩, hsel, hrest⟩ := bind_ok_iff.mp h
  obtain ⟨capOpt, hcap, hport⟩ := bind_ok_iff.mp hrest
  rw [selectPart_ok hsel, Option.bind_some, partCap, hcap]
  cases capOpt with
  | none => cases hport
  | some cap =>
    cases hport
    rfl

/-- The ports before the 32-bit limit have the given capacities. -/
theorem boardMems_ok {extMemParts : List (List Char)} {mems : List DDR4PortParams}
    (h : boardMems locale board extMemParts = .ok mems) :
    mems.map (fun port => port.capOpt.map Bytes.toInt) = givenCaps locale board extMemParts := by
  obtain ⟨ext, hext, hrest⟩ := bind_ok_iff.mp h
  have hcaps : ext.map (fun port => port.capOpt.map Bytes.toInt) =
      board.extDDR4Ports.zipIdx.map fun (port, i) =>
        (extMemParts[i]?.or port.defaultMemoryPart).bind (partCap locale) := by
    unfold extMem at hext
    split_ifs at hext with hports hlen hparts
    · cases hext
    · exact map_eq_of_mapM_ok hext fun _ _ hp => resolvePort_ok hp
    · cases hext
    · cases hext
      rw [not_not.mp hports]
      rfl
  split_ifs at hrest
  · cases hrest
  · cases hrest
    rw [List.map_append, hcaps, givenCaps]

/-- What a multi-channel layout consists of. -/
theorem genMemConfig_ok {layout : MemLayout} (hboard : args.board = some board)
    (h : genMemConfig locale args true = .ok (some layout)) :
    ∃ given mems, boardMems locale board args.extMemParts = .ok given ∧ memCaps locale args given = .ok mems ∧
      mems ≠ [] ∧ layout = .multi mems := by
  unfold genMemConfig at h
  rw [hboard] at h
  obtain ⟨given, hgiven, hrest⟩ := bind_ok_iff.mp h
  obtain ⟨mems, hmems, hlayout⟩ := bind_ok_iff.mp hrest
  cases mems with
  | nil => cases hlayout
  | cons mem mems =>
    cases hlayout
    exact ⟨given, _, hgiven, hmems, by simp, rfl⟩

theorem keyed_ok {mems : List DDR4PortParams} {ports : List (DDR4PortParams × Bytes)}
    (h : keyed mems = .ok ports) :
    mems.map (·.capOpt) = ports.map fun p => some p.2 := by
  refine (map_eq_of_mapM_ok h fun mem p hp => ?_).symm
  obtain ⟨cap, hcap, rfl⟩ := map_ok_iff.mp hp
  exact (DDR4PortParams.getCap_ok_iff.mp hcap).symm

/-- The ports after the 32-bit limit. -/
theorem memCaps_ok_32 {given mems : List DDR4PortParams} (hxlen : args.xlen = 32)
    (h : memCaps locale args given = .ok mems) :
    ∃ ports, given.map (·.capOpt) = ports.map (fun p => some p.2) ∧
      mems = limitGo MAX_MEM_SIZE_32_BIT (sortByCap ports) := by
  rw [memCaps, if_pos hxlen] at h
  obtain ⟨_, -, hrest⟩ := bind_ok_iff.mp h
  obtain ⟨limited, hlimited, hrest⟩ := bind_ok_iff.mp hrest
  obtain ⟨_, -, hmems⟩ := bind_ok_iff.mp hrest
  cases hmems
  have hpos : ¬ MAX_MEM_SIZE_32_BIT < ⟨0⟩ ∧ MAX_MEM_SIZE_32_BIT ≠ ⟨0⟩ := by decide
  rw [limitToMaxCap, if_neg hpos.1, if_neg hpos.2] at hlimited
  obtain ⟨ports, hports, hgo⟩ := map_ok_iff.mp hlimited
  exact ⟨ports, keyed_ok hports, hgo.symm⟩

theorem perm_sortByCap (ports : List (DDR4PortParams × Bytes)) : (sortByCap ports).Perm ports :=
  List.perm_insertionSort _ ports

theorem sortByCap_sorted (ports : List (DDR4PortParams × Bytes)) :
    (sortByCap ports).Pairwise fun a b => b.2 ≤ a.2 := by
  have : IsTrans (DDR4PortParams × Bytes) fun a b => b.2 ≤ a.2 :=
    ⟨fun _ _ _ h1 h2 => Bytes.le_iff.mpr ((Bytes.le_iff.mp h2).trans (Bytes.le_iff.mp h1))⟩
  have : Std.Total fun a b : DDR4PortParams × Bytes => b.2 ≤ a.2 :=
    ⟨fun a b => (le_total b.2.toInt a.2.toInt).imp Bytes.le_iff.mpr Bytes.le_iff.mpr⟩
  exact List.pairwise_insertionSort _ ports

/-- The capacities that remain under the 32-bit limit are equal iff the given ones are even. -/
theorem limitGo_even_iff {ports : List (DDR4PortParams × Bytes)} :
    (∃ (n : ℕ) (c : Bytes), (limitGo MAX_MEM_SIZE_32_BIT (sortByCap ports)).map (·.capOpt) =
      List.replicate n (some c) ∧
      -2 ^ 63 ≤ n * c.toInt ∧ n * c.toInt < 2 ^ 63) ↔ ports = [] ∨ EvenCaps 32 (keys ports) := by
  have hM := MAX_MEM_SIZE_32_BIT_toInt
  have hperm := perm_sortByCap ports
  have hkeys : (keys (sortByCap ports)).Perm (keys ports) := hperm.map _
  cases hsort : sortByCap ports with
  | nil =>
    rw [hsort] at hperm
    obtain rfl := hperm.symm.eq_nil
    exact ⟨fun _ => .inl rfl, fun _ => ⟨0, ⟨0⟩, rfl, by simp, by simp⟩⟩
  | cons p sorted =>
    rw [hsort] at hperm hkeys
    have hne : ports ≠ [] := fun h => absurd (h ▸ hperm.length_eq) (by simp)
    have hcons := List.pairwise_cons.mp (hsort ▸ sortByCap_sorted ports)
    have hle : ∀ q ∈ p :: sorted, q.2.toInt ≤ p.2.toInt := by
      intro q hq
      rcases List.mem_cons.mp hq with rfl | hq
      · exact le_rfl
      · exact Bytes.le_iff.mp (hcons.1 q hq)
    have hmax : ∀ x ∈ keys ports, x ≤ p.2.toInt := by
      intro x hx
      obtain ⟨q, hq, rfl⟩ := List.mem_map.mp (hkeys.mem_iff.mpr hx)
      exact hle q hq
    have hmem : p.2.toInt ∈ keys ports := hkeys.mem_iff.mp List.mem_cons_self
    rw [EvenCaps, if_pos rfl, or_iff_right hne]
    rcases le_or_gt (2 ^ 31) p.2.toInt with hbig | hsmall
    · -- the first port takes the whole budget
      have hcapped : (if p.2 ≤ MAX_MEM_SIZE_32_BIT then p.2 else MAX_MEM_SIZE_32_BIT) = MAX_MEM_SIZE_32_BIT := by
        split_ifs with hfit
        · exact Bytes.toInt_inj.mp (by rw [Bytes.le_iff] at hfit; omega)
        · rfl
      have hkept : (limitGo MAX_MEM_SIZE_32_BIT (p :: sorted)).map (·.capOpt) = [some MAX_MEM_SIZE_32_BIT] := by
        rw [limitGo_cons (by omega), hcapped, limitGo_nonpos (by decide)]
        rfl
      exact ⟨fun _ => ⟨_, hmem, hmax, .inl hbig⟩, fun _ => ⟨1, _, hkept, by rw [hM]; decide, by rw [hM]; decide⟩⟩
    constructor
    · rintro ⟨n, c, hkept, hlo, -⟩
      have hhead : c = p.2 := by
        rw [limitGo_cons (by omega), if_pos (Bytes.le_iff.mpr (by omega))] at hkept
        cases n with
        | zero => simp at hkept
        | succ n =>
          rw [List.map_cons, List.replicate_succ, List.cons.injEq] at hkept
          exact (Option.some.inj hkept.1).symm
      subst hhead
      have hfill := fillsEvenly_of_limitGo (by omega) hle hkept
      rw [hM] at hfill
      exact ⟨_, hmem, hmax, .inr ⟨n, hlo, hfill.perm hkeys⟩⟩
    · rintro ⟨c, hc, hcmax, hbig | ⟨n, hlo, hfill⟩⟩
      · exact absurd (hmax c hc) (by omega)
      obtain rfl : c = p.2.toInt := le_antisymm (hmax c hc) (hcmax _ hmem)
      have hfill' := hfill.perm hkeys.symm
      rw [← show MAX_MEM_SIZE_32_BIT.toInt = 2 ^ 31 from hM] at hfill'
      obtain ⟨m, hm, hkept⟩ := limitGo_of_fillsEvenly (by omega) (hsort ▸ sortByCap_sorted ports) hle hfill'
      refine ⟨m, p.2, hkept, ?_⟩
      rcases le_or_gt 0 p.2.toInt with hpos | hneg
      · have hmn : (m : ℤ) * p.2.toInt ≤ n * p.2.toInt := mul_le_mul_of_nonneg_right (by omega) hpos
        have hm0 : 0 ≤ (m : ℤ) * p.2.toInt := mul_nonneg (by omega) hpos
        have hn : n * p.2.toInt ≤ 2 ^ 31 := by
          rcases hfill with ⟨-, -, h⟩ | ⟨-, h | h⟩
          · exact h
          · exact h.le
          · omega
        omega
      · have hmn : (n : ℤ) * p.2.toInt ≤ m * p.2.toInt := mul_le_mul_of_nonpos_right (by omega) hneg.le
        have hm0 : (m : ℤ) * p.2.toInt ≤ 0 := mul_nonpos_of_nonneg_of_nonpos (by omega) hneg.le
        omega

theorem memCaps_ok {given mems : List DDR4PortParams} (hxlen : args.xlen ≠ 32)
    (h : memCaps locale args given = .ok mems) : mems = given := by
  rw [memCaps, if_neg hxlen] at h
  exact (Except.ok.inj h).symm

/-- Without a limit the capacities are equal iff the given ones are even. -/
theorem replicate_iff_evenCaps {mems : List DDR4PortParams} {xlen : ℤ} (hxlen : xlen ≠ 32) (hne : mems ≠ []) :
    (∃ (n : ℕ) (c : Bytes), mems.map (·.capOpt) = List.replicate n (some c) ∧
      -2 ^ 63 ≤ n * c.toInt ∧ n * c.toInt < 2 ^ 63) ↔
      ∃ caps, mems.map (fun port => port.capOpt.map Bytes.toInt) = caps.map some ∧ EvenCaps xlen caps := by
  have hcomp :
      mems.map (fun port => port.capOpt.map Bytes.toInt) = (mems.map (·.capOpt)).map (Option.map Bytes.toInt) := by
    rw [List.map_map]
    rfl
  constructor
  · rintro ⟨n, c, hrep, hbound⟩
    refine ⟨List.replicate n c.toInt, ?_, ?_⟩
    · rw [hcomp, hrep, List.map_replicate, List.map_replicate]
      rfl
    · rw [EvenCaps, if_neg hxlen, List.length_replicate]
      exact ⟨c.toInt, fun x hx => (List.mem_replicate.mp hx).2, hbound⟩
  · rintro ⟨caps, hcaps, heven⟩
    rw [EvenCaps, if_neg hxlen] at heven
    obtain ⟨c, hall, hbound⟩ := heven
    have hlen : mems.length = caps.length := by simpa using congrArg List.length hcaps
    have heach : ∀ port ∈ mems, port.capOpt.map Bytes.toInt = some c := by
      intro port hport
      have hmem : port.capOpt.map Bytes.toInt ∈ caps.map some := hcaps ▸ List.mem_map.mpr ⟨port, hport, rfl⟩
      obtain ⟨x, hx, heq⟩ := List.mem_map.mp hmem
      rw [← heq, hall x hx]
    obtain ⟨port, hport⟩ := List.exists_mem_of_ne_nil _ hne
    obtain ⟨cap, -, rfl⟩ := Option.map_eq_some_iff.mp (heach port hport)
    refine ⟨mems.length, cap, List.eq_replicate_iff.mpr ⟨List.length_map .., fun capOpt hcap => ?_⟩, by rwa [hlen]⟩
    obtain ⟨port', hport', rfl⟩ := List.mem_map.mp hcap
    obtain ⟨cap', hcap', heq⟩ := Option.map_eq_some_iff.mp (heach port' hport')
    rw [hcap', Bytes.toInt_inj.mp heq]

/-- **The shares of a multi-channel layout fit exactly when the given capacities are even.** -/
theorem shares_fit_iff {layout : MemLayout} (hboard : args.board = some board)
    (h : genMemConfig locale args true = .ok (some layout)) (up : MemoryPortParams) :
    (∃ ext, layout.extMem (some up) = .ok (some ext) ∧ SharesFit ext layout.registeredMems) ↔
      ∃ caps, givenCaps locale board args.extMemParts = caps.map some ∧ EvenCaps args.xlen caps := by
  obtain ⟨given, mems, hgiven, hmems, hne, rfl⟩ := genMemConfig_ok hboard h
  rw [MemLayout.registeredMems, extMem_fit_iff hne, ← boardMems_ok hgiven]
  by_cases hxlen : args.xlen = 32
  · obtain ⟨ports, hports, rfl⟩ := memCaps_ok_32 hxlen hmems
    have hsome : ports ≠ [] := by
      rintro rfl
      exact hne rfl
    have hkeys : given.map (fun port => port.capOpt.map Bytes.toInt) = (keys ports).map some := by
      have hmap := congrArg (List.map (Option.map Bytes.toInt)) hports
      rw [List.map_map, List.map_map] at hmap
      rw [keys, List.map_map]
      exact hmap
    rw [limitGo_even_iff, or_iff_right hsome, hxlen, hkeys]
    constructor
    · exact fun heven => ⟨_, rfl, heven⟩
    · rintro ⟨caps, hcaps, heven⟩
      rwa [List.map_injective_iff.mpr (Option.some_injective _) hcaps]
  · obtain rfl := memCaps_ok hxlen hmems
    exact replicate_iff_evenCaps hxlen hne

end Inputs

/-- `toUpperCase` on ASCII text, in the root locale. -/
def asciiLocale : Locale where
  toUpperCase := List.map Char.toUpper
  humanReadable b := toString b.toInt ++ ".00 B"

/-- The VCU118: two soldered channels of 2 GiB. -/
def VCU118 : FPGA where
  friendlyName := "VCU118"
  intDDR4Ports := [DDR4PortParams.withCap { portName := "ddr4_sdram_c1" } ⟨2 * GiB⟩,
    DDR4PortParams.withCap { portName := "ddr4_sdram_c2" } ⟨2 * GiB⟩]

/-- Both channels of a 64-bit VCU118 design get the 2 GiB that they have. -/
theorem VCU118_shares_fit :
    ∃ layout ext, genMemConfig asciiLocale { board := some VCU118 } true = .ok (some layout) ∧
      layout.extMem (some ⟨0x80000000, 0x10000000, 1⟩) = .ok (some ext) ∧ SharesFit ext layout.registeredMems := by
  have hgen :
      genMemConfig asciiLocale { board := some VCU118 } true = .ok (some (.multi VCU118.intDDR4Ports)) := by
    decide
  obtain ⟨ext, hext, hfit⟩ := (shares_fit_iff rfl hgen ⟨0x80000000, 0x10000000, 1⟩).mpr
    ⟨[2147483648, 2147483648], by decide, 2147483648, by simp, by decide, by decide⟩
  exact ⟨_, ext, hgen, hext, hfit⟩

/-- A DIMM socket that supports any module. -/
def socket (portName : String) : DDR4PortParams where
  portName := portName
  defaultMemoryPart := some "MTA4ATF25664HZ-2G6".toList
  ddr4TimePeriodPs := some 938
  ddr4InputClockPeriodPs := some 3335
  ddr4PinMap := some [{ signal := "act_n", index := none, loc := "AC17" }]

/-- A board with two such sockets. -/
def twoSockets : FPGA where
  friendlyName := "TwoSockets"
  extDDR4Ports := [socket "ddr4_c0", socket "ddr4_c1"]

/-- The sockets with a 2 GiB and a 4 GiB module. -/
def unevenMems : List DDR4PortParams :=
  [((socket "ddr4_c0").withCap ⟨2 * GiB⟩).withMemoryPart "MTA4ATF25664HZ-2G6".toList,
    { ((socket "ddr4_c1").withCap ⟨4 * GiB⟩).withMemoryPart "MTA4ATF51264HZ-2G6".toList with
      customInterface := true }]

/-- A 2 GiB and a 4 GiB module: the two channels of the 6 GiB get 3 GiB each, more than the first module has. -/
theorem twoSockets_overrun :
    ∃ layout ext, genMemConfig asciiLocale
        { board := some twoSockets,
          extMemParts := ["MTA4ATF25664HZ-2G6".toList, "MTA4ATF51264HZ-2G6".toList] } true =
          .ok (some layout) ∧
      layout.extMem (some ⟨0x80000000, 0x10000000, 1⟩) = .ok (some ext) ∧ ext.nMemoryChannels = 2 ^ 1 ∧
      ∃ port cap, port ∈ layout.registeredMems ∧ port.capOpt = some cap ∧
        ¬ (ext.size : ℚ) / ext.nMemoryChannels ≤ cap.toInt ∧
        ¬ shareRange ext ⊆ Set.Ico (ext.base : ℤ) (ext.base + cap.toInt) := by
  have hcap : Bytes.toInt ⟨2 * GiB⟩ = 2147483648 := by decide
  refine ⟨.multi unevenMems, ⟨0x80000000, 6442450944, 2⟩, by decide, by decide, rfl, _, ⟨2 * GiB⟩,
    List.mem_cons_self, rfl, ?_, fun hsub => ?_⟩
  · rw [hcap]
    norm_num
  · -- the first byte behind the module
    have hmem :=
      hsub (show (0x100000000 : ℤ) ∈ shareRange ⟨0x80000000, 6442450944, 2⟩ from ⟨by norm_num, by norm_num⟩)
    rw [hcap, Set.mem_Ico] at hmem
    norm_num at hmem

end Soceteer.Mem
