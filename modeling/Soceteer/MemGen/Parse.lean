import Soceteer.Lib.Text
import Soceteer.Mem.Geometry
import Soceteer.MemGen.Refine

/-!
# Soceteer.MemGen.Parse — reading a ReplSeqMem conf

`SOCTMemGen.parse` reads one memory description per line.  It is meant to accept what `emit` implements and to
reject everything else with a `VivadoDesignException`.

* `parseLine`, `parse`: the reader, with everything it can throw (`Failure`).
* `Describes`: the fields of a line and the values they are read as.
* `parseLine_ok_iff`, `parseLine_crash_iff`: the lines that are accepted, and those that throw something else.
* `Implemented`: what `emit` needs of a description; `Faithful`: what `parse` promises of a conf.
* `faithful_iff`: the conf texts on which the promise is kept.
-/

namespace Soceteer.MemGen

open Bits Jvm Rtl
open Mem (VivadoDesignException)

/-! ## The reader -/

/-- What `parse` throws. -/
inductive Failure
  | vivadoDesign (e : VivadoDesignException)
  | runtime (e : RuntimeException)
deriving DecidableEq

/-- The key-value pairs of a line, two tokens each. -/
def keyValues (tokens : List (List Char)) : List (List Char × List Char) :=
  (grouped 2 tokens).filterMap fun
    | [k, v] => some (k, v)
    | _ => none

/-- `kv.get`: in a map built from pairs the last one of a key stays. -/
def get (kv : List (List Char × List Char)) (key : String) : Option (List Char) := kv.reverse.lookup key.toList

/-- `req`. -/
def req (line : List Char) (kv : List (List Char × List Char)) (key : String) : Except Failure (List Char) :=
  match get kv key with
  | some v => .ok v
  | none => .error (.vivadoDesign ⟨"Malformed ReplSeqMem conf line (missing '" ++ key ++ "'): '" ++
      String.ofList line ++ "'"⟩)

/-- `knownKinds`. -/
def PortKind.ofText (cs : List Char) : Option PortKind :=
  if cs = "rw".toList then some .rw
  else if cs = "mrw".toList then some .mrw
  else if cs = "read".toList then some .read
  else if cs = "write".toList then some .write
  else if cs = "mwrite".toList then some .mwrite
  else none

def runtime {α : Type} (x : Except RuntimeException α) : Except Failure α := x.mapError .runtime

/-- The checks on a description whose port texts are `ports`. -/
def validate (name : List Char) (depth width : ℤ) (ports : List (List Char)) (maskGran : Option ℤ) :
    Except Failure MemDesc :=
  let unknown := ports.filter fun p => (PortKind.ofText p).isNone
  let m : MemDesc := ⟨name, depth, width, ports.filterMap PortKind.ofText, maskGran⟩
  let writing := (m.ports.filter PortKind.writing).length
  if !unknown.isEmpty then
    .error (.vivadoDesign ⟨"Memory " ++ String.ofList name ++ ": unsupported port kind(s) " ++
      ", ".intercalate (unknown.map String.ofList) ++ " (known: read, rw, mrw, mwrite, write)"⟩)
  else if writing > 1 then
    .error (.vivadoDesign ⟨"Memory " ++ String.ofList name ++ ": " ++ toString writing ++
      " writing ports - only one is supported (no true-dual-port template)"⟩)
  else do
    let r ← runtime (rem32 m.width m.gran)
    if r ≠ 0 then
      .error (.vivadoDesign ⟨"Memory " ++ String.ofList name ++ ": width " ++ toString m.width ++
        " is not divisible by mask granularity " ++ toString m.gran⟩)
    else .ok m

/-- The body of `parse`'s loop over the lines. -/
def parseLine (line : List Char) : Except Failure MemDesc :=
  let tokens := splitSpaces line
  if tokens.length % 2 ≠ 0 then
    .error (.vivadoDesign ⟨"Malformed ReplSeqMem conf line (odd token count): '" ++ String.ofList line ++ "'"⟩)
  else do
    let kv := keyValues tokens
    let name ← req line kv "name"
    let depth ← runtime (bigInt (← req line kv "depth"))
    let width ← runtime (parseInt (← req line kv "width"))
    let ports := splitAt ',' (← req line kv "ports")
    let maskGran ← runtime ((get kv "mask_gran").mapM parseInt)
    validate name depth width ports maskGran

/-- The lines `parse` looks at. -/
def confLines (conf : List Char) : List (List Char) := ((linesIterator conf).map trim).filter (!·.isEmpty)

/-- `SOCTMemGen.parse`: the first line that throws ends it. -/
def parse (conf : List Char) : Except Failure (List MemDesc) := (confLines conf).mapM parseLine

/-! ## The fields of a line -/

/-- The text of a field of a line. -/
def field (line : List Char) (key : String) : Option (List Char) := get (keyValues (splitSpaces line)) key

/-- The line has a value for every key, and they are read as `d`. -/
structure Describes (line : List Char) (d : MemDesc) : Prop where
  even : (splitSpaces line).length % 2 = 0
  name : field line "name" = some d.name
  depth : (field line "depth").bind bigNumeral? = some d.depth
  width : (field line "width").bind intNumeral? = some d.width
  ports : (field line "ports").map (fun ps => (splitAt ',' ps).map PortKind.ofText) = some (d.ports.map some)
  maskGran : (field line "mask_gran").map intNumeral? = d.maskGran.map some

/-- The lines `parse` reads. -/
structure Accepted (line : List Char) (d : MemDesc) : Prop extends Describes line d where
  writers : (d.ports.filter PortKind.writing).length ≤ 1
  gran_ne : d.gran ≠ 0
  gran_dvd : d.gran ∣ d.width

/-- The lines on which a conversion or the remainder throws before any check does. -/
inductive Crashes (line : List Char) : Prop
  /-- `depth` is no numeral. -/
  | depth {s : List Char} (even : (splitSpaces line).length % 2 = 0) (name : (field line "name").isSome)
      (hs : field line "depth" = some s) (bad : bigNumeral? s = none)
  /-- `width` is no numeral of an `Int`. -/
  | width {s : List Char} (even : (splitSpaces line).length % 2 = 0) (name : (field line "name").isSome)
      (depth : ((field line "depth").bind bigNumeral?).isSome)
      (hs : field line "width" = some s) (bad : intNumeral? s = none)
  /-- `mask_gran` is no numeral of an `Int`. -/
  | maskGran {s : List Char} (even : (splitSpaces line).length % 2 = 0) (name : (field line "name").isSome)
      (depth : ((field line "depth").bind bigNumeral?).isSome)
      (width : ((field line "width").bind intNumeral?).isSome) (ports : (field line "ports").isSome)
      (hs : field line "mask_gran" = some s) (bad : intNumeral? s = none)
  /-- The lane width is zero. -/
  | zero (d : MemDesc) (h : Describes line d) (writers : (d.ports.filter PortKind.writing).length ≤ 1)
      (gran : d.gran = 0)

theorem req_ok_iff {line : List Char} {kv : List (List Char × List Char)} {key : String} {v : List Char} :
    req line kv key = .ok v ↔ get kv key = some v := by
  unfold req
  cases get kv key <;> simp

theorem req_ne_runtime {line : List Char} {kv : List (List Char × List Char)} {key : String}
    {e : RuntimeException} :
    req line kv key ≠ .error (.runtime e) := by
  unfold req
  cases get kv key <;> simp

theorem runtime_ok_iff {α : Type} {x : Except RuntimeException α} {a : α} : runtime x = .ok a ↔ x = .ok a := by
  cases x <;> simp [runtime, Except.mapError]

theorem runtime_error_iff {α : Type} {x : Except RuntimeException α} {e : RuntimeException} :
    runtime x = .error (.runtime e) ↔ x = .error e := by
  cases x <;> simp [runtime, Except.mapError]

/-- Texts that are all port kinds. -/
theorem map_ofText_eq_iff {ps : List (List Char)} {ks : List PortKind} :
    ps.map PortKind.ofText = ks.map some ↔
      (ps.filter fun p => (PortKind.ofText p).isNone) = [] ∧ ps.filterMap PortKind.ofText = ks := by
  induction ps generalizing ks with
  | nil => cases ks <;> simp
  | cons p ps ih =>
    cases hp : PortKind.ofText p with
    | none => cases ks <;> simp [hp]
    | some k =>
      cases ks with
      | nil => simp [hp]
      | cons k' ks =>
        simp only [List.map_cons, hp, List.cons.injEq, Option.some.injEq, ih, List.filterMap_cons]
        simp [hp]
        tauto

section Validate

variable {name : List Char} {depth width : ℤ} {ps : List (List Char)} {mg : Option ℤ}

/-- The description `validate` looks at. -/
def described (name : List Char) (depth width : ℤ) (ps : List (List Char)) (mg : Option ℤ) : MemDesc :=
  ⟨name, depth, width, ps.filterMap PortKind.ofText, mg⟩

/-- The three outcomes of the checks. -/
theorem validate_cases (name : List Char) (depth width : ℤ) (ps : List (List Char)) (mg : Option ℤ) :
    (∃ e, validate name depth width ps mg = .error (.vivadoDesign e) ∧
      ¬ ((ps.filter fun p => (PortKind.ofText p).isNone) = [] ∧
        ((described name depth width ps mg).ports.filter PortKind.writing).length ≤ 1 ∧
        ((described name depth width ps mg).gran = 0 ∨
          (described name depth width ps mg).gran ∣ (described name depth width ps mg).width))) ∨
    ((ps.filter fun p => (PortKind.ofText p).isNone) = [] ∧
      ((described name depth width ps mg).ports.filter PortKind.writing).length ≤ 1 ∧
      (((described name depth width ps mg).gran = 0 ∧ ∃ e, validate name depth width ps mg = .error (.runtime e)) ∨
        ((described name depth width ps mg).gran ≠ 0 ∧
          (described name depth width ps mg).gran ∣ (described name depth width ps mg).width ∧
          validate name depth width ps mg = .ok (described name depth width ps mg)))) := by
  have hdef : validate name depth width ps mg = if _ then _ else if _ then _ else
    runtime (rem32 (described name depth width ps mg).width (described name depth width ps mg).gran) >>= _ := rfl
  rw [hdef]
  clear hdef
  split_ifs with hu hw
  · refine Or.inl ⟨_, rfl, fun hc => ?_⟩
    rw [hc.1] at hu
    exact absurd hu (by simp)
  · exact Or.inl ⟨_, rfl, fun hc => absurd hc.2.1 (Nat.not_le.mpr hw)⟩
  · have hu' : (ps.filter fun p => (PortKind.ofText p).isNone) = [] := by simpa using hu
    by_cases hg : (described name depth width ps mg).gran = 0
    · refine Or.inr ⟨hu', Nat.not_lt.mp hw, Or.inl ⟨hg, .arithmetic "/ by zero", ?_⟩⟩
      rw [rem32, if_pos hg]
      rfl
    · have hrem : rem32 (described name depth width ps mg).width (described name depth width ps mg).gran =
          .ok ((described name depth width ps mg).width.tmod (described name depth width ps mg).gran) := if_neg hg
      rw [hrem]
      by_cases hd : (described name depth width ps mg).gran ∣ (described name depth width ps mg).width
      · refine Or.inr ⟨hu', Nat.not_lt.mp hw, Or.inr ⟨hg, hd, ?_⟩⟩
        exact if_neg (not_not.mpr (Int.tmod_eq_zero_of_dvd hd))
      · refine Or.inl ⟨_, if_pos fun hc => hd (Int.dvd_of_tmod_eq_zero hc), fun hc => ?_⟩
        exact hc.2.2.elim hg hd

theorem validate_ok_iff {d : MemDesc} :
    validate name depth width ps mg = .ok d ↔ described name depth width ps mg = d ∧
      ps.map PortKind.ofText = d.ports.map some ∧ (d.ports.filter PortKind.writing).length ≤ 1 ∧
      d.gran ≠ 0 ∧ d.gran ∣ d.width := by
  rw [map_ofText_eq_iff]
  constructor
  · intro h
    rcases validate_cases name depth width ps mg with
      ⟨e, he, -⟩ | ⟨hu, hw, ⟨-, e, he⟩ | ⟨hg, hd, he⟩⟩ <;> rw [h] at he <;> cases he
    exact ⟨rfl, ⟨hu, rfl⟩, hw, hg, hd⟩
  · rintro ⟨rfl, ⟨hu, -⟩, hw, hg, hd⟩
    rcases validate_cases name depth width ps mg with
      ⟨e, -, hno⟩ | ⟨-, -, ⟨hg', -⟩ | ⟨-, -, he⟩⟩
    · exact absurd ⟨hu, hw, Or.inr hd⟩ hno
    · exact absurd hg' hg
    · exact he

theorem validate_crash_iff :
    (∃ e, validate name depth width ps mg = .error (.runtime e)) ↔
      ps.map PortKind.ofText = (described name depth width ps mg).ports.map some ∧
      ((described name depth width ps mg).ports.filter PortKind.writing).length ≤ 1 ∧
      (described name depth width ps mg).gran = 0 := by
  rw [map_ofText_eq_iff]
  constructor
  · rintro ⟨e, h⟩
    rcases validate_cases name depth width ps mg with
      ⟨e', he, -⟩ | ⟨hu, hw, ⟨hg, -⟩ | ⟨-, -, he⟩⟩
    · rw [h] at he
      cases he
    · exact ⟨⟨hu, rfl⟩, hw, hg⟩
    · rw [h] at he
      cases he
  · rintro ⟨⟨hu, -⟩, hw, hg⟩
    rcases validate_cases name depth width ps mg with
      ⟨e, -, hno⟩ | ⟨-, -, ⟨-, he⟩ | ⟨hg', -⟩⟩
    · exact absurd ⟨hu, hw, Or.inl hg⟩ hno
    · exact he
    · exact absurd hg hg'

end Validate

theorem mapM_parseInt_ok_iff {o : Option (List Char)} {mg : Option ℤ} :
    o.mapM parseInt = .ok mg ↔ o.map intNumeral? = mg.map some := by
  cases o with
  | none => cases mg <;> simp [pure, Except.pure]
  | some s =>
    cases hs : intNumeral? s <;> cases mg <;> simp [parseInt, hs, Functor.map, Except.map]

/-- **Accepted lines.** -/
theorem parseLine_ok_iff {line : List Char} {d : MemDesc} : parseLine line = .ok d ↔ Accepted line d := by
  dsimp only [parseLine]
  split_ifs with heven
  · refine ⟨fun h => (by cases h), fun h => absurd h.even heven⟩
  · simp only [bind_ok_iff, req_ok_iff, runtime_ok_iff, bigInt_ok_iff, parseInt_ok_iff, mapM_parseInt_ok_iff,
      validate_ok_iff]
    constructor
    · rintro ⟨name, hname, sd, hsd, depth, hdepth, sw, hsw, width, hwidth, ps, hps, mg, hmg, rfl,
        hports, hw, hg, hd⟩
      refine ⟨⟨not_not.mp heven, hname, ?_, ?_, ?_, hmg⟩, hw, hg, hd⟩
      · rw [field, hsd]
        exact hdepth
      · rw [field, hsw]
        exact hwidth
      · rw [field, hps, Option.map_some, hports]
    · rintro ⟨⟨-, hname, hdepth, hwidth, hports, hmg⟩, hw, hg, hd⟩
      obtain ⟨sd, hsd, hdepth⟩ := Option.bind_eq_some_iff.mp hdepth
      obtain ⟨sw, hsw, hwidth⟩ := Option.bind_eq_some_iff.mp hwidth
      obtain ⟨ps, hps, hports⟩ := Option.map_eq_some_iff.mp hports
      refine ⟨_, hname, sd, hsd, _, hdepth, sw, hsw, _, hwidth, ps, hps, _, hmg, ?_, hports, hw, hg, hd⟩
      rw [described, (map_ofText_eq_iff.mp hports).2]

theorem bigInt_error_iff {s : List Char} : (∃ e, bigInt s = .error e) ↔ bigNumeral? s = none := by
  unfold bigInt bigNumeral?
  cases numeral? s with
  | none => simp
  | some y => by_cases h : bitLength y ≤ 2147483647 <;> simp [h, Option.filter]

theorem parseInt_error_iff {s : List Char} : (∃ e, parseInt s = .error e) ↔ intNumeral? s = none := by
  unfold parseInt
  cases intNumeral? s <;> simp

theorem mapM_parseInt_error_iff {o : Option (List Char)} :
    (∃ e, o.mapM parseInt = .error e) ↔ ∃ s, o = some s ∧ intNumeral? s = none := by
  cases o with
  | none => simp [pure, Except.pure]
  | some s => cases hs : intNumeral? s <;> simp [parseInt, hs, Functor.map, Except.map]

/-- **Lines that throw something else.** -/
theorem parseLine_crash_iff {line : List Char} :
    (∃ e, parseLine line = .error (.runtime e)) ↔ Crashes line := by
  dsimp only [parseLine]
  split_ifs with heven
  · refine ⟨fun ⟨e, h⟩ => (by cases h), fun h => absurd ?_ heven⟩
    cases h with
    | depth heven | width heven | maskGran heven => exact heven
    | zero d h => exact h.even
  · simp only [bind_error_iff, req_ne_runtime, false_or, req_ok_iff, runtime_error_iff,
      runtime_ok_iff, bigInt_ok_iff,
      parseInt_ok_iff, mapM_parseInt_ok_iff]
    have heven := not_not.mp heven
    constructor
    · rintro ⟨e, name, hname, sd, hsd, hbad | ⟨depth, hdepth, sw, hsw, hbad | ⟨width, hwidth, ps, hps,
        hbad | ⟨mg, hmg, hval⟩⟩⟩⟩
      · exact .depth heven (by rw [field, hname]; rfl) hsd (bigInt_error_iff.mp ⟨e, hbad⟩)
      · exact .width heven (by rw [field, hname]; rfl) (by rw [field, hsd, Option.bind_some, hdepth]; rfl) hsw
          (parseInt_error_iff.mp ⟨e, hbad⟩)
      · obtain ⟨s, hs, hbad⟩ := mapM_parseInt_error_iff.mp ⟨e, hbad⟩
        exact .maskGran heven (by rw [field, hname]; rfl) (by rw [field, hsd, Option.bind_some, hdepth]; rfl)
          (by rw [field, hsw, Option.bind_some, hwidth]; rfl) (by rw [field, hps]; rfl) hs hbad
      · obtain ⟨hports, hw, hg⟩ := validate_crash_iff.mp ⟨e, hval⟩
        refine .zero (described name depth width (splitAt ',' ps) mg) ⟨heven, hname, ?_, ?_, ?_, hmg⟩ hw hg
        · rw [field, hsd]
          exact hdepth
        · rw [field, hsw]
          exact hwidth
        · rw [field, hps, Option.map_some, hports]
    · intro h
      cases h with
      | depth _ hname hs hbad =>
        obtain ⟨name, hname⟩ := Option.isSome_iff_exists.mp hname
        obtain ⟨e, he⟩ := bigInt_error_iff.mpr hbad
        exact ⟨e, name, hname, _, hs, Or.inl he⟩
      | width _ hname hdepth hs hbad =>
        obtain ⟨name, hname⟩ := Option.isSome_iff_exists.mp hname
        obtain ⟨depth, hdepth⟩ := Option.isSome_iff_exists.mp hdepth
        obtain ⟨sd, hsd, hdepth⟩ := Option.bind_eq_some_iff.mp hdepth
        obtain ⟨e, he⟩ := parseInt_error_iff.mpr hbad
        exact ⟨e, name, hname, sd, hsd, Or.inr ⟨depth, hdepth, _, hs, Or.inl he⟩⟩
      | maskGran _ hname hdepth hwidth hports hs hbad =>
        obtain ⟨name, hname⟩ := Option.isSome_iff_exists.mp hname
        obtain ⟨depth, hdepth⟩ := Option.isSome_iff_exists.mp hdepth
        obtain ⟨sd, hsd, hdepth⟩ := Option.bind_eq_some_iff.mp hdepth
        obtain ⟨width, hwidth⟩ := Option.isSome_iff_exists.mp hwidth
        obtain ⟨sw, hsw, hwidth⟩ := Option.bind_eq_some_iff.mp hwidth
        obtain ⟨ps, hps⟩ := Option.isSome_iff_exists.mp hports
        obtain ⟨e, he⟩ := mapM_parseInt_error_iff.mpr ⟨_, hs, hbad⟩
        exact ⟨e, name, hname, sd, hsd,
          Or.inr ⟨depth, hdepth, sw, hsw, Or.inr ⟨width, hwidth, ps, hps, Or.inl he⟩⟩⟩
      | zero d h hw hg =>
        obtain ⟨-, hname, hdepth, hwidth, hports, hmg⟩ := h
        obtain ⟨sd, hsd, hdepth⟩ := Option.bind_eq_some_iff.mp hdepth
        obtain ⟨sw, hsw, hwidth⟩ := Option.bind_eq_some_iff.mp hwidth
        obtain ⟨ps, hps, hports⟩ := Option.map_eq_some_iff.mp hports
        have hd : described d.name d.depth d.width (splitAt ',' ps) d.maskGran = d := by
          rw [described, (map_ofText_eq_iff.mp hports).2]
        obtain ⟨e, he⟩ := (@validate_crash_iff d.name d.depth d.width (splitAt ',' ps) d.maskGran).mpr
          (by rw [hd]; exact ⟨hports, hw, hg⟩)
        exact ⟨e, _, hname, sd, hsd, Or.inr ⟨_, hdepth, sw, hsw, Or.inr ⟨_, hwidth, ps, hps, Or.inr ⟨_, hmg, he⟩⟩⟩⟩

/-! ## What `emit` needs -/

/-- A description `emit` implements. -/
structure WellFormed (d : MemDesc) : Prop where
  depth_pos : 1 ≤ d.depth
  width_pos : 1 ≤ d.width
  gran_pos : 1 ≤ d.gran
  gran_dvd : d.gran ∣ d.width
  writers : (d.ports.filter PortKind.writing).length ≤ 1
  mask_iff : d.maskGran.isSome ↔ ∃ k ∈ d.ports, k.masked

/-- The mask ports that the emitted module tests are those it declares. -/
def MaskPortsMatch (d : MemDesc) : Prop :=
  ∀ p f, f = .mask ∨ f = .wmask → (Name.port p f ∈ (emit d).tested ↔ ∃ decl ∈ (emit d).ports,
    decl.name = .port p f)

/-- What `parse` promises of a conf. -/
def Faithful (conf : List Char) : Prop :=
  match parse conf with
  | .ok ds => ∀ d ∈ ds, WellFormed d ∧ MaskPortsMatch d
  | .error e => ∃ v, e = .vivadoDesign v

/-- The lane count of a well-formed description of an `Int` width. -/
theorem WellFormed.lanes_eq {d : MemDesc} (h : WellFormed d) (hwidth : d.width ≤ 2147483647) :
    1 ≤ d.lanes ∧ d.width = d.lanes * d.gran := by
  have hw := h.width_pos
  have hg := h.gran_pos
  obtain ⟨n, hn⟩ := h.gran_dvd
  have hn1 : 1 ≤ n := by
    by_contra hc
    have : d.gran * n ≤ 0 := Int.mul_nonpos_of_nonneg_of_nonpos (by omega) (by omega)
    omega
  have hnw : n ≤ d.width := by
    rw [hn]
    exact le_mul_of_one_le_left (by omega) hg
  have hl : d.lanes = n := by
    rw [MemDesc.lanes, hn, Int.mul_tdiv_cancel_left _ (by omega), toInt32_eq_self (by omega) (by omega)]
  rw [hl, hn, Int.mul_comm]
  exact ⟨hn1, rfl⟩

theorem WellFormed.implementable {d : MemDesc} (h : WellFormed d) (hwidth : d.width ≤ 2147483647) :
    Implementable d :=
  ⟨h.depth_pos, h.gran_pos, (h.lanes_eq hwidth).2, h.writers, h.mask_iff⟩

theorem mem_tested_iff {d : MemDesc} {n : Name} :
    n ∈ (emit d).tested ↔ ∃ kp ∈ prefixed d, ∃ x ∈ groups d, ∃ it ∈ portLogic d kp x, n ∈ it.tested := by
  simp only [Module.tested, List.mem_flatMap, mem_emit_items]
  tauto

theorem mem_tested_writeBody {d : MemDesc} {p : Prefix} {grp : List ℕ} {gi : ℕ} {f f' : Field} {n : Name} :
    n ∈ (writeBody d p grp gi f f').tested ↔ d.maskGran.isSome ∧ grp ≠ [] ∧ n = .port p f' := by
  unfold writeBody
  cases d.maskGran with
  | none => simp [Stmt.tested]
  | some g =>
    simp only [Option.isNone_some, Bool.false_eq_true, if_false, Stmt.tested_block, List.flatMap_map, Stmt.tested,
      List.append_nil, List.mem_flatMap, List.mem_singleton, Option.isSome_some, true_and]
    constructor
    · rintro ⟨l, hl, hn⟩
      exact ⟨List.ne_nil_of_mem hl, hn⟩
    · rintro ⟨hgrp, hn⟩
      obtain ⟨l, hl⟩ := List.exists_mem_of_ne_nil _ hgrp
      exact ⟨l, hl, hn⟩

/-- The mask port of a port. -/
def maskPort : PortKind × Prefix → Option Name
  | (.mwrite, p) => some (.port p .mask)
  | (.mrw, p) => some (.port p .wmask)
  | _ => none

/-- The mask ports a port's logic tests: its own, provided masks are written only through masked ports. -/
theorem mem_tested_portLogic {d : MemDesc} {kp : PortKind × Prefix} {x : List ℕ × ℕ} {p : Prefix} {f : Field}
    (hf : f = .mask ∨ f = .wmask) (hmask : kp.1.writing = true → (kp.1.masked = true ↔ d.maskGran.isSome = true)) :
    (∃ it ∈ portLogic d kp x, .port p f ∈ it.tested) ↔ x.1 ≠ [] ∧ maskPort kp = some (.port p f) := by
  have hen : f ≠ .en ∧ f ≠ .wmode := by rcases hf with rfl | rfl <;> decide
  obtain ⟨kind, q⟩ := kp
  obtain ⟨grp, gi⟩ := x
  cases kind <;>
    simp [portLogic, Item.tested, Stmt.tested, mem_tested_writeBody, maskPort, hen, PortKind.masked,
      PortKind.writing] at hmask ⊢
  · simp [hmask]
  · simp [hmask, eq_comm]
  · simp [hmask]
  · simp [hmask, eq_comm]

theorem mem_ports_iff {d : MemDesc} {p : Prefix} {f : Field} (hf : f = .mask ∨ f = .wmask) :
    (∃ decl ∈ (emit d).ports, decl.name = .port p f) ↔ ∃ kp ∈ prefixed d, maskPort kp = some (.port p f) := by
  simp only [emit, List.mem_flatMap]
  constructor
  · rintro ⟨decl, ⟨⟨kind, q⟩, hkp, hdecl⟩, hname⟩
    refine ⟨(kind, q), hkp, ?_⟩
    rcases hf with rfl | rfl <;> cases kind <;> simp [portDecls] at hdecl <;>
      rcases hdecl with rfl | rfl | rfl | rfl | rfl | rfl | rfl <;> simp_all [maskPort]
  · rintro ⟨⟨kind, q⟩, hkp, hm⟩
    cases kind <;> simp only [maskPort, reduceCtorEq, Option.some.injEq] at hm
    · exact ⟨⟨.input, some (d.lanes - 1), .port q .wmask⟩, ⟨_, hkp, by simp [portDecls]⟩, hm⟩
    · exact ⟨⟨.input, some (d.lanes - 1), .port q .mask⟩, ⟨_, hkp, by simp [portDecls]⟩, hm⟩

theorem WellFormed.maskPortsMatch {d : MemDesc} (h : WellFormed d) (hwidth : d.width ≤ 2147483647) :
    MaskPortsMatch d := by
  intro p f hf
  rw [mem_tested_iff, mem_ports_iff hf]
  have himpl := h.implementable hwidth
  constructor
  · rintro ⟨kp, hkp, x, hx, htest⟩
    exact ⟨kp, hkp, ((mem_tested_portLogic hf (himpl.masked_iff hkp)).mp htest).2⟩
  · rintro ⟨kp, hkp, hm⟩
    -- the first lane group is not empty
    have hlanes := (h.lanes_eq hwidth).1
    refine ⟨kp, hkp, (groupLanes d.lanes.toNat 0, 0), mem_groups.mpr ⟨by dsimp only; omega, rfl⟩,
      (mem_tested_portLogic hf (himpl.masked_iff hkp)).mpr ⟨?_, hm⟩⟩
    simp [groupLanes]
    omega

/-! ## When the promise is kept -/

/-- Descriptions that `parse` lets through although `emit` does not implement them. -/
def Loose (d : MemDesc) : Prop :=
  d.depth < 1 ∨ d.width < 1 ∨ d.gran < 1 ∨ (d.maskGran.isSome ∧ ∀ k ∈ d.ports, k.masked = false) ∨
    (d.maskGran = none ∧ ∃ k ∈ d.ports, k.masked)

theorem Accepted.wellFormed_iff {line : List Char} {d : MemDesc} (h : Accepted line d) :
    WellFormed d ↔ ¬ Loose d := by
  constructor
  · rintro ⟨hdepth, hwidth, hgran, -, -, hmask⟩ (hl | hl | hl | ⟨hs, hl⟩ | ⟨hs, hl⟩)
    · omega
    · omega
    · omega
    · obtain ⟨k, hk, hkm⟩ := hmask.mp hs
      rw [hl k hk] at hkm
      cases hkm
    · rw [hs] at hmask
      exact absurd (hmask.mpr hl) (by simp)
  · intro hl
    simp only [Loose, not_or, not_and, not_lt] at hl
    obtain ⟨hdepth, hwidth, hgran, hm1, hm2⟩ := hl
    refine ⟨hdepth, hwidth, hgran, h.gran_dvd, h.writers, fun hs => ?_, fun hk => ?_⟩
    · by_contra hc
      push Not at hc
      exact hm1 hs fun k hk => by simpa using hc k hk
    · by_contra hc
      exact hm2 (by simpa using hc) hk

theorem Accepted.width_le {line : List Char} {d : MemDesc} (h : Accepted line d) : d.width ≤ 2147483647 := by
  obtain ⟨s, -, hs⟩ := Option.bind_eq_some_iff.mp h.width
  exact (intNumeral?_bounds hs).2

/-- **When `parse` keeps its promise**: the first line it does not accept is no crash, and if it accepts every line
none of them is loose. -/
theorem faithful_iff (conf : List Char) :
    Faithful conf ↔
      (∀ pre line post, confLines conf = pre ++ line :: post → (∀ l ∈ pre, ∃ d, Accepted l d) → ¬ Crashes line) ∧
      ((∀ l ∈ confLines conf, ∃ d, Accepted l d) → ∀ l ∈ confLines conf, ∀ d, Accepted l d → ¬ Loose d) := by
  unfold Faithful
  cases hp : parse conf with
  | ok ds =>
    obtain ⟨hlines, hds⟩ := exists_of_mapM_ok hp
    have hacc : ∀ l ∈ confLines conf, ∃ d, Accepted l d := fun l hl =>
      (hlines l hl).imp fun d hd => parseLine_ok_iff.mp hd.2
    constructor
    · intro h
      refine ⟨fun pre line post hsplit _ hcrash => ?_, fun _ l hl d hd => ?_⟩
      · obtain ⟨e, he⟩ := parseLine_crash_iff.mpr hcrash
        obtain ⟨d, -, hd⟩ := hlines line (by rw [hsplit]; simp)
        rw [he] at hd
        cases hd
      · obtain ⟨d', hd', hl'⟩ := hlines l hl
        rw [parseLine_ok_iff.mpr hd] at hl'
        cases hl'
        exact hd.wellFormed_iff.mp (h d hd').1
    · rintro ⟨-, h⟩ d hd
      obtain ⟨l, hl, hld⟩ := hds d hd
      have hld := parseLine_ok_iff.mp hld
      have hwf := hld.wellFormed_iff.mpr (h hacc l hl d hld)
      exact ⟨hwf, hwf.maskPortsMatch hld.width_le⟩
  | error e =>
    obtain ⟨pre, line, post, hsplit, hpre, hline⟩ := mapM_error hp
    have hpre' : ∀ l ∈ pre, ∃ d, Accepted l d := fun l hl => (hpre l hl).imp fun d hd => parseLine_ok_iff.mp hd
    constructor
    · rintro ⟨v, rfl⟩
      refine ⟨fun pre' line' post' hsplit' hacc hcrash => ?_, fun hacc => ?_⟩
      · obtain ⟨e, he⟩ := parseLine_crash_iff.mpr hcrash
        have hfirst := mapM_of_first_error post' he
          fun l hl => (hacc l hl).imp fun d hd => parseLine_ok_iff.mpr hd
        rw [← hsplit'] at hfirst
        rw [parse, hfirst] at hp
        cases hp
      · obtain ⟨d, hd⟩ := hacc line (by rw [hsplit]; simp)
        rw [parseLine_ok_iff.mpr hd] at hline
        cases hline
    · rintro ⟨h, -⟩
      cases e with
      | vivadoDesign v => exact ⟨v, rfl⟩
      | runtime e => exact absurd (parseLine_crash_iff.mp ⟨e, hline⟩) (h pre line post hsplit hpre')

/-- A masked memory without its mask granularity is read as a memory of one lane, and a depth that is no numeral
throws a `NumberFormatException`. -/
theorem lostMask_not_faithful :
    ¬ Faithful "name data_array_ext depth 512 width 64 ports mrw".toList ∧
      ¬ Faithful "name data_array_ext depth 2k width 64 ports rw".toList := by
  have h1 : parse "name data_array_ext depth 512 width 64 ports mrw".toList =
      .ok [⟨"data_array_ext".toList, 512, 64, [.mrw], none⟩] := by decide
  have h2 : parse "name data_array_ext depth 2k width 64 ports rw".toList =
      .error (.runtime (.numberFormat "2k".toList)) := by decide
  constructor
  · intro h
    rw [Faithful, h1] at h
    exact absurd (h _ (List.mem_singleton.mpr rfl)).1.mask_iff (by decide)
  · intro h
    rw [Faithful, h2] at h
    obtain ⟨v, hv⟩ := h
    cases hv

end Soceteer.MemGen
