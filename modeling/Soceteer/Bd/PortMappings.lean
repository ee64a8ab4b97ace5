import Mathlib.Data.List.InsertIdx
import Mathlib.Data.List.Sort
import Mathlib.Data.List.TakeWhile
import Soceteer.Lib.Text

/-!
# Soceteer.Bd.PortMappings — attributes above the ports of the top module

`addPortMappings` (`vivado/SOCTBdBuilder.scala`) finds the line that declares a port by a regular expression, and
inserts the attributes of the port above it.

* `isAttributeLine`, `portDeclRegex`, `findTargets`, `insertTargets`, `addPortMappings`: the source.
* `Port`, `Header`: the ports between the parentheses of a module, one on each line.
* `Line`, `annotate`: the same run with the origin of each line; `annotate_text`.
* `weave`: lines with a block above each; `insertTargets_weave`.
* `Annotated`, `Reached`, `annotated_iff`: the attributes are where they belong exactly for ports that are reached.
-/

namespace Soceteer.Bd

open Soceteer.Jvm

/-! ## The source -/

def isAttributeLine (line : List Char) : Bool := ['(', '*'].isPrefixOf (trim line)

/-- A character of a word. -/
def isWord (c : Char) : Bool := c.isAlphanum || c = '_'

/-- `\b` between two parts of a line. -/
def boundary (before after : List Char) : Bool := before.getLast?.any isWord != after.head?.any isWord

/-- `\s*$`; the end of a line may be marked by a character that is no blank. -/
def atEnd (rest : List Char) : Bool :=
  rest.dropWhile isSpace ∈ [[], ['\u0085'], ['\u2028'], ['\u2029']]

/-- `\s*(,|\)|;)\s*$` -/
def delimited (rest : List Char) : Bool :=
  match rest.dropWhile isSpace with
  | [] => false
  | c :: cs => c ∈ [',', ')', ';'] && atEnd cs

/-- `portDeclRegex` matches in `before ++ after`, from `after` on. -/
def matchesAt (portName before after : List Char) : Bool :=
  -- `(?i)` folds the case of ASCII letters
  (after.take portName.length).map Char.toLower = portName.map Char.toLower && boundary before after &&
    boundary (before ++ after.take portName.length) (after.drop portName.length) &&
      delimited (after.drop portName.length)

/-- `(?i)\bportName\b\s*(,|\)|;)\s*$` is found in the line. -/
def portDeclRegex (portName line : List Char) : Bool :=
  (List.range (line.length + 1)).any fun i => matchesAt portName (line.take i) (line.drop i)

section Source

variable {α β γ : Type}

/-- The line of a port. -/
def idxOpt (lines : List (List Char)) (portName : List Char) : Option ℕ :=
  lines.findIdx? fun line => !isAttributeLine line && portDeclRegex portName line

/-- `targets`, without the names. -/
def findTargets (portMappings : List (List Char × List β)) (lines : List (List Char)) : List (ℕ × List β) :=
  portMappings.filterMap fun m => (idxOpt lines m.1).map fun idx => (idx, m.2)

/-- `attrStrings.reverse.foreach` -/
def insertAttrs (line : β → α) (lines : List α) (target : ℕ × List β) : List α :=
  target.2.reverse.foldl (fun lines a => lines.insertIdx target.1 (line a)) lines

/-- `targets.sortBy(-_._1).foreach` -/
def insertTargets (line : β → α) (targets : List (ℕ × List β)) (lines : List α) : List α :=
  (targets.insertionSort fun a b => b.1 ≤ a.1).foldl (insertAttrs line) lines

def addPortMappings (portMappings : List (List Char × List (List Char))) (portLines : List (List Char)) :
    List (List Char) :=
  insertTargets (fun a => [' ', ' '] ++ a) (findTargets portMappings portLines) portLines

end Source

/-! ## Headers -/

/-- A character of a Verilog identifier. -/
def isIdent (c : Char) : Bool := isWord c || c = '$'

/-- A port: its name and the text in front of it on its line. -/
structure Port where
  decl : List Char
  name : List Char
  blank : ∃ c, decl.getLast? = some c ∧ isSpace c
  first : ∃ c, name.head? = some c ∧ isWord c
  ident : ∀ c ∈ name, isIdent c

/-- The ports of a module. -/
structure Header where
  ports : List Port
  nodup : (ports.map Port.name).Nodup

/-- The line of port `i`: all but the last end in a comma. -/
def Header.line (h : Header) (i : ℕ) (p : Port) : List Char :=
  p.decl ++ p.name ++ if i + 1 < h.ports.length then [','] else []

/-- The text between the parentheses, which stand at the end of a line and on one of their own. -/
def Header.lines (h : Header) : List (List Char) := [] :: h.ports.mapIdx h.line

/-! ## Origins -/

/-- A line of the result: one that was there, with its number, or an attribute, with the number of its mapping. -/
inductive Line
  | port (idx : ℕ) (text : List Char)
  | attr (mapping : ℕ) (text : List Char)
deriving DecidableEq

namespace Line

def text : Line → List Char
  | port _ t => t
  | attr _ t => t

def port? : Line → Option (List Char)
  | port _ t => some t
  | attr _ _ => none

def isAttr : Line → Bool
  | port _ _ => false
  | attr _ _ => true

/-- It is an attribute of the mapping. -/
def isFrom (m : ℕ) : Line → Bool
  | port _ _ => false
  | attr n _ => n = m

end Line

/-- The attributes with the number of their mapping. -/
def numbered (k : ℕ) (portMappings : List (List Char × List (List Char))) :
    List (List Char × List (ℕ × List Char)) :=
  (portMappings.zipIdx k).map fun x => (x.1.1, x.1.2.map fun a => (x.2, a))

def portsFrom (k : ℕ) (portLines : List (List Char)) : List Line := (portLines.zipIdx k).map fun x => .port x.2 x.1

/-- The line of an attribute. -/
def attrLine (a : ℕ × List Char) : Line := .attr a.1 ([' ', ' '] ++ a.2)

/-- `addPortMappings` with the origins of the lines. -/
def annotate (portMappings : List (List Char × List (List Char))) (portLines : List (List Char)) : List Line :=
  insertTargets attrLine (findTargets (numbered 0 portMappings) portLines) (portsFrom 0 portLines)

/-- The attributes directly above line `i`, with those in `acc` found so far. -/
def aboveFrom (acc : List Line) (i : ℕ) : List Line → List Line
  | [] => []
  | .attr m t :: ls => aboveFrom (acc ++ [.attr m t]) i ls
  | .port j _ :: ls => if j = i then acc else aboveFrom [] i ls

/-- The block of attributes directly above line `i`. -/
def above (out : List Line) (i : ℕ) : List Line := aboveFrom [] i out

/-- The lines are all there, and the attributes of each port of the module are above its declaration and nowhere
else. -/
structure Annotated (h : Header) (portMappings : List (List Char × List (List Char))) : Prop where
  text : (annotate portMappings h.lines).map Line.text = addPortMappings portMappings h.lines
  kept : (annotate portMappings h.lines).filterMap Line.port? = h.lines
  placed : ∀ m portName attrStrings, portMappings[m]? = some (portName, attrStrings) →
    ∀ j p, h.ports[j]? = some p → p.name = portName → ∀ i < h.lines.length,
      (above (annotate portMappings h.lines) i).filter (Line.isFrom m) =
        if i = j + 1 then attrStrings.map fun a => attrLine (m, a) else []

/-! ## Insertion from the bottom to the top -/

section Weave

variable {α β γ : Type}

/-- The lines, each under its block. -/
def weave : List α → (ℕ → List α) → List α
  | [], _ => []
  | l :: ls, blocks => blocks 0 ++ l :: weave ls fun i => blocks (i + 1)

theorem weave_nil : ∀ lines : List α, weave lines (fun _ => []) = lines
  | [] => rfl
  | l :: ls => by rw [weave, weave_nil ls, List.nil_append]

/-- A line goes on top of the block of line `idx`, as there is no block above. -/
theorem insertIdx_weave (x : α) : ∀ {lines : List α} {blocks : ℕ → List α} {idx : ℕ}, idx < lines.length →
    (∀ i < idx, blocks i = []) →
    (weave lines blocks).insertIdx idx x = weave lines (Function.update blocks idx (x :: blocks idx))
  | [], _, _, hidx, _ => absurd hidx (Nat.not_lt_zero _)
  | l :: ls, blocks, 0, _, _ => by
    have htail : (fun i => Function.update blocks 0 (x :: blocks 0) (i + 1)) = fun i => blocks (i + 1) := by
      ext1 i
      rw [Function.update_of_ne (Nat.succ_ne_zero i)]
    rw [weave, weave, List.insertIdx_zero, Function.update_self, htail, List.cons_append]
  | l :: ls, blocks, idx + 1, hidx, hfree => by
    have htail : (fun i => Function.update blocks (idx + 1) (x :: blocks (idx + 1)) (i + 1)) =
        Function.update (fun i => blocks (i + 1)) idx (x :: blocks (idx + 1)) := by
      ext1 i
      simp [Function.update_apply]
    have hrest : (weave ls fun i => blocks (i + 1)).insertIdx idx x =
        weave ls (Function.update (fun i => blocks (i + 1)) idx (x :: blocks (idx + 1))) :=
      insertIdx_weave x (Nat.lt_of_succ_lt_succ hidx) fun i hi => hfree (i + 1) (Nat.succ_lt_succ hi)
    rw [weave, weave, hfree 0 (Nat.succ_pos idx), Function.update_of_ne (Nat.succ_ne_zero idx).symm, htail,
      hfree 0 (Nat.succ_pos idx), List.nil_append, List.nil_append, List.insertIdx_succ_cons, hrest]

/-- The block of a target is put above the ones that its line has. -/
def addBlock (line : β → α) (blocks : ℕ → List α) (target : ℕ × List β) : ℕ → List α :=
  Function.update blocks target.1 (target.2.map line ++ blocks target.1)

theorem insertAttrs_weave (line : β → α) {lines : List α} {blocks : ℕ → List α} {idx : ℕ}
    (hidx : idx < lines.length)
    (hfree : ∀ i < idx, blocks i = []) (attrs : List β) :
    insertAttrs line (weave lines blocks) (idx, attrs) = weave lines (addBlock line blocks (idx, attrs)) := by
  rw [insertAttrs, List.foldl_reverse, addBlock]
  induction attrs with
  | nil => simp
  | cons a attrs ih =>
    rw [List.foldr_cons, ih, insertIdx_weave (line a) hidx, Function.update_self,
      Function.update_idem, List.map_cons,
      List.cons_append]
    intro i hi
    rw [Function.update_of_ne (Nat.ne_of_lt hi)]
    exact hfree i hi

/-- Targets from the bottom to the top. -/
theorem foldl_weave (line : β → α) {lines : List α} : ∀ {targets : List (ℕ × List β)} {blocks : ℕ → List α},
    targets.Pairwise (fun a b => b.1 ≤ a.1) → (∀ t ∈ targets, t.1 < lines.length) →
    (∀ t ∈ targets, ∀ i < t.1, blocks i = []) →
    targets.foldl (insertAttrs line) (weave lines blocks) = weave lines (targets.foldl (addBlock line) blocks)
  | [], _, _, _, _ => rfl
  | t :: ts, blocks, hsorted, hidx, hfree => by
    obtain ⟨hle, hsorted⟩ := List.pairwise_cons.mp hsorted
    rw [List.foldl_cons, List.foldl_cons,
      insertAttrs_weave line (hidx t List.mem_cons_self) (hfree t List.mem_cons_self) t.2]
    refine foldl_weave line hsorted (fun u hu => hidx u (List.mem_cons_of_mem t hu)) fun u hu i hi => ?_
    have hne : i ≠ t.1 := Nat.ne_of_lt (Nat.lt_of_lt_of_le hi (hle u hu))
    rw [addBlock, Function.update_of_ne hne]
    exact hfree u (List.mem_cons_of_mem t hu) i hi

/-- The order in which `insertTargets` goes through the targets. -/
def sorted (targets : List (ℕ × List β)) : List (ℕ × List β) := targets.insertionSort fun a b => b.1 ≤ a.1

theorem sorted_perm (targets : List (ℕ × List β)) : (sorted targets).Perm targets :=
  List.perm_insertionSort _ targets

theorem insertTargets_weave (line : β → α) {targets : List (ℕ × List β)} {lines : List α}
    (hidx : ∀ t ∈ targets, t.1 < lines.length) :
    insertTargets line targets lines = weave lines ((sorted targets).foldl (addBlock line) fun _ => []) := by
  have htotal : Std.Total fun a b : ℕ × List β => b.1 ≤ a.1 := ⟨fun a b => Nat.le_total b.1 a.1⟩
  have htrans : IsTrans (ℕ × List β) fun a b => b.1 ≤ a.1 := ⟨fun a b c hab hbc => hbc.trans hab⟩
  have hrun := foldl_weave line (List.pairwise_insertionSort (fun a b : ℕ × List β => b.1 ≤ a.1) targets)
    (fun t ht => hidx t ((sorted_perm targets).mem_iff.mp ht)) fun _ _ _ _ => rfl
  rw [weave_nil] at hrun
  exact hrun

/-- Targets without such lines leave those of a block as they are. -/
theorem filter_foldl_addBlock (line : β → α) (q : α → Bool) (i : ℕ) :
    ∀ {targets : List (ℕ × List β)} {blocks : ℕ → List α},
    (∀ t ∈ targets, ∀ a ∈ t.2, q (line a) = false) →
    (targets.foldl (addBlock line) blocks i).filter q = (blocks i).filter q
  | [], _, _ => rfl
  | t :: ts, blocks, h => by
    have hnone : (t.2.map line).filter q = [] := by
      refine List.filter_eq_nil_iff.mpr fun x hx => ?_
      obtain ⟨a, ha, rfl⟩ := List.mem_map.mp hx
      simp [h t List.mem_cons_self a ha]
    rw [List.foldl_cons, filter_foldl_addBlock line q i fun u hu => h u (List.mem_cons_of_mem t hu), addBlock,
      Function.update_apply]
    split_ifs with hi
    · rw [List.filter_append, hnone, List.nil_append, hi]
    · rfl

end Weave

/-! ## The result -/

section Result

variable {α β γ : Type} {portMappings : List (List Char × List (List Char))} {portLines : List (List Char)}

theorem map_insertAttrs (line : β → α) (g : α → γ) (lines : List α) (target : ℕ × List β) :
    (insertAttrs line lines target).map g = insertAttrs (g ∘ line) (lines.map g) target := by
  rw [insertAttrs, insertAttrs, List.foldl_reverse, List.foldl_reverse]
  induction target.2 with
  | nil => rfl
  | cons a attrs ih => rw [List.foldr_cons, List.foldr_cons, ← ih, List.map_insertIdx, Function.comp_apply]

theorem map_insertTargets (line : β → α) (g : α → γ) (targets : List (ℕ × List β)) (lines : List α) :
    (insertTargets line targets lines).map g = insertTargets (g ∘ line) targets (lines.map g) := by
  rw [insertTargets, insertTargets]
  induction targets.insertionSort (fun a b => b.1 ≤ a.1) generalizing lines with
  | nil => rfl
  | cons t ts ih => rw [List.foldl_cons, List.foldl_cons, ih, map_insertAttrs]

/-- Whatever else the attributes carry is not looked at. -/
theorem insertTargets_map (line : β → α) (g : γ → β) (targets : List (ℕ × List γ)) (lines : List α) :
    insertTargets line (targets.map (Prod.map id (List.map g))) lines =
      insertTargets (line ∘ g) targets lines := by
  have hattrs : ∀ (lines : List α) (t : ℕ × List γ),
      insertAttrs line lines (Prod.map id (List.map g) t) = insertAttrs (line ∘ g) lines t := by
    intro lines t
    rw [insertAttrs, insertAttrs, Prod.map_snd, ← List.map_reverse, List.foldl_map]
    rfl
  rw [insertTargets, insertTargets, ← List.map_insertionSort (fun a b : ℕ × List γ => b.1 ≤ a.1)
    (fun a b : ℕ × List β => b.1 ≤ a.1) (Prod.map id (List.map g)) targets fun a _ b _ => Iff.rfl, List.foldl_map]
  congr 1
  ext1 lines
  ext1 t
  exact hattrs lines t

theorem findTargets_map (g : γ → β) (portMappings : List (List Char × List γ)) (lines : List (List Char)) :
    findTargets (portMappings.map (Prod.map id (List.map g))) lines =
      (findTargets portMappings lines).map (Prod.map id (List.map g)) := by
  rw [findTargets, findTargets, List.filterMap_map, List.map_filterMap]
  refine List.filterMap_congr fun m _ => ?_
  rw [Function.comp_apply, Prod.map_fst, id_eq, Prod.map_snd, Option.map_map]
  rfl

theorem numbered_map_snd (k : ℕ) (portMappings : List (List Char × List (List Char))) :
    (numbered k portMappings).map (Prod.map id (List.map Prod.snd)) = portMappings := by
  rw [numbered, List.map_map]
  conv_rhs => rw [← List.zipIdx_map_fst k portMappings]
  refine List.map_congr_left fun x _ => ?_
  rw [Function.comp_apply, Prod.map_apply, List.map_map]
  exact Prod.ext rfl (List.map_id _)

theorem portsFrom_text (k : ℕ) (portLines : List (List Char)) :
    (portsFrom k portLines).map Line.text = portLines := by
  rw [portsFrom, List.map_map]
  exact List.zipIdx_map_fst k portLines

/-- With the origins left out it is the result of `addPortMappings`. -/
theorem annotate_text (portMappings : List (List Char × List (List Char))) (portLines : List (List Char)) :
    (annotate portMappings portLines).map Line.text = addPortMappings portMappings portLines := by
  have htargets := findTargets_map Prod.snd (numbered 0 portMappings) portLines
  rw [numbered_map_snd] at htargets
  rw [annotate, map_insertTargets, portsFrom_text, addPortMappings, htargets, insertTargets_map]
  rfl

theorem findTargets_lt {t : ℕ × List β} {portMappings : List (List Char × List β)}
    (h : t ∈ findTargets portMappings portLines) :
    t.1 < portLines.length := by
  obtain ⟨m, -, hm⟩ := List.mem_filterMap.mp h
  obtain ⟨idx, hidx, rfl⟩ := Option.map_eq_some_iff.mp hm
  exact (List.findIdx?_eq_some_iff_getElem.mp hidx).1

/-- The blocks above the lines. -/
def blocks (portMappings : List (List Char × List (List Char))) (portLines : List (List Char)) : ℕ → List Line :=
  (sorted (findTargets (numbered 0 portMappings) portLines)).foldl (addBlock attrLine) fun _ => []

theorem annotate_eq :
    annotate portMappings portLines = weave (portsFrom 0 portLines) (blocks portMappings portLines) := by
  refine insertTargets_weave attrLine fun t ht => ?_
  rw [portsFrom, List.length_map, List.length_zipIdx]
  exact findTargets_lt ht

theorem foldl_addBlock_isAttr : ∀ {targets : List (ℕ × List (ℕ × List Char))} {blocks : ℕ → List Line},
    (∀ i, ∀ l ∈ blocks i, l.isAttr) → ∀ i, ∀ l ∈ targets.foldl (addBlock attrLine) blocks i, l.isAttr
  | [], _, h => h
  | t :: ts, blocks, h => by
    have hstep : ∀ i, ∀ l ∈ addBlock attrLine blocks t i, l.isAttr := by
      intro i l hl
      rw [addBlock, Function.update_apply] at hl
      split_ifs at hl with hi
      · rcases List.mem_append.mp hl with hl | hl
        · obtain ⟨a, -, rfl⟩ := List.mem_map.mp hl
          rfl
        · exact h _ l hl
      · exact h i l hl
    rw [List.foldl_cons]
    exact foldl_addBlock_isAttr hstep

theorem blocks_isAttr (i : ℕ) : ∀ l ∈ blocks portMappings portLines i, l.isAttr :=
  foldl_addBlock_isAttr (fun _ _ hl => absurd hl List.not_mem_nil) i

/-- Without the attributes, the lines are there in their order. -/
theorem weave_port? : ∀ (portLines : List (List Char)) (k : ℕ) {b : ℕ → List Line}, (∀ i, ∀ l ∈ b i, l.isAttr) →
    (weave (portsFrom k portLines) b).filterMap Line.port? = portLines
  | [], _, _, _ => rfl
  | l :: ls, k, b, hb => by
    have hnone : (b 0).filterMap Line.port? = [] := by
      refine List.filterMap_eq_nil_iff.mpr fun x hx => ?_
      cases x with
      | port idx text => exact absurd (hb 0 _ hx) (by simp [Line.isAttr])
      | attr m text => rfl
    have hport : Line.port? (.port k l) = some l := rfl
    have hrest := weave_port? ls (k + 1) fun i => hb (i + 1)
    show (b 0 ++ Line.port k l :: weave (portsFrom (k + 1) ls) _).filterMap Line.port? = _
    rw [List.filterMap_append, hnone, List.nil_append, List.filterMap_cons_some hport, hrest]

theorem aboveFrom_attrs {i : ℕ} (rest : List Line) : ∀ {attrs acc : List Line}, (∀ l ∈ attrs, l.isAttr) →
    aboveFrom acc i (attrs ++ rest) = aboveFrom (acc ++ attrs) i rest
  | [], acc, _ => by rw [List.nil_append, List.append_nil]
  | .port _ _ :: _, _, h => absurd (h _ List.mem_cons_self) (by simp [Line.isAttr])
  | .attr m t :: attrs, acc, h => by
    rw [List.cons_append, aboveFrom, aboveFrom_attrs rest fun l hl => h l (List.mem_cons_of_mem _ hl),
      List.append_assoc,
      List.singleton_append]

/-- What is above a line is its block. -/
theorem above_weave :
    ∀ (portLines : List (List Char)) (k : ℕ) {b : ℕ → List Line} {i : ℕ}, (∀ i, ∀ l ∈ b i, l.isAttr) →
    i < portLines.length → above (weave (portsFrom k portLines) b) (k + i) = b i
  | [], _, _, _, _, hi => absurd hi (Nat.not_lt_zero _)
  | l :: ls, k, b, i, hb, hi => by
    show aboveFrom [] (k + i) (b 0 ++ Line.port k l :: weave (portsFrom (k + 1) ls) _) = _
    rw [aboveFrom_attrs _ (hb 0), List.nil_append, aboveFrom]
    cases i with
    | zero => rw [Nat.add_zero, if_pos rfl]
    | succ i =>
      have hrest := above_weave ls (k + 1) (fun i => hb (i + 1)) (Nat.lt_of_succ_lt_succ hi)
      rw [if_neg (by omega), ← hrest, above, Nat.succ_add_eq_add_succ]

theorem findTargets_append (ms ms' : List (List Char × List β)) (lines : List (List Char)) :
    findTargets (ms ++ ms') lines = findTargets ms lines ++ findTargets ms' lines := List.filterMap_append

/-- The attributes of a list of mappings have the numbers of that list. -/
theorem numbered_range {k : ℕ} {t : ℕ × List (ℕ × List Char)} {a : ℕ × List Char}
    (ht : t ∈ findTargets (numbered k portMappings) portLines) (ha : a ∈ t.2) :
      k ≤ a.1 ∧ a.1 < k + portMappings.length := by
  obtain ⟨m, hm, hidx⟩ := List.mem_filterMap.mp ht
  obtain ⟨idx, -, rfl⟩ := Option.map_eq_some_iff.mp hidx
  obtain ⟨x, hx, rfl⟩ := List.mem_map.mp hm
  obtain ⟨b, -, rfl⟩ := List.mem_map.mp ha
  exact ⟨List.le_snd_of_mem_zipIdx hx, List.snd_lt_add_of_mem_zipIdx hx⟩

/-- The attributes of a mapping are above the line that is found for it, and nowhere else. -/
theorem filter_blocks {m : ℕ} {portName : List Char} {attrStrings : List (List Char)}
    (hm : portMappings[m]? = some (portName, attrStrings)) (i : ℕ) :
    (blocks portMappings portLines i).filter (Line.isFrom m) =
      if idxOpt portLines portName = some i then attrStrings.map fun a => attrLine (m, a) else [] := by
  obtain ⟨hlt, hget⟩ := List.getElem?_eq_some_iff.mp hm
  set before := findTargets (numbered 0 (portMappings.take m)) portLines with hbefore
  set after := findTargets (numbered (m + 1) (portMappings.drop (m + 1))) portLines with hafter
  have hother : ∀ t ∈ before ++ after, ∀ a ∈ t.2, Line.isFrom m (attrLine a) = false := by
    intro t ht a ha
    have hne : a.1 ≠ m := by
      rcases List.mem_append.mp ht with ht | ht
      · have hrange := numbered_range ht ha
        rw [List.length_take] at hrange
        omega
      · have hrange := numbered_range ht ha
        omega
    simpa [Line.isFrom, attrLine] using hne
  have hsplit : findTargets (numbered 0 portMappings) portLines =
      before ++ (findTargets [(portName, attrStrings.map fun a => (m, a))] portLines ++ after) := by
    have hlist : portMappings = portMappings.take m ++ (portName, attrStrings) :: portMappings.drop (m + 1) := by
      rw [← hget, List.getElem_cons_drop, List.take_append_drop]
    conv_lhs => rw [hlist]
    rw [numbered, List.zipIdx_append, List.map_append, findTargets_append, List.zipIdx_cons, List.map_cons,
      ← List.singleton_append, findTargets_append, List.length_take, Nat.min_eq_left hlt.le, Nat.zero_add]
    rfl
  rw [blocks]
  cases hidx : idxOpt portLines portName with
  | none =>
    -- the mapping has no target
    have hnone : findTargets [(portName, attrStrings.map fun a => (m, a))] portLines = [] := by
      simp [findTargets, hidx]
    rw [hnone, List.nil_append] at hsplit
    rw [if_neg (by simp), hsplit, filter_foldl_addBlock attrLine _ i fun t ht =>
      hother t ((sorted_perm _).mem_iff.mp ht)]
    rfl
  | some idx =>
    have hone : findTargets [(portName, attrStrings.map fun a => (m, a))] portLines =
        [(idx, attrStrings.map fun a => (m, a))] := by simp [findTargets, hidx]
    rw [hone, List.singleton_append] at hsplit
    -- wherever the target stands in the order, the others have no line of this mapping
    have hperm := (sorted_perm (before ++ (idx, attrStrings.map fun a => (m, a)) :: after)).trans List.perm_middle
    obtain ⟨first, last, hsorted⟩ := List.append_of_mem (hperm.mem_iff.mpr List.mem_cons_self)
    rw [hsorted] at hperm
    have hrest := (List.perm_middle.symm.trans hperm).cons_inv
    have hfirst : ∀ t ∈ first, ∀ a ∈ t.2, Line.isFrom m (attrLine a) = false := fun t ht =>
      hother t (hrest.mem_iff.mp (List.mem_append_left _ ht))
    have hlast : ∀ t ∈ last, ∀ a ∈ t.2, Line.isFrom m (attrLine a) = false := fun t ht =>
      hother t (hrest.mem_iff.mp (List.mem_append_right _ ht))
    have hown : (attrStrings.map fun a => attrLine (m, a)).filter (Line.isFrom m) =
        attrStrings.map fun a => attrLine (m, a) := by
      refine List.filter_eq_self.mpr fun l hl => ?_
      obtain ⟨a, -, rfl⟩ := List.mem_map.mp hl
      simp [attrLine, Line.isFrom]
    rw [hsplit, hsorted, List.foldl_append, List.foldl_cons, filter_foldl_addBlock attrLine _ i hlast, addBlock,
      Function.update_apply]
    dsimp only
    by_cases hi : i = idx
    · rw [if_pos hi, if_pos (by rw [hi]), List.filter_append, filter_foldl_addBlock attrLine _ idx hfirst,
        List.map_map,
        List.filter_nil, List.append_nil]
      exact hown
    · rw [if_neg hi, if_neg (by simpa using Ne.symm hi), filter_foldl_addBlock attrLine _ i hfirst]
      rfl

end Result

/-! ## The lines of a header -/

section Regex

variable {portName line : List Char} {c d : Char}

theorem portDeclRegex_iff : portDeclRegex portName line = true ↔
    ∃ a m b, line = a ++ m ++ b ∧ m.map Char.toLower = portName.map Char.toLower ∧ boundary a (m ++ b) = true ∧
      boundary (a ++ m) b = true ∧ delimited b = true := by
  rw [portDeclRegex, List.any_eq_true]
  constructor
  · rintro ⟨i, -, hmatch⟩
    simp only [matchesAt, Bool.and_eq_true, decide_eq_true_eq] at hmatch
    obtain ⟨⟨⟨hname, hfront⟩, hback⟩, hend⟩ := hmatch
    refine ⟨line.take i, (line.drop i).take portName.length, (line.drop i).drop portName.length, ?_,
      hname, ?_, hback, hend⟩
    · rw [List.append_assoc, List.take_append_drop, List.take_append_drop]
    · rw [List.take_append_drop]
      exact hfront
  · rintro ⟨a, m, b, rfl, hname, hfront, hback, hend⟩
    have hlen : portName.length = m.length := by
      rw [← List.length_map Char.toLower, ← hname, List.length_map]
    refine ⟨a.length, List.mem_range.mpr (by simp only [List.length_append]; omega), ?_⟩
    rw [List.append_assoc, List.take_left, List.drop_left]
    simp only [matchesAt, hlen, List.take_left, List.drop_left, hname, hfront, hback, hend,
      decide_true, Bool.and_true]

theorem toLower_of_not_upper (h : ¬ (c.val ≥ 'A'.val ∧ c.val ≤ 'Z'.val)) : c.toLower = c := dif_neg h

/-- What holds of the capital letters holds of every character. -/
theorem apply_toLower {β : Type} {f : Char → β}
    (h : ∀ n < 26, f (Char.ofNat (65 + n)).toLower = f (Char.ofNat (65 + n)))
    (c : Char) : f c.toLower = f c := by
  by_cases hup : c.val ≥ 'A'.val ∧ c.val ≤ 'Z'.val
  · have hlo : 65 ≤ c.toNat := hup.1
    have hhi : c.toNat ≤ 90 := hup.2
    have hc := h (c.toNat - 65) (by omega)
    rw [Nat.add_sub_cancel' hlo, Char.ofNat_toNat] at hc
    exact hc
  · rw [toLower_of_not_upper hup]

theorem isWord_toLower (c : Char) : isWord c.toLower = isWord c := apply_toLower (by decide) c

theorem isIdent_toLower (c : Char) : isIdent c.toLower = isIdent c := apply_toLower (by decide) c

/-- Texts that differ in case only have their word characters at the same ends. -/
theorem any_isWord_congr {x y : Option Char} (h : x.map Char.toLower = y.map Char.toLower) :
    x.any isWord = y.any isWord := by
  have hfold : ∀ z : Option Char, z.any isWord = (z.map Char.toLower).any isWord := by
    intro z
    cases z with
    | none => rfl
    | some c => exact (isWord_toLower c).symm
  rw [hfold x, hfold y, h]

theorem isIdent_of_map {m name : List Char} (h : m.map Char.toLower = name.map Char.toLower)
    (hname : ∀ c ∈ name, isIdent c) :
    ∀ c ∈ m, isIdent c := by
  intro c hc
  have hmem : c.toLower ∈ name.map Char.toLower := h ▸ List.mem_map_of_mem hc
  obtain ⟨d, hd, heq⟩ := List.mem_map.mp hmem
  rw [← isIdent_toLower, ← heq, isIdent_toLower]
  exact hname d hd

theorem isIdent_of_isSpace (h : isSpace c = true) : isIdent c = false := by
  simp only [isSpace, Bool.or_eq_true, decide_eq_true_eq] at h
  rcases h with ((((rfl | rfl) | rfl) | rfl) | rfl) | rfl <;> decide

/-- Where the delimiter and the blanks around it are there is no name. -/
theorem not_isIdent_of_delimited {b : List Char} (h : delimited b = true) : ∀ c ∈ b, isIdent c = false := by
  have hspaces : ∀ (l : List Char) (c : Char), c ∈ l.takeWhile isSpace → isIdent c = false := fun l c hc =>
    isIdent_of_isSpace (List.mem_takeWhile_imp hc)
  intro c hc
  have hb : b.takeWhile isSpace ++ b.dropWhile isSpace = b := List.takeWhile_append_dropWhile
  rw [← hb] at hc
  rw [delimited] at h
  rcases List.mem_append.mp hc with hc | hc
  · exact hspaces b c hc
  · split at h
    · next hnil => exact absurd (hnil ▸ hc) List.not_mem_nil
    · next d cs hcons =>
      rw [hcons] at hc
      rw [Bool.and_eq_true, decide_eq_true_eq] at h
      rcases List.mem_cons.mp hc with rfl | hc
      · obtain rfl | rfl | rfl := by simpa using h.1
        all_goals decide
      · have hcs : cs.takeWhile isSpace ++ cs.dropWhile isSpace = cs := List.takeWhile_append_dropWhile
        rw [← hcs] at hc
        rcases List.mem_append.mp hc with hc | hc
        · exact hspaces cs c hc
        · have hend := h.2
          rw [atEnd, decide_eq_true_eq] at hend
          simp only [List.mem_cons, List.not_mem_nil, or_false] at hend
          rcases hend with hend | hend | hend | hend
          · exact absurd (hend ▸ hc) List.not_mem_nil
          all_goals
            rw [hend, List.mem_singleton] at hc
            rw [hc]
            decide

theorem delimited_ne_nil {b : List Char} (h : delimited b = true) : b ≠ [] := by
  rintro rfl
  exact absurd h (by decide)

end Regex

/-- The name of one port is found on the line of another: they are the same but for the case of letters, or all
that is in front of it ends in a dollar sign. -/
def Shadows (other name : List Char) : Prop :=
  ∃ pre m, other = pre ++ m ∧ m.map Char.toLower = name.map Char.toLower ∧ (pre = [] ∨ pre.getLast? = some '$')

namespace Port

variable {p q : Port}

/-- The text up to the end of the name ends in a character of the name. -/
theorem getLast?_text (q : Port) : ∃ c, (q.decl ++ q.name).getLast? = some c ∧ isIdent c = true := by
  obtain ⟨c, hhead, -⟩ := q.first
  have hne : q.name ≠ [] := by
    rintro hnil
    simp [hnil] at hhead
  refine ⟨q.name.getLast hne, ?_, q.ident _ (List.getLast_mem hne)⟩
  rw [List.getLast?_append_of_ne_nil _ hne, List.getLast?_eq_getLast_of_ne_nil hne]

/-- No delimiter is at the end of a text that ends in a name. -/
theorem not_delimited_of_text {a b : List Char} (h : q.decl ++ q.name = a ++ b) (hne : b ≠ []) :
    delimited b = false := by
  obtain ⟨c, hlast, hident⟩ := q.getLast?_text
  rw [h, List.getLast?_append_of_ne_nil _ hne] at hlast
  rw [← Bool.not_eq_true]
  intro hdel
  have hnot := not_isIdent_of_delimited hdel c (List.mem_of_getLast? hlast)
  rw [hident] at hnot
  exact absurd hnot (by decide)

/-- The line of the last port is never found. -/
theorem portDeclRegex_last (portName : List Char) (q : Port) :
    portDeclRegex portName (q.decl ++ q.name) = false := by
  rw [← Bool.not_eq_true, portDeclRegex_iff]
  rintro ⟨a, m, b, hline, -, -, -, hend⟩
  rw [not_delimited_of_text hline (delimited_ne_nil hend)] at hend
  exact absurd hend (by decide)

/-- The delimiter is the comma. -/
theorem eq_of_comma {a b : List Char} (h : q.decl ++ q.name ++ [','] = a ++ b) (hend : delimited b = true) :
    a = q.decl ++ q.name ∧ b = [','] := by
  rcases List.append_eq_append_iff.mp h with ⟨rest, ha, hcomma⟩ | ⟨rest, htext, hb⟩
  · rcases List.append_eq_singleton_iff.mp hcomma.symm with ⟨hrest, hb⟩ | ⟨-, hb⟩
    · rw [hrest, List.append_nil] at ha
      exact ⟨ha, hb⟩
    · exact absurd hb (delimited_ne_nil hend)
  · by_cases hrest : rest = []
    · rw [hrest, List.append_nil] at htext
      rw [hrest, List.nil_append] at hb
      exact ⟨htext.symm, hb⟩
    · -- the rest would end in a character of the name
      obtain ⟨c, hlast, hident⟩ := q.getLast?_text
      rw [htext, List.getLast?_append_of_ne_nil _ hrest] at hlast
      have hmem : c ∈ b := by
        rw [hb]
        exact List.mem_append_left _ (List.mem_of_getLast? hlast)
      rw [not_isIdent_of_delimited hend c hmem] at hident
      exact absurd hident (by decide)

/-- A name on the line ends the name of the port, as there is a blank in front of that. -/
theorem suffix_of_text {a m : List Char} (h : q.decl ++ q.name = a ++ m) (hm : ∀ c ∈ m, isIdent c = true) :
    ∃ pre, a = q.decl ++ pre ∧ q.name = pre ++ m := by
  rcases List.append_eq_append_iff.mp h with ⟨pre, ha, hname⟩ | ⟨rest, hdecl, hrest⟩
  · exact ⟨pre, ha, hname⟩
  · by_cases hnil : rest = []
    · rw [hnil, List.append_nil] at hdecl
      rw [hnil, List.nil_append] at hrest
      exact ⟨[], by rw [List.append_nil, hdecl], by rw [List.nil_append, hrest]⟩
    · obtain ⟨c, hlast, hspace⟩ := q.blank
      rw [hdecl, List.getLast?_append_of_ne_nil _ hnil] at hlast
      have hident := hm c (hrest ▸ List.mem_append_left _ (List.mem_of_getLast? hlast))
      rw [isIdent_of_isSpace hspace] at hident
      exact absurd hident (by decide)

theorem head?_isWord {m : List Char} (p : Port) (h : m.map Char.toLower = p.name.map Char.toLower)
    (rest : List Char) :
    m ≠ [] ∧ (m ++ rest).head?.any isWord = true := by
  obtain ⟨c, hhead, hword⟩ := p.first
  have hfirst : m.head?.any isWord = true := by
    have hmap : m.head?.map Char.toLower = p.name.head?.map Char.toLower := by
      rw [← List.head?_map, h, List.head?_map]
    rw [any_isWord_congr hmap, hhead]
    exact hword
  have hne : m ≠ [] := by
    rintro rfl
    exact absurd hfirst (by decide)
  refine ⟨hne, ?_⟩
  rw [List.head?_append_of_ne_nil _ hne]
  exact hfirst

/-- The line of a port that is not the last one is found for another, or itself. -/
theorem portDeclRegex_comma (p q : Port) : portDeclRegex p.name (q.decl ++ q.name ++ [',']) = true ↔
    p.name.getLast?.any isWord = true ∧ Shadows q.name p.name := by
  have hlast : ∀ (a m : List Char), m.map Char.toLower = p.name.map Char.toLower →
      (boundary (a ++ m) [','] = true ↔ p.name.getLast?.any isWord = true) := by
    intro a m hname
    have hmap : m.getLast?.map Char.toLower = p.name.getLast?.map Char.toLower := by
      rw [← List.getLast?_map, hname, List.getLast?_map]
    have hcomma : ([','] : List Char).head?.any isWord = false := by decide
    rw [boundary, List.getLast?_append_of_ne_nil _ (p.head?_isWord hname []).1, any_isWord_congr hmap,
      hcomma, Bool.bne_false]
  have hfront : ∀ (a m b : List Char), m.map Char.toLower = p.name.map Char.toLower →
      (boundary a (m ++ b) = true ↔ a.getLast?.any isWord = false) := by
    intro a m b hname
    rw [boundary, (p.head?_isWord hname b).2, Bool.bne_true, Bool.not_eq_true']
  rw [portDeclRegex_iff]
  constructor
  · rintro ⟨a, m, b, hline, hname, hstart, hstop, hend⟩
    obtain ⟨htext, rfl⟩ := eq_of_comma hline hend
    obtain ⟨pre, rfl, hq⟩ := suffix_of_text htext.symm (isIdent_of_map hname p.ident)
    refine ⟨(hlast _ _ hname).mp hstop, pre, m, hq, hname, ?_⟩
    by_cases hpre : pre = []
    · exact Or.inl hpre
    · -- the character in front of the name is in a name, but no word character
      have hbefore := (hfront _ _ _ hname).mp hstart
      rw [List.getLast?_append_of_ne_nil _ hpre, List.getLast?_eq_getLast_of_ne_nil hpre,
        Option.any_some] at hbefore
      have hident := q.ident (pre.getLast hpre) (hq ▸ List.mem_append_left _ (List.getLast_mem hpre))
      rw [isIdent, hbefore, Bool.false_or, decide_eq_true_eq] at hident
      exact Or.inr (by rw [List.getLast?_eq_getLast_of_ne_nil hpre, hident])
  · rintro ⟨hword, pre, m, hq, hname, hpre⟩
    refine ⟨q.decl ++ pre, m,
      [','], by rw [hq, List.append_assoc, List.append_assoc, List.append_assoc, List.append_assoc],
      hname, (hfront _ _ _ hname).mpr ?_, (hlast _ _ hname).mpr hword, by decide⟩
    rcases hpre with rfl | hdollar
    · obtain ⟨c, hblank, hspace⟩ := q.blank
      rw [List.append_nil, hblank, Option.any_some]
      have hident := isIdent_of_isSpace hspace
      rw [isIdent, Bool.or_eq_false_iff] at hident
      exact hident.1
    · have hne : pre ≠ [] := by
        rintro rfl
        exact absurd hdollar (by decide)
      rw [List.getLast?_append_of_ne_nil _ hne, hdollar]
      decide

end Port

theorem Shadows.refl (name : List Char) : Shadows name name := ⟨[], name, rfl, rfl, Or.inl rfl⟩

/-- The line of port `j` is the first one that is found for its name: the port is not the last one, its name ends
in a word character, its line does not begin with an attribute, and no line above it can be taken for it. -/
structure Reached (h : Header) (j : ℕ) (p : Port) : Prop where
  notLast : j + 1 < h.ports.length
  word : p.name.getLast?.any isWord = true
  plain : isAttributeLine (h.line j p) = false
  first : ∀ i < j, ∀ q, h.ports[i]? = some q → Shadows q.name p.name → isAttributeLine (h.line i q) = true

section Header

variable {h : Header}

theorem Header.lines_getElem? (h : Header) (i : ℕ) : h.lines[i + 1]? = (h.ports[i]?).map (h.line i) := by
  rw [Header.lines, List.getElem?_cons_succ, List.getElem?_mapIdx]

theorem Header.portDeclRegex_line {i : ℕ} {p q : Port} : portDeclRegex p.name (h.line i q) = true ↔
    i + 1 < h.ports.length ∧ p.name.getLast?.any isWord = true ∧ Shadows q.name p.name := by
  rw [Header.line]
  split_ifs with hlt
  · rw [Port.portDeclRegex_comma]
    exact (and_iff_right hlt).symm
  · rw [List.append_nil, Port.portDeclRegex_last]
    simp [hlt]

/-- The line of the port is the one that is found. -/
theorem idxOpt_iff {j : ℕ} {p : Port} (hp : h.ports[j]? = some p) :
    idxOpt h.lines p.name = some (j + 1) ↔ Reached h j p := by
  have hline : ∀ {i q}, h.ports[i]? = some q → h.lines[i + 1]? = some (h.line i q) := by
    intro i q hq
    rw [h.lines_getElem?, hq]
    rfl
  obtain ⟨hlt, hget⟩ := List.getElem?_eq_some_iff.mp (hline hp)
  rw [idxOpt, List.findIdx?_eq_some_iff_getElem]
  constructor
  · rintro ⟨_, hfound, hbefore⟩
    rw [hget, Bool.and_eq_true, Bool.not_eq_true', h.portDeclRegex_line] at hfound
    obtain ⟨hplain, hlast, hword, -⟩ := hfound
    refine ⟨hlast, hword, hplain, fun i hi q hq hshadow => ?_⟩
    obtain ⟨hilt, higet⟩ := List.getElem?_eq_some_iff.mp (hline hq)
    have hmiss := hbefore (i + 1) (by omega)
    rw [higet, Bool.and_eq_true, Bool.not_eq_true', h.portDeclRegex_line] at hmiss
    rw [← Bool.not_eq_false]
    exact fun hplain => hmiss ⟨hplain, by omega, hword, hshadow⟩
  · rintro ⟨hlast, hword, hplain, hfirst⟩
    refine ⟨hlt, ?_, fun i hi => ?_⟩
    · rw [hget, Bool.and_eq_true, Bool.not_eq_true', h.portDeclRegex_line]
      exact ⟨hplain, hlast, hword, Shadows.refl p.name⟩
    · cases i with
      | zero => simp [Header.lines, portDeclRegex, matchesAt, delimited]
      | succ i =>
        obtain ⟨q, hq⟩ : ∃ q, h.ports[i]? = some q := ⟨h.ports.get ⟨i, by omega⟩, List.getElem?_eq_getElem _⟩
        obtain ⟨hilt, higet⟩ := List.getElem?_eq_some_iff.mp (hline hq)
        rw [higet, Bool.and_eq_true, Bool.not_eq_true', h.portDeclRegex_line]
        rintro ⟨hplain, -, -, hshadow⟩
        rw [hfirst i (by omega) q hq hshadow] at hplain
        exact absurd hplain (by decide)

end Header

/-- **Attributes of ports.**  The attributes stand where they belong exactly when the line of every port that has
some is reached. -/
theorem annotated_iff (h : Header) (portMappings : List (List Char × List (List Char))) :
    Annotated h portMappings ↔
      ∀ portName attrStrings, (portName, attrStrings) ∈ portMappings → attrStrings ≠ [] →
        ∀ j p, h.ports[j]? = some p → p.name = portName → Reached h j p := by
  have hplaced : ∀ {m portName attrStrings}, portMappings[m]? = some (portName, attrStrings) →
    ∀ i < h.lines.length,
      (above (annotate portMappings h.lines) i).filter (Line.isFrom m) =
        if idxOpt h.lines portName = some i then attrStrings.map fun a => attrLine (m, a) else [] := by
    intro m portName attrStrings hm i hi
    have habove : above (weave (portsFrom 0 h.lines) (blocks portMappings h.lines)) (0 + i) =
        blocks portMappings h.lines i :=
      above_weave h.lines 0 blocks_isAttr hi
    rw [Nat.zero_add] at habove
    rw [annotate_eq, habove]
    exact filter_blocks hm i
  constructor
  · rintro ⟨-, -, hspec⟩ portName attrStrings hmem hne j p hp rfl
    obtain ⟨m, hm⟩ := List.mem_iff_getElem?.mp hmem
    have hj : j + 1 < h.lines.length := by
      have hlt := (List.getElem?_eq_some_iff.mp hp).1
      simpa [Header.lines] using hlt
    have hthere := hspec m p.name attrStrings hm j p hp rfl (j + 1) hj
    rw [hplaced hm (j + 1) hj, if_pos rfl] at hthere
    rw [← idxOpt_iff hp]
    by_contra hmiss
    rw [if_neg hmiss] at hthere
    exact hne (List.map_eq_nil_iff.mp hthere.symm)
  · intro hreach
    refine ⟨annotate_text portMappings h.lines, ?_, ?_⟩
    · rw [annotate_eq]
      exact weave_port? h.lines 0 blocks_isAttr
    · rintro m portName attrStrings hm j p hp rfl i hi
      rw [hplaced hm i hi]
      by_cases hnil : attrStrings = []
      · simp [hnil]
      · have hidx := (idxOpt_iff hp).mpr (hreach p.name attrStrings (List.mem_of_getElem? hm) hnil j p hp rfl)
        rw [hidx]
        by_cases hij : i = j + 1
        · rw [if_pos hij, if_pos (by rw [hij])]
        · rw [if_neg hij, if_neg (by simpa using Ne.symm hij)]

/-- `input clock,` and `input reset` -/
def clockAndReset : Header where
  ports := [
    { decl := ['i', 'n', 'p', 'u', 't', ' ']
      name := ['c', 'l', 'o', 'c', 'k']
      blank := ⟨' ', rfl, rfl⟩
      first := ⟨'c', rfl, rfl⟩
      ident := List.all_eq_true.mp rfl },
    { decl := ['i', 'n', 'p', 'u', 't', ' ']
      name := ['r', 'e', 's', 'e', 't']
      blank := ⟨' ', rfl, rfl⟩
      first := ⟨'r', rfl, rfl⟩
      ident := List.all_eq_true.mp rfl }]
  nodup := by decide

/-- The attributes of the clock are above it, in their order. -/
example : addPortMappings [(['c', 'l', 'o', 'c', 'k'], [['a'], ['b']])] clockAndReset.lines =
    [[], [' ', ' ', 'a'], [' ', ' ', 'b'], "input clock,".toList, "input reset".toList] := by decide

/-- The reset is the last port, and its attribute is lost. -/
theorem annotated_last : ¬ Annotated clockAndReset
    [(['r', 'e', 's', 'e', 't'], ["(* X_INTERFACE_PARAMETER = \"POLARITY ACTIVE_HIGH\" *)".toList])] := by
  rintro ⟨-, -, hspec⟩
  have hthere := hspec 0 _ _ rfl 1 _ rfl rfl 2 (by decide)
  have hlost : idxOpt clockAndReset.lines ['r', 'e', 's', 'e', 't'] = none := by decide
  have hnone :
    annotate [(['r', 'e', 's', 'e', 't'], ["(* X_INTERFACE_PARAMETER = \"POLARITY ACTIVE_HIGH\" *)".toList])]
      clockAndReset.lines = portsFrom 0 clockAndReset.lines := by
    rw [annotate, findTargets, numbered, List.zipIdx_cons, List.map_cons, List.filterMap_cons, hlost]
    rfl
  rw [hnone] at hthere
  exact absurd hthere (by simp [clockAndReset, Header.lines, Header.line, portsFrom, above, aboveFrom])

end Soceteer.Bd
