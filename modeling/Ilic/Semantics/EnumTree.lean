import Mathlib.Data.List.Nodup
import Ilic.Semantics.EnumLiterals

/-! # The merged tree of an enumeration

Each enumeration of a chain contributes nodes to the tree of its bases.  An element with a
dotted name counts as the path that the name denotes: it passes through the nodes in front of
the last one.
-/

namespace Ilic.Semantics
open Foundation

/-- A place at which an enumeration writes a node of the tree: bare if nothing is said of the
node but its name. -/
structure Occurrence where
  path : List Text
  bare : Bool
  final : Bool
deriving DecidableEq

/-- The nodes on the way to the last of these names, and that one. -/
def spread (path : List Text) (bare final : Bool) : List Text → List Occurrence
  | [] => []
  | [name] => [⟨path ++ [name], bare, final⟩]
  | name :: next :: rest => ⟨path ++ [name], false, false⟩ ::
      spread (path ++ [name]) bare final (next :: rest)

mutual

def occurrencesOf (path : List Text) : EnumNode → List Occurrence
  | .mk name final node => spread path (node.isEmpty && !final) final (names name) ++
      occurrences (path ++ names name) node

def occurrences (path : List Text) : List EnumNode → List Occurrence
  | [] => []
  | child :: rest => occurrencesOf path child ++ occurrences path rest

end

/-- The top node of an enumeration. -/
structure TopNode where
  final : Bool
  node : List EnumNode

def TopNode.occurrences (top : TopNode) : List Occurrence := Semantics.occurrences [] top.node

def TopNode.paths (top : TopNode) : List (List Text) := top.occurrences.map Occurrence.path

/-- The nodes of the tree that all of these enumerations make. -/
def treePaths (tops : List TopNode) : List (List Text) := tops.flatMap TopNode.paths

/-- What an enumeration contributes beyond its bases.  A node of the bases that is given nodes
below it, or FINAL, is not contributed again. -/
def ownContributions (bases : List TopNode) (own : TopNode) : List (List Text) :=
  (own.occurrences.filter fun o => decide (o.path ∉ treePaths bases) || o.bare).map
    Occurrence.path

/-- What all enumerations contribute, each beyond those in front of it. -/
def contributionsBeyond (bases : List TopNode) : List TopNode → List (List Text)
  | [] => []
  | own :: later => ownContributions bases own ++ contributionsBeyond (bases ++ [own]) later

def contributions (tops : List TopNode) : List (List Text) := contributionsBeyond [] tops

/-- The top of the tree, or a node of it, is marked FINAL in one of the enumerations. -/
def MarkedFinal (tops : List TopNode) (path : List Text) : Prop :=
  ∃ top ∈ tops, path = [] ∧ top.final = true ∨
    ∃ o ∈ top.occurrences, o.path = path ∧ o.final = true

/-! ## The nodes of the tree -/

theorem occurrences_cons {path : List Text} {name : Text} {final : Bool}
    {node forest : List EnumNode} :
    occurrences path (.mk name final node :: forest) =
      spread path (node.isEmpty && !final) final (names name) ++
        occurrences (path ++ names name) node ++ occurrences path forest := by
  rw [occurrences, occurrencesOf]

theorem mem_spread_path {path ns q : List Text} {bare final : Bool} :
    (∃ o ∈ spread path bare final ns, o.path = q) ↔
      ∃ rest, rest ≠ [] ∧ rest <+: ns ∧ q = path ++ rest := by
  induction ns generalizing path with
  | nil =>
    refine iff_of_false (by simp [spread]) ?_
    rintro ⟨rest, hrest, hpre, -⟩
    exact hrest (List.prefix_nil.mp hpre)
  | cons name ns ih =>
    have hstep : (∃ o ∈ spread path bare final (name :: ns), o.path = q) ↔
        q = path ++ [name] ∨ ∃ o ∈ spread (path ++ [name]) bare final ns, o.path = q := by
      cases ns with
      | nil => simp [spread, eq_comm]
      | cons next ns => simp [spread, eq_comm]
    rw [hstep, ih]
    constructor
    · rintro (rfl | ⟨rest, -, hpre, rfl⟩)
      · exact ⟨[name], by simp, by simp, rfl⟩
      · exact ⟨name :: rest, by simp, List.cons_prefix_cons.mpr ⟨rfl, hpre⟩, by simp⟩
    · rintro ⟨rest, hrest, hpre, rfl⟩
      obtain ⟨first, rest, rfl⟩ := List.exists_cons_of_ne_nil hrest
      obtain ⟨rfl, hrest'⟩ := List.cons_prefix_cons.mp hpre
      by_cases hnil : rest = []
      · exact .inl (by rw [hnil])
      · exact .inr ⟨rest, hnil, hrest', by simp⟩

/-- An occurrence of a path is on the way to a declared node. -/
theorem exists_occurrence_iff {forest : List EnumNode} (h : Named forest) {path q : List Text} :
    (∃ o ∈ occurrences path forest, o.path = q) ↔
      ∃ p rest, Declares forest p ∧ rest ≠ [] ∧ rest <+: p ∧ q = path ++ rest := by
  induction h generalizing path with
  | nil =>
    refine iff_of_false (by simp [occurrences]) ?_
    rintro ⟨p, -, hp, -⟩
    exact not_declares_nil p hp
  | @cons name final node forest _ _ _ ihnode ihforest =>
    have hsplit : (∃ o ∈ occurrences path (.mk name final node :: forest), o.path = q) ↔
        (∃ o ∈ spread path (node.isEmpty && !final) final (names name), o.path = q) ∨
          (∃ o ∈ occurrences (path ++ names name) node, o.path = q) ∨
            ∃ o ∈ occurrences path forest, o.path = q := by
      simp only [occurrences_cons, List.mem_append, or_and_right, exists_or, or_assoc]
    rw [hsplit, mem_spread_path, ihnode, ihforest]
    simp only [declares_cons]
    constructor
    · rintro (⟨rest, hrest, hpre, rfl⟩ | ⟨p, rest, hp, hrest, hpre, rfl⟩ | ⟨p, rest, hp, hrest⟩)
      · exact ⟨names name, rest, .inl rfl, hrest, hpre, rfl⟩
      · exact ⟨names name ++ p, names name ++ rest, .inr (.inl ⟨p, hp, rfl⟩), by simp [hrest],
          (List.prefix_append_right_inj _).mpr hpre, by rw [List.append_assoc]⟩
      · exact ⟨p, rest, .inr (.inr hp), hrest⟩
    · rintro ⟨p, rest, rfl | ⟨p', hp, rfl⟩ | hp, hrest, hpre, rfl⟩
      · exact .inl ⟨rest, hrest, hpre, rfl⟩
      · rcases List.prefix_or_prefix_of_prefix hpre (List.prefix_append _ _) with hfront | hbehind
        · exact .inl ⟨rest, hrest, hfront, rfl⟩
        · obtain ⟨later, rfl⟩ := hbehind
          have hlater : later <+: p' := (List.prefix_append_right_inj _).mp hpre
          by_cases hnil : later = []
          · subst hnil
            exact .inl ⟨names name, by simpa using hrest, List.prefix_refl _, by simp⟩
          · exact .inr (.inl ⟨p', later, hp, hnil, hlater, by rw [List.append_assoc]⟩)
      · exact .inr (.inr ⟨p, rest, hp, hrest, hpre, rfl⟩)

theorem treePaths_append (bases : List TopNode) (own : TopNode) :
    treePaths (bases ++ [own]) = treePaths bases ++ own.paths := by
  simp [treePaths]

/-! ## The contributions -/

variable {bases : List TopNode} {own : TopNode}

theorem contributionsBeyond_append (bases later : List TopNode) (own : TopNode) :
    contributionsBeyond bases (later ++ [own]) =
      contributionsBeyond bases later ++ ownContributions (bases ++ later) own := by
  induction later generalizing bases with
  | nil => simp [contributionsBeyond]
  | cons first later ih =>
    rw [List.cons_append, contributionsBeyond, ih, contributionsBeyond, List.append_assoc,
      List.append_assoc, List.singleton_append]

theorem contributions_append (bases : List TopNode) (own : TopNode) :
    contributions (bases ++ [own]) = contributions bases ++ ownContributions bases own :=
  contributionsBeyond_append [] bases own

theorem mem_ownContributions {q : List Text} : q ∈ ownContributions bases own ↔
    ∃ o ∈ own.occurrences, (q ∉ treePaths bases ∨ o.bare = true) ∧ o.path = q := by
  simp only [ownContributions, List.mem_map, List.mem_filter, Bool.or_eq_true,
    decide_eq_true_eq, and_assoc]
  refine exists_congr fun o => and_congr_right fun _ => and_congr_left ?_
  rintro rfl
  rfl

/-- Each node of the tree is contributed. -/
theorem mem_contributions_iff {tops : List TopNode} {q : List Text} :
    q ∈ contributions tops ↔ q ∈ treePaths tops := by
  induction tops using List.reverseRecOn with
  | nil => rfl
  | append_singleton bases own ih =>
    rw [contributions_append, treePaths_append, List.mem_append, List.mem_append, ih,
      mem_ownContributions]
    by_cases hq : q ∈ treePaths bases
    · simp [hq]
    · simp only [hq, false_or, not_false_eq_true, true_or, true_and]
      exact List.mem_map.symm

/-- No bare element repeats a node of the bases. -/
def NoEcho (bases : List TopNode) (own : TopNode) : Prop :=
  ∀ o ∈ own.occurrences, o.bare = true → o.path ∉ treePaths bases

/-- The nodes that the bases do not have, as often as they are written. -/
def newPaths (bases : List TopNode) (own : TopNode) : List (List Text) :=
  own.paths.filter fun q => decide (q ∉ treePaths bases)

theorem ownContributions_eq (h : NoEcho bases own) :
    ownContributions bases own = newPaths bases own := by
  rw [ownContributions, newPaths, TopNode.paths, List.filter_map]
  congr 1
  refine List.filter_congr fun o ho => ?_
  cases hbare : o.bare with
  | false => rw [Bool.or_false, Function.comp_apply]
  | true => simp [h o ho hbare]

/-- Each node is contributed once if that holds of the bases, the enumeration writes each new node
once, and it repeats none. -/
theorem nodup_contributions_append :
    (contributions (bases ++ [own])).Nodup ↔
      (contributions bases).Nodup ∧ (newPaths bases own).Nodup ∧ NoEcho bases own := by
  rw [contributions_append, List.nodup_append']
  constructor
  · rintro ⟨hbases, hown, hdisjoint⟩
    have hecho : NoEcho bases own := by
      intro o ho hbare hmem
      exact hdisjoint (mem_contributions_iff.mpr hmem)
        (mem_ownContributions.mpr ⟨o, ho, .inr hbare, rfl⟩)
    rw [ownContributions_eq hecho] at hown
    exact ⟨hbases, hown, hecho⟩
  · rintro ⟨hbases, hnew, hecho⟩
    rw [ownContributions_eq hecho]
    refine ⟨hbases, hnew, fun q hq hqnew => ?_⟩
    have hnot := (List.mem_filter.mp hqnew).2
    rw [decide_eq_true_eq] at hnot
    exact hnot (mem_contributions_iff.mp hq)

theorem count_contributions_iff {tops : List TopNode} :
    (∀ q ∈ treePaths tops, (contributions tops).count q = 1) ↔ (contributions tops).Nodup := by
  rw [List.nodup_iff_count_eq_one]
  exact forall_congr' fun q => imp_congr mem_contributions_iff.symm Iff.rfl

/-! ## Names without dots -/

/-- No element has the name of a sibling. -/
inductive Distinct : List EnumNode → Prop where
  | nil : Distinct []
  | cons {name : Text} {final : Bool} {node forest : List EnumNode}
      (hname : ∀ final node, .mk name final node ∉ forest) (hnode : Distinct node)
      (hforest : Distinct forest) : Distinct (.mk name final node :: forest)

/-- No name has a dot. -/
inductive Undotted : List EnumNode → Prop where
  | nil : Undotted []
  | cons {name : Text} {final : Bool} {node forest : List EnumNode} (hname : '.' ∉ name)
      (hnode : Undotted node) (hforest : Undotted forest) :
      Undotted (.mk name final node :: forest)

theorem names_of_undotted {name : Text} (h : '.' ∉ name) : names name = [name] :=
  List.splitOn_eq_singleton h

theorem Undotted.path_eq {forest : List EnumNode} (h : Undotted forest) {path q : List Text}
    (hq : ∃ o ∈ occurrences path forest, o.path = q) :
    ∃ name final node rest, .mk name final node ∈ forest ∧ q = path ++ name :: rest := by
  induction h generalizing path with
  | nil => simp [occurrences] at hq
  | @cons name final node forest hname _ _ ihnode ihforest =>
    simp only [occurrences_cons, names_of_undotted hname, spread, List.mem_append,
      List.mem_singleton, or_and_right, exists_or, exists_eq_left, or_assoc] at hq
    rcases hq with rfl | hq | hq
    · exact ⟨name, final, node, [], List.mem_cons_self, rfl⟩
    · obtain ⟨name', final', node', rest, -, rfl⟩ := ihnode hq
      exact ⟨name, final, node, name' :: rest, List.mem_cons_self, by simp⟩
    · obtain ⟨name', final', node', rest, hmem, rfl⟩ := ihforest hq
      exact ⟨name', final', node', rest, List.mem_cons_of_mem _ hmem, rfl⟩

/-- Without dots in the names, distinct siblings make distinct nodes. -/
theorem Undotted.nodup {forest : List EnumNode} (h : Undotted forest) (hdistinct : Distinct forest)
    (path : List Text) : ((occurrences path forest).map Occurrence.path).Nodup := by
  induction h generalizing path with
  | nil => exact List.nodup_nil
  | @cons name final node forest hname hundotted hforest ihnode ihforest =>
    cases hdistinct with
    | cons hfresh hnode hrest =>
      have hbelow := ihnode hnode (path ++ [name])
      have hlater := ihforest hrest path
      rw [occurrences_cons, names_of_undotted hname, spread, List.map_append, List.map_append,
        List.map_singleton, List.singleton_append, List.cons_append, List.nodup_cons,
        List.nodup_append']
      refine ⟨fun hmem => ?_, hbelow, hlater, fun q hq hq' => ?_⟩
      · rcases List.mem_append.mp hmem with hmem | hmem
        · obtain ⟨name', final', node', rest, -, heq⟩ := hundotted.path_eq (List.mem_map.mp hmem)
          simp at heq
        · obtain ⟨name', final', node', rest, hin, heq⟩ := hforest.path_eq (List.mem_map.mp hmem)
          obtain ⟨rfl, -⟩ : name = name' ∧ [] = rest := by simpa using heq
          exact hfresh final' node' hin
      · obtain ⟨name', final', node', rest, -, rfl⟩ := hundotted.path_eq (List.mem_map.mp hq)
        obtain ⟨other, final'', node'', rest', hin, heq⟩ := hforest.path_eq (List.mem_map.mp hq')
        obtain ⟨rfl, -⟩ : name = other ∧ name' :: rest = rest' := by simpa using heq
        exact hfresh final'' node'' hin

end Ilic.Semantics
