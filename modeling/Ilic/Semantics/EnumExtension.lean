import Ilic.Semantics.EnumTree

/-! # The check of enumeration domains

`check_type` reports siblings of one name, and elements of an extension that repeat an element of
a base.  It does not look at FINAL in the bases, and compares names with dots as they are.
-/

namespace Ilic.Semantics
open Foundation
open MetaModel (MetaType)

mutual

/-- `validate_unique_enum_nodes` for one child, whose name is not among the siblings in front. -/
def validateUniqueEnumNode (path : Text) : EnumNode → List Report
  | .mk name _ node => validateUniqueEnumNodes (childPath path name) [] node

def validateUniqueEnumNodes (path : Text) (siblings : List Text) : List EnumNode → List Report
  | [] => []
  | .mk name final node :: rest =>
    reportIf (siblings.contains name) (.other "EnumerationDuplicateElement".toList)
        ("duplicate enumeration element ".toList ++ childPath path name) ++
      validateUniqueEnumNode path (.mk name final node) ++
      validateUniqueEnumNodes path (name :: siblings) rest

end

/-- The store with the FINAL of the top nodes, which no check reads. -/
structure EnumStore extends LiteralStore where
  topFinal : MetaType → Bool

namespace EnumStore
variable (store : EnumStore)

/-- The part of `check_type` for enumerations. -/
def checkEnumType (fuel : ℕ) (t : MetaType) : Option (List Report) :=
  match store.body t with
  | .enumType topNode =>
    let unique := validateUniqueEnumNodes [] [] topNode
    if t.elementInPackage.isSome then
      match store.superType t with
      | some base =>
        if store.isEnumType base then
          (store.collectEnumValues fuel (some base)).map fun baseValues =>
            unique ++ validateEnumExtensionNodes baseValues [] topNode
        else some unique
      | none => some unique
    else some unique
  | _ => some []

def topNode (t : MetaType) : TopNode where
  final := store.topFinal t
  node := match store.body t with
    | .enumType topNode => topNode
    | _ => []

/-- A named enumeration domain with its bases, the first base in front. -/
inductive DomainChain : MetaType → List MetaType → Prop where
  | base {t : MetaType} (h : store.isEnumType t = true) (hpackage : t.elementInPackage.isSome)
      (hsuper : ∀ s, store.superType t = some s → store.isEnumType s = false) :
      DomainChain t [t]
  | extension {t s : MetaType} {types : List MetaType} (h : store.isEnumType t = true)
      (hpackage : t.elementInPackage.isSome) (hsuper : store.superType t = some s)
      (hchain : DomainChain s types) : DomainChain t (types ++ [t])

/-- With enough turns, the check reports nothing for the domains. -/
def Silent (types : List MetaType) : Prop :=
  ∀ t ∈ types, ∃ fuel₀, ∀ fuel ≥ fuel₀, store.checkEnumType fuel t = some []

end EnumStore

/-! ## What is asked of a chain -/

/-- Something holds of each enumeration and its bases. -/
def EachStage (stage : List TopNode → TopNode → Prop) (tops : List TopNode) : Prop :=
  ∀ bases own later, tops = bases ++ own :: later → stage bases own

/-- The tree of the bases is kept, every node is contributed once, and nothing is added below what
the bases mark FINAL. -/
structure KeepsTree (bases : List TopNode) (own : TopNode) : Prop where
  contains : treePaths bases ⊆ treePaths (bases ++ [own])
  once : ∀ q ∈ treePaths (bases ++ [own]), (contributions (bases ++ [own])).count q = 1
  final : ∀ q name, q ++ [name] ∈ treePaths (bases ++ [own]) → q ++ [name] ∉ treePaths bases →
    ¬ MarkedFinal bases q

/-- With dots in its names, the enumeration writes each new node once.  A bare element of it does
not repeat a node that the bases only pass through.  It adds nothing below what they mark FINAL. -/
structure WritesApart (bases : List TopNode) (own : TopNode) : Prop where
  once : ¬ Undotted own.node → (newPaths bases own).Nodup
  passed : ∀ o ∈ own.occurrences, o.bare = true → o.path ∈ treePaths bases →
    ∃ base ∈ bases, Declares base.node o.path
  final : ∀ q name, q ++ [name] ∈ own.paths → q ++ [name] ∉ treePaths bases → ¬ MarkedFinal bases q

theorem eachStage_nil {stage : List TopNode → TopNode → Prop} : EachStage stage [] := by
  intro bases own later h
  cases bases <;> cases h

theorem eachStage_append {stage : List TopNode → TopNode → Prop} {tops : List TopNode}
    {last : TopNode} :
    EachStage stage (tops ++ [last]) ↔ EachStage stage tops ∧ stage tops last := by
  constructor
  · intro h
    refine ⟨fun bases own later heq => h bases own (later ++ [last]) ?_, h tops last [] rfl⟩
    rw [heq, List.append_assoc, List.cons_append]
  · rintro ⟨h, hlast⟩ bases own later heq
    rcases List.eq_nil_or_concat' later with rfl | ⟨later, top, rfl⟩
    · obtain ⟨rfl, hown⟩ := List.append_inj' heq rfl
      rwa [← List.singleton_inj.mp hown]
    · rw [← List.cons_append, ← List.append_assoc] at heq
      obtain ⟨rfl, -⟩ := List.append_inj' heq rfl
      exact h bases own later rfl

/-! ## What the check says -/

theorem reportIf_eq_nil {condition : Bool} {id : DiagnosticId} {message : Text} :
    reportIf condition id message = [] ↔ condition = false := by
  cases condition <;> simp [reportIf]

theorem validateUniqueEnumNodes_cons {path : Text} {siblings : List Text} {name : Text}
    {final : Bool} {node rest : List EnumNode} :
    validateUniqueEnumNodes path siblings (.mk name final node :: rest) = [] ↔
      name ∉ siblings ∧ validateUniqueEnumNodes (childPath path name) [] node = [] ∧
        validateUniqueEnumNodes path (name :: siblings) rest = [] := by
  rw [validateUniqueEnumNodes, validateUniqueEnumNode, List.append_eq_nil_iff,
    List.append_eq_nil_iff, reportIf_eq_nil, and_assoc, ← Bool.not_eq_true,
    List.contains_iff_mem]

theorem distinct_of_silent {forest : List EnumNode} (h : Named forest) {path : Text}
    {siblings : List Text} (hsilent : validateUniqueEnumNodes path siblings forest = []) :
    Distinct forest ∧ ∀ name ∈ siblings, ∀ final node, .mk name final node ∉ forest := by
  induction h generalizing path siblings with
  | nil => exact ⟨.nil, by simp⟩
  | @cons name final node forest _ _ _ ihnode ihforest =>
    obtain ⟨hfresh, hbelow, hrest⟩ := validateUniqueEnumNodes_cons.mp hsilent
    obtain ⟨hdistinct, hothers⟩ := ihforest hrest
    refine ⟨.cons (hothers name List.mem_cons_self) (ihnode hbelow).1 hdistinct, ?_⟩
    intro sibling hsibling final' node' hmem
    rcases List.mem_cons.mp hmem with heq | hmem
    · cases heq
      exact hfresh hsibling
    · exact hothers sibling (List.mem_cons_of_mem _ hsibling) final' node' hmem

theorem spread_bare {path ns : List Text} {bare final : Bool} {o : Occurrence}
    (hns : ns ≠ []) (ho : o ∈ spread path bare final ns) (hbare : o.bare = true) :
    bare = true ∧ o.path = path ++ ns := by
  induction ns generalizing path with
  | nil => exact absurd rfl hns
  | cons name ns ih =>
    cases ns with
    | nil =>
      obtain rfl := List.mem_singleton.mp ho
      exact ⟨hbare, rfl⟩
    | cons next ns =>
      rw [spread, List.mem_cons] at ho
      rcases ho with rfl | ho
      · cases hbare
      · obtain ⟨hb, hpath⟩ := ih (List.cons_ne_nil next ns) ho
        exact ⟨hb, by rw [hpath, List.append_assoc, List.singleton_append]⟩

theorem exists_spread_bare {path ns : List Text} {final : Bool} (hns : ns ≠ []) :
    ∃ o ∈ spread path true final ns, o.bare = true ∧ o.path = path ++ ns := by
  induction ns generalizing path with
  | nil => exact absurd rfl hns
  | cons name ns ih =>
    cases ns with
    | nil => exact ⟨_, List.mem_singleton_self _, rfl, rfl⟩
    | cons next ns =>
      obtain ⟨o, ho, hbare, hpath⟩ := @ih (path ++ [name]) (List.cons_ne_nil next ns)
      refine ⟨o, ?_, hbare, by rw [hpath, List.append_assoc, List.singleton_append]⟩
      rw [spread]
      exact List.mem_cons_of_mem _ ho

/-- Nothing is reported exactly if no bare element has the path of a base value. -/
theorem validateEnumExtensionNodes_nil_iff {forest : List EnumNode} (h : Named forest)
    {baseValues : List Text} {path : Text} :
    validateEnumExtensionNodes baseValues path forest = [] ↔
      ∀ o ∈ occurrences (place path) forest, o.bare = true →
        ∀ value ∈ baseValues, names value ≠ o.path := by
  induction h generalizing path with
  | nil => simp [validateEnumExtensionNodes, occurrences]
  | @cons name final node forest hname _ _ ihnode ihforest =>
    have hcons : validateEnumExtensionNodes baseValues path (.mk name final node :: forest) = [] ↔
        (childPath path name ∈ baseValues → (node.isEmpty && !final) = false) ∧
          validateEnumExtensionNodes baseValues (childPath path name) node = [] ∧
            validateEnumExtensionNodes baseValues path forest = [] := by
      rw [validateEnumExtensionNodes, validateEnumExtensionNode]
      show reportIf (decide (childPath path name ∈ baseValues) && node.isEmpty && !final) _ _ ++
        validateEnumExtensionNodes baseValues (childPath path name) node ++ _ = [] ↔ _
      rw [List.append_eq_nil_iff, List.append_eq_nil_iff, reportIf_eq_nil, and_assoc,
        Bool.and_assoc, Bool.and_eq_false_imp, decide_eq_true_iff]
    have hplace : place (childPath path name) = place path ++ names name := place_childPath hname
    have hself : place (childPath path name) = names (childPath path name) :=
      if_neg (childPath_ne_nil hname)
    rw [hcons, ihnode, ihforest, hplace, occurrences_cons]
    simp only [List.mem_append, or_imp, forall_and, and_assoc]
    refine and_congr_left fun _ => ?_
    have hnonempty : names name ≠ [] := List.splitOn_ne_nil _ _
    constructor
    · intro hnot o ho hbare value hvalue heq
      obtain ⟨hb, hpath⟩ := spread_bare hnonempty ho hbare
      rw [hpath, ← hplace, hself] at heq
      rw [hnot (splitOn_injective heq ▸ hvalue)] at hb
      cases hb
    · intro hnot hvalue
      by_contra hbare
      rw [Bool.not_eq_false] at hbare
      rw [hbare] at hnot
      obtain ⟨o, ho, hobare, hpath⟩ := @exists_spread_bare (place path) _ final hnonempty
      refine hnot o ho hobare _ hvalue ?_
      rw [hpath, ← hplace, hself]

/-! ## One enumeration and its bases -/

theorem nodup_of_eachStage {tops : List TopNode} (h : EachStage KeepsTree tops) :
    (contributions tops).Nodup := by
  rcases List.eq_nil_or_concat' tops with rfl | ⟨bases, own, rfl⟩
  · exact List.nodup_nil
  · exact count_contributions_iff.mp (eachStage_append.mp h).2.once

theorem keepsTree_iff {bases : List TopNode} {own : TopNode}
    (hbases : (contributions bases).Nodup) (hdistinct : Distinct own.node)
    (hreported : ∀ o ∈ own.occurrences, o.bare = true → ∀ base ∈ bases,
      ¬ Declares base.node o.path) :
    KeepsTree bases own ↔ WritesApart bases own := by
  constructor
  · intro h
    obtain ⟨-, hnew, hecho⟩ := nodup_contributions_append.mp (count_contributions_iff.mp h.once)
    refine ⟨fun _ => hnew, fun o ho hbare hmem => absurd hmem (hecho o ho hbare), ?_⟩
    intro q name hown hbase
    refine h.final q name ?_ hbase
    rw [treePaths_append]
    exact List.mem_append_right _ hown
  · intro h
    have hnew : (newPaths bases own).Nodup := by
      by_cases hundotted : Undotted own.node
      · exact (hundotted.nodup hdistinct []).filter _
      · exact h.once hundotted
    have hecho : NoEcho bases own := by
      intro o ho hbare hmem
      obtain ⟨base, hbase, hdeclares⟩ := h.passed o ho hbare hmem
      exact hreported o ho hbare base hbase hdeclares
    refine ⟨?_, ?_, fun q name hmem hnot => ?_⟩
    · rw [treePaths_append]
      exact List.subset_append_left _ _
    · exact count_contributions_iff.mpr (nodup_contributions_append.mpr ⟨hbases, hnew, hecho⟩)
    · rw [treePaths_append, List.mem_append] at hmem
      exact h.final q name (hmem.resolve_left hnot) hnot

namespace EnumStore
variable {store : EnumStore} {t : MetaType} {types : List MetaType}

theorem body_of_isEnumType (h : store.isEnumType t = true) :
    store.body t = .enumType (store.topNode t).node := by
  rw [LiteralStore.isEnumType] at h
  rw [topNode]
  split at h
  case h_1 topNode hbody => rw [hbody]
  case h_2 => cases h

theorem DomainChain.extensionChain (h : store.DomainChain t types) :
    ExtensionChain store.toLiteralStore t (types.map fun s => (store.topNode s).node) := by
  induction h with
  | base h _ hsuper => exact .base (body_of_isEnumType h) hsuper
  | extension h _ hsuper _ ih =>
    rw [List.map_append]
    exact .extension (body_of_isEnumType h) hsuper ih

theorem DomainChain.isEnumType (h : store.DomainChain t types) : store.isEnumType t = true := by
  cases h with
  | base h => exact h
  | extension h => exact h

/-- The values of the bases are the texts of the paths that they declare. -/
theorem declares_of_base {base : TopNode} {p : List Text}
    (hnamed : ∀ s ∈ types, Named (store.topNode s).node)
    (hbase : base ∈ types.map store.topNode) (hp : Declares base.node p) :
    ∃ value ∈ (types.map fun s => (store.topNode s).node).flatMap (collectEnumNodes []),
      names value = p := by
  obtain ⟨s, hs, rfl⟩ := List.mem_map.mp hbase
  obtain ⟨value, rfl⟩ := hp.exists_text
  refine ⟨value, List.mem_flatMap.mpr ⟨_, List.mem_map_of_mem hs, ?_⟩, rfl⟩
  exact (mem_collectEnumNodes (hnamed s hs)).mpr ⟨names value, hp, by simp [place]⟩

/-- What it says of a domain that the check reports nothing for it. -/
theorem distinct_of_check (h : store.isEnumType t = true) (hnamed : Named (store.topNode t).node)
    {fuel : ℕ} (hcheck : store.checkEnumType fuel t = some []) :
    Distinct (store.topNode t).node := by
  have hunique : validateUniqueEnumNodes [] [] (store.topNode t).node = [] := by
    rw [checkEnumType, body_of_isEnumType h] at hcheck
    dsimp only at hcheck
    split_ifs at hcheck
    · split at hcheck
      · split_ifs at hcheck
        · obtain ⟨values, -, heq⟩ := Option.map_eq_some_iff.mp hcheck
          exact (List.append_eq_nil_iff.mp heq).1
        · exact Option.some.inj hcheck
      · exact Option.some.inj hcheck
    · exact Option.some.inj hcheck
  exact (distinct_of_silent hnamed hunique).1

theorem not_declares_of_check {s : MetaType} (h : store.isEnumType t = true)
    (hpackage : t.elementInPackage.isSome) (hsuper : store.superType t = some s)
    (hchain : store.DomainChain s types) (hnamed : ∀ u ∈ types, Named (store.topNode u).node)
    (hown : Named (store.topNode t).node) {fuel : ℕ} (hfuel : types.length < fuel)
    (hcheck : store.checkEnumType fuel t = some []) :
    ∀ o ∈ (store.topNode t).occurrences, o.bare = true → ∀ base ∈ types.map store.topNode,
      ¬ Declares base.node o.path := by
  have hlength : (types.map fun u => (store.topNode u).node).length < fuel := by
    rwa [List.length_map]
  have hvalues := hchain.extensionChain.collectEnumValues hlength
  rw [checkEnumType, body_of_isEnumType h] at hcheck
  simp only [hpackage, if_true, hsuper, hchain.isEnumType, hvalues, Option.map_some,
    Option.some_inj, List.append_eq_nil_iff] at hcheck
  have hnone := (validateEnumExtensionNodes_nil_iff hown).mp hcheck.2
  intro o ho hbare base hbase hdeclares
  obtain ⟨value, hvalue, heq⟩ := declares_of_base hnamed hbase hdeclares
  exact hnone o ho hbare value hvalue heq

/-- A chain of domains for which nothing is reported keeps the inherited tree exactly if each domain
writes its nodes apart from its bases. -/
theorem eachStage_keepsTree_iff (h : store.DomainChain t types)
    (hnamed : ∀ s ∈ types, Named (store.topNode s).node) (hsilent : store.Silent types) :
    EachStage KeepsTree (types.map store.topNode) ↔
      EachStage WritesApart (types.map store.topNode) := by
  induction h with
  | @base t h _ _ =>
    obtain ⟨fuel₀, hcheck⟩ := hsilent t List.mem_cons_self
    have hdistinct := distinct_of_check h (hnamed t List.mem_cons_self)
      (hcheck fuel₀ (Nat.le_refl fuel₀))
    have hnil : (contributions []).Nodup := List.nodup_nil
    have hstage : KeepsTree [] (store.topNode t) ↔ WritesApart [] (store.topNode t) :=
      keepsTree_iff hnil hdistinct fun _ _ _ base hbase => absurd hbase List.not_mem_nil
    rw [List.map_singleton, ← List.nil_append [store.topNode t], eachStage_append, eachStage_append,
      hstage]
    exact and_congr_left fun _ => iff_of_true eachStage_nil eachStage_nil
  | @extension t s types h hpackage hsuper hchain ih =>
    rw [List.forall_mem_append] at hnamed
    have hown := hnamed.2 t List.mem_cons_self
    have hbefore := ih hnamed.1 fun u hu => hsilent u (List.mem_append_left _ hu)
    obtain ⟨fuel₀, hcheck⟩ := hsilent t (List.mem_append_right _ List.mem_cons_self)
    have hlast := hcheck (max fuel₀ (types.length + 1)) (Nat.le_max_left _ _)
    have hdistinct := distinct_of_check h hown hlast
    have hreported := not_declares_of_check h hpackage hsuper hchain hnamed.1 hown
      (Nat.le_max_right fuel₀ (types.length + 1)) hlast
    rw [List.map_append, List.map_singleton, eachStage_append, eachStage_append, ← hbefore]
    exact and_congr_right fun hkeeps =>
      keepsTree_iff (nodup_of_eachStage hkeeps) hdistinct hreported

/-- The domain with this address; the second one extends the first. -/
def colourType (address : ℕ) (name : String) : MetaType where
  address := address
  name := name.toList
  elementInPackage := some (.model ⟨0, ⟨"M".toList, isIdentifier_colours⟩⟩)
  kind := .domain
  ownPath := []
where
  isIdentifier_colours : '.' ∉ "M".toList ∧ "M".toList ≠ "BASKET".toList := by decide

def colour : MetaType := colourType 1 "Colour"

def paint : MetaType := colourType 2 "Paint"

/-- `Colour = (red (FINAL))` and `Paint EXTENDS Colour = (red (dark))`. -/
def paintStore : EnumStore where
  superType t := if t = paint then some colour else none
  body t := if t = paint then .enumType [.mk "red".toList false [.mk "dark".toList false []]]
    else .enumType [.mk "red".toList true []]
  mandatory _ := false
  extending _ := none
  superRole _ := none
  roles _ := []
  iliVersion _ := "2.3".toList
  typeReports _ := []
  treeValueOf _ := none
  topFinal _ := false

theorem paint_chain : paintStore.DomainChain paint [colour, paint] :=
  .extension rfl rfl rfl (.base rfl rfl fun _ h => by cases h)

theorem paint_named : ∀ s ∈ [colour, paint], Named (paintStore.topNode s).node := by
  simp only [List.forall_mem_cons, List.not_mem_nil, false_imp_iff, implies_true, and_true]
  exact ⟨.cons (by decide) .nil .nil, .cons (by decide) (.cons (by decide) .nil .nil) .nil⟩

theorem paint_silent : paintStore.Silent [colour, paint] := by
  simp only [EnumStore.Silent, List.forall_mem_cons, List.not_mem_nil, false_imp_iff,
    implies_true, and_true]
  refine ⟨⟨0, fun fuel _ => rfl⟩, 2, fun fuel hfuel => ?_⟩
  obtain ⟨n, rfl⟩ := Nat.exists_eq_add_of_le' hfuel
  rfl

theorem eachStage_keepsTree_iff_paint :
    EachStage KeepsTree ([colour, paint].map paintStore.topNode) ↔
      EachStage WritesApart ([colour, paint].map paintStore.topNode) :=
  eachStage_keepsTree_iff paint_chain paint_named paint_silent

/-- Nothing is reported, and `dark` is added below the FINAL `red`. -/
theorem paint_below_final :
    paintStore.DomainChain paint [colour, paint] ∧ paintStore.Silent [colour, paint] ∧
      ¬ EachStage KeepsTree ([colour, paint].map paintStore.topNode) := by
  refine ⟨paint_chain, paint_silent, fun h => ?_⟩
  have hpaint := h [paintStore.topNode colour] (paintStore.topNode paint) [] rfl
  refine hpaint.final ["red".toList] "dark".toList (by decide) (by decide +kernel) ?_
  exact ⟨paintStore.topNode colour, List.mem_cons_self, .inr
    ⟨⟨["red".toList], false, true⟩, by decide, rfl, rfl⟩⟩

end EnumStore
end Ilic.Semantics
