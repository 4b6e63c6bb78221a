import Ilic.Foundation.PathTree
import Ilic.Semantics.EqualityCompatible

/-! # Enumeration literals

An enumeration extends others by nodes and by trees below their nodes.  A literal is a path in
the merged tree of all of them; the values of the enumeration are the leaves of this tree, and
those of `ALL OF` all of its nodes.
-/

namespace Ilic.Semantics
open Foundation
open MetaModel (MetaType)
open Expressions (Expression Kind)

/-! ## The tree of an enumeration -/

/-- A name may be a path itself, which leads to a node of the base. -/
def names (path : Text) : List Text := path.splitOn '.'

/-- These nodes, and those below them, declare a node at this path. -/
inductive Declares : List EnumNode → List Text → Prop where
  | node {forest : List EnumNode} {name : Text} {final : Bool} {nodes : List EnumNode}
      (h : .mk name final nodes ∈ forest) : Declares forest (names name)
  | under {forest : List EnumNode} {name : Text} {final : Bool} {nodes : List EnumNode}
      {path : List Text} (h : .mk name final nodes ∈ forest) (hpath : Declares nodes path) :
      Declares forest (names name ++ path)

/-- Every node has a name. -/
inductive Named : List EnumNode → Prop where
  | nil : Named []
  | cons {name : Text} {final : Bool} {nodes forest : List EnumNode} (hname : name ≠ [])
      (hnodes : Named nodes) (hforest : Named forest) : Named (.mk name final nodes :: forest)

variable (store : LiteralStore)

/-- The type is an enumeration, with the nodes of its chain from the first base on. -/
inductive ExtensionChain : MetaType → List (List EnumNode) → Prop where
  | base {t : MetaType} {topNode : List EnumNode} (h : store.body t = .enumType topNode)
      (hsuper : ∀ s, store.superType t = some s → store.isEnumType s = false) :
      ExtensionChain t [topNode]
  | extension {t s : MetaType} {topNode : List EnumNode} {forests : List (List EnumNode)}
      (h : store.body t = .enumType topNode) (hsuper : store.superType t = some s)
      (hchain : ExtensionChain s forests) : ExtensionChain t (forests ++ [topNode])

/-- An enumeration domain.  Where a name is a path, all nodes on it exist. -/
structure EnumDomain where
  type : MetaType
  forests : List (List EnumNode)
  chain : ExtensionChain store type forests
  named : ∀ forest ∈ forests, Named forest
  grafted : ∀ forest ∈ forests, ∀ q, Declares forest q → ∀ p, p <+: q → p ≠ [] →
    ∃ base ∈ forests, Declares base p

theorem Declares.ne_nil {forest : List EnumNode} {p : List Text} (h : Declares forest p) :
    p ≠ [] := by
  cases h with
  | node => exact List.splitOn_ne_nil _ _
  | under => simp [names]

variable {store}

/-- The merged tree of the chain. -/
def EnumDomain.tree (domain : EnumDomain store) : PathTree Text where
  nodes := {p | ∃ forest ∈ domain.forests, Declares forest p}
  ne_nil := by
    rintro p ⟨forest, -, hp⟩
    exact hp.ne_nil
  above := by
    rintro q ⟨forest, hforest, hq⟩ p hpre hp
    exact domain.grafted forest hforest q hq p hpre hp

/-! ## The values that are collected -/

/-- The names on the way to a node, of which the top node has none. -/
def place (path : Text) : List Text := if path = [] then [] else names path

/-- The path of a child, as it is collected. -/
def childPath (path name : Text) : Text :=
  if path = [] then name else path ++ ".".toList ++ name

theorem place_childPath {path name : Text} (hname : name ≠ []) :
    place (childPath path name) = place path ++ names name := by
  rw [childPath, place]
  by_cases hpath : path = []
  · simp [hpath, hname, place]
  · rw [if_neg hpath, if_neg (by simp), place, if_neg hpath, names, List.append_assoc]
    exact List.splitOn_append_cons_self path name

theorem childPath_ne_nil {path name : Text} (hname : name ≠ []) : childPath path name ≠ [] := by
  rw [childPath]
  split_ifs with hpath
  · exact hname
  · simp

theorem not_declares_nil (p : List Text) : ¬ Declares [] p := by
  intro h
  cases h with
  | node hmem => cases hmem
  | under hmem => cases hmem

theorem declares_cons {name : Text} {final : Bool} {nodes forest : List EnumNode} {p : List Text} :
    Declares (.mk name final nodes :: forest) p ↔
      p = names name ∨ (∃ q, Declares nodes q ∧ p = names name ++ q) ∨ Declares forest p := by
  constructor
  · intro h
    cases h with
    | node hmem =>
      rcases List.mem_cons.mp hmem with heq | hmem
      · cases heq
        exact Or.inl rfl
      · exact Or.inr (Or.inr (.node hmem))
    | under hmem hpath =>
      rcases List.mem_cons.mp hmem with heq | hmem
      · cases heq
        exact Or.inr (Or.inl ⟨_, hpath, rfl⟩)
      · exact Or.inr (Or.inr (.under hmem hpath))
  · rintro (rfl | ⟨q, hq, rfl⟩ | h)
    · exact .node List.mem_cons_self
    · exact .under List.mem_cons_self hq
    · cases h with
      | node hmem => exact .node (List.mem_cons_of_mem _ hmem)
      | under hmem hpath => exact .under (List.mem_cons_of_mem _ hmem) hpath

theorem Declares.exists_text {forest : List EnumNode} {p : List Text} (h : Declares forest p) :
    ∃ value, names value = p := by
  induction h with
  | @node _ name => exact ⟨name, rfl⟩
  | @under _ name _ _ _ _ _ ih =>
    obtain ⟨value, rfl⟩ := ih
    exact ⟨name ++ '.' :: value, List.splitOn_append_cons_self name value⟩

/-- The collected values are the texts of the declared paths. -/
theorem mem_collectEnumNodes {forest : List EnumNode} (h : Named forest) {path value : Text} :
    value ∈ collectEnumNodes path forest ↔
      ∃ p, Declares forest p ∧ names value = place path ++ p := by
  induction h generalizing path with
  | nil =>
    rw [collectEnumNodes]
    refine iff_of_false List.not_mem_nil ?_
    rintro ⟨p, hp, -⟩
    exact not_declares_nil p hp
  | @cons name final nodes forest hname hnodes hforest ihnodes ihforest =>
    have hchild : collectEnumNode path (.mk name final nodes) =
        childPath path name :: collectEnumNodes (childPath path name) nodes := by
      rw [collectEnumNode]
      rfl
    have hself : value = childPath path name ↔ names value = place path ++ names name := by
      rw [← place_childPath hname, place, if_neg (childPath_ne_nil hname)]
      exact ⟨fun heq => by rw [heq], fun heq => splitOn_injective heq⟩
    rw [collectEnumNodes, hchild, List.mem_append, List.mem_cons, ihnodes, ihforest, hself,
      place_childPath hname]
    simp only [declares_cons]
    constructor
    · rintro ((heq | ⟨q, hq, heq⟩) | ⟨q, hq, heq⟩)
      · exact ⟨names name, Or.inl rfl, heq⟩
      · exact ⟨names name ++ q, Or.inr (Or.inl ⟨q, hq, rfl⟩), by rw [heq, List.append_assoc]⟩
      · exact ⟨q, Or.inr (Or.inr hq), heq⟩
    · rintro ⟨p, rfl | ⟨q, hq, rfl⟩ | hp, heq⟩
      · exact Or.inl (Or.inl heq)
      · exact Or.inl (Or.inr ⟨q, hq, by rw [heq, List.append_assoc]⟩)
      · exact Or.inr ⟨p, hp, heq⟩

/-- With more turns than enumerations in the chain all values are collected. -/
theorem ExtensionChain.collectEnumValues {t : MetaType} {forests : List (List EnumNode)}
    (h : ExtensionChain store t forests) {fuel : ℕ} (hfuel : forests.length < fuel) :
    store.collectEnumValues fuel (some t) = some (forests.flatMap (collectEnumNodes [])) := by
  induction h generalizing fuel with
  | @base t topNode hbody hsuper =>
    obtain ⟨fuel, rfl⟩ := Nat.exists_eq_add_of_le' (Nat.zero_lt_of_lt hfuel)
    have hbase : store.collectEnumValues fuel (store.superType t) = some [] := by
      cases hs : store.superType t with
      | none => cases fuel <;> rfl
      | some s =>
        obtain ⟨fuel, rfl⟩ := Nat.exists_eq_add_of_le' (Nat.lt_of_succ_lt_succ hfuel)
        have hnot := hsuper s hs
        rw [LiteralStore.isEnumType] at hnot
        simp only [CheckedStore.collectEnumValues]
        split
        case h_1 topNode hbody =>
          rw [hbody] at hnot
          cases hnot
        case h_2 => rfl
    simp only [CheckedStore.collectEnumValues, hbody, hbase]
    simp
  | @extension t s topNode forests hbody hsuper hchain ih =>
    obtain ⟨fuel, rfl⟩ := Nat.exists_eq_add_of_le' (Nat.zero_lt_of_lt hfuel)
    rw [List.length_append, List.length_singleton] at hfuel
    have hbase := ih (show forests.length < fuel by omega)
    simp only [CheckedStore.collectEnumValues, hbody, hsuper, hbase]
    simp

theorem mem_values_iff (domain : EnumDomain store) {value : Text} :
    value ∈ domain.forests.flatMap (collectEnumNodes []) ↔ names value ∈ domain.tree.nodes := by
  rw [List.mem_flatMap]
  constructor
  · rintro ⟨forest, hforest, hvalue⟩
    obtain ⟨p, hp, heq⟩ := (mem_collectEnumNodes (domain.named forest hforest)).mp hvalue
    rw [place, if_pos rfl, List.nil_append] at heq
    exact ⟨forest, hforest, heq ▸ hp⟩
  · rintro ⟨forest, hforest, hp⟩
    exact ⟨forest, hforest, (mem_collectEnumNodes (domain.named forest hforest)).mpr
      ⟨names value, hp, by simp [place]⟩⟩

theorem findsValue_nodes_iff (domain : EnumDomain store) {value : Text} :
    LiteralStore.findsValue value true (domain.forests.flatMap (collectEnumNodes [])) = true ↔
      names value ∈ domain.tree.nodes := by
  rw [LiteralStore.findsValue, Bool.true_or, Bool.and_true, decide_eq_true_iff, mem_values_iff]

theorem findsValue_leaf_iff (domain : EnumDomain store) {value : Text} :
    LiteralStore.findsValue value false (domain.forests.flatMap (collectEnumNodes [])) = true ↔
      domain.tree.IsLeaf (names value) := by
  rw [LiteralStore.findsValue, Bool.false_or, Bool.and_eq_true, decide_eq_true_iff,
    List.all_eq_true, PathTree.isLeaf_iff, mem_values_iff]
  apply and_congr_right
  intro _
  constructor
  · intro hall rest hrest hmem
    obtain ⟨forest, hforest, hp⟩ := hmem
    obtain ⟨other, hother⟩ := hp.exists_text
    have hvalue : other ∈ domain.forests.flatMap (collectEnumNodes []) :=
      (mem_values_iff domain).mpr ⟨forest, hforest, hother ▸ hp⟩
    have hbelow : value ++ ['.'] <+: other := prefix_separator_iff.mpr ⟨rest, hrest, hother⟩
    have hnot := hall other hvalue
    rw [show ".".toList = ['.'] from rfl, List.isPrefixOf_iff_prefix.mpr hbelow] at hnot
    cases hnot
  · intro hleaf other hother
    rw [Bool.not_eq_true', ← Bool.not_eq_true, List.isPrefixOf_iff_prefix]
    intro hbelow
    have hbelow' : value ++ ['.'] <+: other := hbelow
    obtain ⟨rest, hrest, heq⟩ := prefix_separator_iff.mp hbelow'
    apply hleaf rest hrest
    have hmem := (mem_values_iff domain).mp hother
    rwa [names, heq] at hmem

theorem ExtensionChain.isEnumType {t : MetaType} {forests : List (List EnumNode)}
    (h : ExtensionChain store t forests) : store.isEnumType t = true := by
  cases h with
  | base hbody => rw [LiteralStore.isEnumType, hbody]
  | extension hbody => rw [LiteralStore.isEnumType, hbody]

/-- A literal is held against the values of the merged tree. -/
theorem validateEnumLiteral_accepted (domain : EnumDomain store)
    {expression : Option (Expression Factor)} {c : Constant}
    (hliteral : literalConstant expression = some c) {target : Descriptor}
    (htarget : store.enumerationType target = some domain.type) (allowNodes : Bool) {fuel : ℕ}
    (hfuel : domain.forests.length < fuel) :
    ∃ check, store.validateEnumLiteral fuel expression target allowNodes = some check ∧
      check.accepted = LiteralStore.findsValue c.value allowNodes
        (domain.forests.flatMap (collectEnumNodes [])) := by
  rw [LiteralStore.validateEnumLiteral, hliteral, htarget]
  dsimp only
  rw [domain.chain.collectEnumValues hfuel, Option.map_some]
  refine ⟨_, rfl, ?_⟩
  split_ifs with hfound
  · exact hfound.symm
  · exact (Bool.not_eq_true _ ▸ hfound).symm

/-- A plain enumeration accepts exactly the leaves of its merged tree, and `ALL OF` exactly its
nodes. -/
theorem validateEnumLiteral_iff (domain : EnumDomain store)
    (expression : Option (Expression Factor)) (c : Constant)
    (hliteral : literalConstant expression = some c) (fuel : ℕ)
    (hfuel : domain.forests.length < fuel) :
    (∃ check, store.validateEnumLiteral fuel expression ⟨.enumeration, some domain.type⟩ false =
        some check ∧ (check.accepted = true ↔ domain.tree.IsLeaf (names c.value))) ∧
      ∀ treeValue, store.body treeValue = .plain .enumTreeValueType →
        store.treeValueOf treeValue = some domain.type →
          ∃ check, store.validateEnumLiteral fuel expression ⟨.enumTreeValue, some treeValue⟩
            true = some check ∧
              (check.accepted = true ↔ names c.value ∈ domain.tree.nodes) := by
  constructor
  · have htarget : store.enumerationType ⟨.enumeration, some domain.type⟩ = some domain.type := by
      simp only [LiteralStore.enumerationType, domain.chain.isEnumType, if_true]
    obtain ⟨check, hcheck, haccepted⟩ :=
      validateEnumLiteral_accepted domain hliteral htarget false hfuel
    exact ⟨check, hcheck, by rw [haccepted, findsValue_leaf_iff]⟩
  · intro treeValue hbody hof
    have htarget : store.enumerationType ⟨.enumTreeValue, some treeValue⟩ = some domain.type := by
      simp only [LiteralStore.enumerationType, hbody, hof]
    obtain ⟨check, hcheck, haccepted⟩ :=
      validateEnumLiteral_accepted domain hliteral htarget true hfuel
    exact ⟨check, hcheck, by rw [haccepted, findsValue_nodes_iff]⟩

/-- The domain `(a (b))`, and its extension `(a.b (x))`. -/
def roofStore : LiteralStore where
  superType t := if t.address = 1 then some (typeOf 0) else none
  body t := if t.address = 0 then .enumType [.mk "a".toList false [.mk "b".toList false []]]
    else .enumType [.mk "a.b".toList false [.mk "x".toList false []]]
  mandatory _ := false
  extending _ := none
  superRole _ := none
  roles _ := []
  iliVersion _ := "2.3".toList
  typeReports _ := []
  treeValueOf _ := none
where
  typeOf (address : ℕ) : MetaType := ⟨⟨address, "D".toList, none⟩, .domain, "D".toList⟩

def roofForests : List (List EnumNode) :=
  [[.mk "a".toList false [.mk "b".toList false []]],
    [.mk "a.b".toList false [.mk "x".toList false []]]]

theorem declares_roof {p : List Text} : (∃ forest ∈ roofForests, Declares forest p) ↔
    p = [['a']] ∨ p = [['a'], ['b']] ∨ p = [['a'], ['b'], ['x']] := by
  have ha : names "a".toList = [['a']] := by decide
  have hb : names "b".toList = [['b']] := by decide
  have hx : names "x".toList = [['x']] := by decide
  have hab : names "a.b".toList = [['a'], ['b']] := by decide
  simp only [roofForests, List.mem_cons, List.not_mem_nil, or_false, exists_eq_or_imp,
    exists_eq_left, declares_cons, not_declares_nil, false_and, exists_false, ha, hb, hx, hab,
    List.cons_append, List.nil_append]
  tauto

def roofDomain : EnumDomain roofStore where
  type := roofStore.typeOf 1
  forests := roofForests
  chain := .extension rfl rfl (.base rfl (by simp [roofStore, roofStore.typeOf]))
  named := by
    intro forest hforest
    simp only [roofForests, List.mem_cons, List.not_mem_nil, or_false] at hforest
    rcases hforest with rfl | rfl
    · exact .cons (by decide) (.cons (by decide) .nil .nil) .nil
    · exact .cons (by decide) (.cons (by decide) .nil .nil) .nil
  grafted := by
    intro forest hforest q hq p hpre hp
    rw [declares_roof]
    have hcases := declares_roof.mp ⟨forest, hforest, hq⟩
    rcases hcases with rfl | rfl | rfl <;>
      simp only [List.prefix_cons_iff, List.prefix_nil] at hpre <;> aesop

def roofLiteral : Constant := ⟨"a.b".toList, .enumeration, ⟨.enumeration, none⟩⟩

def roofExpression : Expression Factor := .factor (.constant roofLiteral) "EnumType".toList

theorem validateEnumLiteral_iff_roof :
    (∃ check, roofStore.validateEnumLiteral 3 (some roofExpression)
        ⟨.enumeration, some roofDomain.type⟩ false = some check ∧
        (check.accepted = true ↔ roofDomain.tree.IsLeaf (names roofLiteral.value))) ∧
      ∀ treeValue, roofStore.body treeValue = .plain .enumTreeValueType →
        roofStore.treeValueOf treeValue = some roofDomain.type →
          ∃ check, roofStore.validateEnumLiteral 3 (some roofExpression)
            ⟨.enumTreeValue, some treeValue⟩ true = some check ∧
              (check.accepted = true ↔ names roofLiteral.value ∈ roofDomain.tree.nodes) :=
  validateEnumLiteral_iff roofDomain (some roofExpression) roofLiteral rfl 3 (by decide)

end Ilic.Semantics
