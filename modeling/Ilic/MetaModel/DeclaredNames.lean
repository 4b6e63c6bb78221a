import Ilic.Foundation.Runs
import Ilic.MetaModel.VisitEffects

/-! # The declarations of a run

The functions, line forms, units and topics of a run are tracked beside the builder.  A
declaration that its list keeps under a path of its own is found under this path.
-/

namespace Ilic.MetaModel
open Foundation MetaModelStore

inductive Declared where
  | function (f : FunctionDef)
  | lineForm (f : LineForm)
  | unit (u : MetaUnit)
  | topic (s : SubModel)
  | derivedTopic (address : ℕ) (name : Identifier)
deriving DecidableEq

namespace Declared

def getPath : Declared → Text
  | .function f => f.getPath
  | .lineForm f => f.getPath
  | .unit u => u.getPath
  | .topic s => s.getPath
  | .derivedTopic _ name => name

def function? : Declared → Option FunctionDef
  | .function f => some f
  | _ => none

def lineForm? : Declared → Option LineForm
  | .lineForm f => some f
  | _ => none

def unit? : Declared → Option MetaUnit
  | .unit u => some u
  | _ => none

/-- The look-up of its kind gives the declaration, with the name that it was declared with. -/
def FoundIn (store : MetaModelStore) (currentModel : Model) : Declared → Prop
  | .function f => store.findFunction f.getPath = some f
  | .lineForm f => store.findLineForm f.getPath = some f
  | .unit u => store.findUnit currentModel u.getPath = some u
  | .topic s => store.findPackage currentModel s.getPath = some (.subModel s)
  | .derivedTopic address name => ∃ p, store.findPackage currentModel name = some p ∧
      p.address = address

/-- The simple names are `NAME` tokens, and the element stands in a package. -/
def Named : Declared → Prop
  | .function f => '.' ∉ f.name ∧ f.elementInPackage.isSome
  | .lineForm f => '.' ∉ f.name ∧ f.elementInPackage.isSome
  | .derivedTopic _ _ => False
  | _ => True

end Declared

/-- The units that a model of INTERLIS 1 gets. -/
def copiedUnits (m : Model) (b : Builder) : List Text → List Declared
  | [] => []
  | name :: rest =>
    match b.store.findUnit m name, b.copyUnit m name with
    | some u, some b' => .unit (b.newUnitOf m u) :: copiedUnits m b' rest
    | _, _ => []

/-- What a visit declares. -/
def declaration (b : Builder) : Visit → List Declared
  | .topicDef name _ =>
    match b.context with
    | [.model m] => [.topic (b.newTopic m name)]
    | _ => []
  | .unitDef name unitShort _ _ =>
    match b.context with
    | ctx :: _ => [.unit (b.newUnit ctx name unitShort)]
    | [] => []
  | .functionDef name =>
    match b.context with
    | ctx :: _ => [.function (b.newFunction ctx name)]
    | [] => []
  | .lineFormTypeDecl name =>
    match b.context with
    | [.model m] => [.lineForm (b.newLineForm (.model m) name)]
    | _ => []
  | .ili1 (.modelDef name) =>
    copiedUnits ⟨b.made, name⟩ (b.enterIli1Model name) Builder.predefinedUnits
  | .ili1 (.topicDef name) =>
    match b.scope with
    | .package (.model m) => [.topic (b.newTopic m name)]
    | .transfer => [.derivedTopic b.made name]
    | _ => []
  | _ => []

/-- The builder and what has been declared so far. -/
structure Tracked where
  builder : Builder := {}
  declared : List Declared := []

def DistinctPaths (declared : List Declared) : Prop := (declared.map Declared.getPath).Nodup

instance (declared : List Declared) : Decidable (DistinctPaths declared) :=
  inferInstanceAs (Decidable (List.Nodup _))

/-- A visit, as long as the declared paths stay distinct. -/
def track (fuel : ℕ) (t : Tracked) (v : Visit) : Option Tracked :=
  (t.builder.visit fuel v).bind fun b =>
    let declared := t.declared ++ declaration t.builder v
    if DistinctPaths declared then some ⟨b, declared⟩ else none

def Tracks (t : Tracked) (v : Visit) (t' : Tracked) : Prop := ∃ fuel, track fuel t v = some t'

/-- Every declaration is found under its path, from whatever model. -/
def Finds (t : Tracked) : Prop :=
  ∀ d ∈ t.declared, ∀ currentModel, d.FoundIn t.builder.store currentModel

/-- A new function or line form has a new simple name, a line form is referred to by its
simple name, and no topic is one of INTERLIS 1. -/
def NamesApart (t : Tracked) : Visit → Prop
  | .functionDef name => ∀ f, .function f ∈ t.declared → f.name ≠ name.val
  | .lineFormTypeDecl name => ∀ f, .lineForm f ∈ t.declared → f.name ≠ name.val
  | .lineForm name => '.' ∉ name
  | .ili1 (.topicDef _) => False
  | _ => True

/-! ## What the lists of the store hold -/

/-- The store holds what was declared, as it was declared. -/
structure Kept (t : Tracked) : Prop where
  functions : t.builder.store.functions = t.declared.filterMap Declared.function?
  lineForms : t.builder.store.lineForms = t.declared.filterMap Declared.lineForm?
  units : t.builder.store.units = t.declared.filterMap Declared.unit?
  topics : ∀ s, Package.subModel s ∈ t.builder.store.packages ↔ .topic s ∈ t.declared
  packages : ∀ p ∈ t.builder.store.packages, p.address < t.builder.made
  named : ∀ d ∈ t.declared, d.Named
  addresses : (t.builder.store.lineForms.map fun f => f.address).Nodup
  made : ∀ f ∈ t.builder.store.lineForms, f.address < t.builder.made
  distinct : DistinctPaths t.declared

theorem kept_start : Kept {} where
  functions := rfl
  lineForms := rfl
  units := rfl
  topics s := by simp
  packages p hp := by simp at hp
  named d hd := by simp at hd
  addresses := List.nodup_nil
  made f hf := by simp at hf
  distinct := List.nodup_nil

theorem find?_of_only {α : Type} {l : List α} {p : α → Bool} {a : α} (ha : a ∈ l)
    (hp : p a = true) (honly : ∀ c ∈ l, p c = true → c = a) : l.find? p = some a := by
  cases hfind : l.find? p with
  | none => exact absurd hp (by simpa using List.find?_eq_none.mp hfind a ha)
  | some c =>
    rw [honly c (List.mem_of_find?_eq_some hfind) (List.find?_some hfind)]

theorem eq_of_getPath {declared : List Declared} (h : DistinctPaths declared) {d e : Declared}
    (hd : d ∈ declared) (he : e ∈ declared) (hpath : d.getPath = e.getPath) : d = e :=
  List.inj_on_of_nodup_map h hd he hpath

/-! ## Look-ups by path -/

theorem dot_mem_getPath {e : Element} (h : e.elementInPackage.isSome) : '.' ∈ e.getPath := by
  obtain ⟨p, hp⟩ := Option.isSome_iff_exists.mp h
  rw [Element.getPath, hp]
  exact dot_mem_dotted p.getPath e.name

/-- In a package, what follows the path of the package is the simple name. -/
theorem namesElement_iff {name : Text} {e : Element} (h : e.elementInPackage.isSome) :
    namesElement name e = true ↔ e.getPath = name ∨ e.name = name := by
  obtain ⟨p, hp⟩ := Option.isSome_iff_exists.mp h
  have hlocal : e.getPath = dotted e.getParentPath name ↔ e.name = name := by
    rw [Element.getPath, Element.getParentPath, hp]
    exact ⟨dotted_right_injective, fun h => by rw [h]⟩
  rw [namesElement, decide_eq_true_iff, hlocal]

/-- Among elements of packages with dotless names and distinct paths, a path names one. -/
theorem find?_namesElement {α : Type} {l : List α} {element : α → Element} {a : α} (ha : a ∈ l)
    (hnamed : ∀ c ∈ l, '.' ∉ (element c).name ∧ (element c).elementInPackage.isSome)
    (hpaths : ∀ c ∈ l, (element c).getPath = (element a).getPath → c = a) :
    (l.find? fun c => namesElement (element a).getPath (element c)) = some a := by
  apply find?_of_only ha
  · exact (namesElement_iff (hnamed a ha).2).mpr (Or.inl rfl)
  · intro c hc hnames
    rcases (namesElement_iff (hnamed c hc).2).mp hnames with hpath | hname
    · exact hpaths c hc hpath
    · exact absurd (hname ▸ dot_mem_getPath (hnamed a ha).2) (hnamed c hc).1

theorem dot_not_mem_of_unqualifiedImports {store : MetaModelStore} {modelName a : Text}
    (h : a ∈ store.unqualifiedImports modelName) : '.' ∉ a := by
  obtain ⟨i, -, hi⟩ := List.mem_filterMap.mp h
  unfold unqualifiedImport at hi
  split at hi
  · rename_i imported _ _
    split_ifs at hi
    cases hi
    exact imported.name.noDot
  · cases hi

/-- The path of a topic does not end with the name of a data unit. -/
theorem withoutBasket_topic (s : SubModel) : withoutBasket s.getPath = s.getPath := by
  have hnot : ¬ ".BASKET".toList <:+ s.getPath := by
    rintro ⟨rest, hrest⟩
    have hbasket : dotted rest "BASKET".toList = dotted s.elementInPackage.name s.name := hrest
    have hlast := (dotted_injective_last (by decide) s.name.noDot hbasket).2
    exact s.name.property.2 hlast.symm
  rw [withoutBasket, if_neg hnot]

theorem answersName_topic_iff {p : Package} {s : SubModel} :
    answersName s.getPath p = true ↔ p.getPath = s.getPath := by
  have hname : p.name ≠ s.getPath := fun h => p.dot_not_mem_name (h ▸ s.dot_mem_getPath)
  simp [answersName, hname]

theorem not_answersImport_topic {store : MetaModelStore} {m : Model} {p : Package} {s : SubModel} :
    ¬ store.answersImport m s.getPath p = true := by
  intro h
  obtain ⟨unqualified, himport, hpath⟩ := List.any_eq_true.mp h
  have hdot := dot_not_mem_of_unqualifiedImports himport
  have hpath : p.getPath = dotted unqualified s.getPath := of_decide_eq_true hpath
  cases p with
  | model m' => exact Package.getPath_model_ne m' (dot_mem_dotted _ _) hpath
  | subModel s' =>
    have hname := (dotted_injective s'.elementInPackage.name.noDot hdot hpath).2
    exact s'.name.noDot (hname ▸ dot_mem_dotted _ _)

/-! ## Everything kept is found -/

variable {t t' : Tracked}

theorem Kept.mem_functions (h : Kept t) {f : FunctionDef} :
    f ∈ t.builder.store.functions ↔ .function f ∈ t.declared := by
  rw [h.functions, List.mem_filterMap]
  constructor
  · rintro ⟨d, hd, hdf⟩
    cases d <;> cases hdf
    exact hd
  · exact fun hf => ⟨_, hf, rfl⟩

theorem Kept.mem_lineForms (h : Kept t) {f : LineForm} :
    f ∈ t.builder.store.lineForms ↔ .lineForm f ∈ t.declared := by
  rw [h.lineForms, List.mem_filterMap]
  constructor
  · rintro ⟨d, hd, hdf⟩
    cases d <;> cases hdf
    exact hd
  · exact fun hf => ⟨_, hf, rfl⟩

theorem Kept.mem_units (h : Kept t) {u : MetaUnit} :
    u ∈ t.builder.store.units ↔ .unit u ∈ t.declared := by
  rw [h.units, List.mem_filterMap]
  constructor
  · rintro ⟨d, hd, hdu⟩
    cases d <;> cases hdu
    exact hd
  · exact fun hu => ⟨_, hu, rfl⟩

theorem Kept.finds (h : Kept t) : Finds t := by
  intro d hd currentModel
  cases d with
  | function f =>
    have hmem : ∀ {g}, g ∈ _ ↔ _ := @h.mem_functions
    refine find?_namesElement (hmem.mpr hd) (fun g hg => h.named _ (hmem.mp hg)) ?_
    intro g hg hpath
    exact Declared.function.inj (eq_of_getPath h.distinct (hmem.mp hg) hd hpath)
  | lineForm f =>
    have hmem : ∀ {g}, g ∈ _ ↔ _ := @h.mem_lineForms
    refine find?_namesElement (hmem.mpr hd) (fun g hg => h.named _ (hmem.mp hg)) ?_
    intro g hg hpath
    exact Declared.lineForm.inj (eq_of_getPath h.distinct (hmem.mp hg) hd hpath)
  | unit u =>
    have hpath : (t.builder.store.units.find? fun v => v.getPath = u.getPath) = some u := by
      apply find?_of_only (h.mem_units.mpr hd) (by simp)
      intro v hv hsame
      exact Declared.unit.inj
        (eq_of_getPath h.distinct (h.mem_units.mp hv) hd (of_decide_eq_true hsame))
    change t.builder.store.findUnit currentModel u.getPath = some u
    rw [findUnit, hpath]
    rfl
  | topic s =>
    have himport : t.builder.store.packages.find?
        (t.builder.store.answersImport currentModel s.getPath) = none :=
      List.find?_eq_none.mpr fun p _ => not_answersImport_topic
    have hname : t.builder.store.packages.find? (answersName s.getPath) =
        some (.subModel s) := by
      apply find?_of_only ((h.topics s).mpr hd) (answersName_topic_iff.mpr rfl)
      intro p hp hanswers
      have hpath := answersName_topic_iff.mp hanswers
      cases p with
      | model m => exact absurd hpath (Package.getPath_model_ne m s.dot_mem_getPath)
      | subModel s' =>
        rw [Declared.topic.inj (eq_of_getPath h.distinct ((h.topics s').mp hp) hd hpath)]
    change t.builder.store.findPackage currentModel s.getPath = some (.subModel s)
    rw [findPackage, withoutBasket_topic]
    simp only [himport, hname, Option.none_or]
  | derivedTopic address name => exact (h.named _ hd).elim

end Ilic.MetaModel
