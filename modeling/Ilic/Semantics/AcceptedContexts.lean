import Ilic.Semantics.ContextRanges

/-! # What the check of contexts accepts

A context is accepted exactly if it maps a GENERIC coordinate domain to coordinate domains within
its ranges, which extend those of the first imported definition.  Over the models that import
each other the concrete domains of a generic one are then narrowed only.
-/

namespace Ilic.Semantics.GenericDomains
open Foundation Machine Chains Relation FirstHolder

namespace GenericStore
variable {Definition : Type} (store : GenericStore Definition)

/-- The declared type of the first domain is that of the second one or extends it. -/
def SameOrExtension (candidate base : Option (Fin store.types)) : Prop :=
  ∃ c b, store.canonicalDeclaredType candidate = some c ∧
    store.canonicalDeclaredType base = some b ∧ ReflTransGen (Above store.super) c b

/-- The chain of the types that a type extends ends. -/
def Ends (t : Fin store.types) : Prop := Acc (fun b a => Above store.super a b) t

variable {store}

theorem SameOrExtension.trans {s t u : Option (Fin store.types)} (h : store.SameOrExtension s t)
    (h' : store.SameOrExtension t u) : store.SameOrExtension s u := by
  obtain ⟨a, b, ha, hb, hab⟩ := h
  obtain ⟨b', c, hb', hc, hbc⟩ := h'
  rw [hb] at hb'
  cases hb'
  exact ⟨a, c, ha, hc, hab.trans hbc⟩

theorem Ends.canonicalFrom {t : Fin store.types} (h : store.Ends t) (turns : ℕ)
    (seen : List (Fin store.types)) : store.Ends (store.canonicalFrom turns seen t) := by
  induction turns generalizing t seen with
  | zero => exact h
  | succ turns ih =>
    rw [GenericStore.canonicalFrom]
    split_ifs
    · exact h
    · cases hsuper : store.super t with
      | none => exact h
      | some base => exact ih (h.inv hsuper) _

theorem declaredTypeIsSameOrExtension_spec {candidate : Fin store.types} (h : store.Ends candidate)
    (base : Option (Fin store.types)) :
    ∃ r, store.declaredTypeIsSameOrExtension (some candidate) base = some r ∧
      (r = true ↔ store.SameOrExtension (some candidate) base) := by
  set declared := store.canonicalFrom (store.types + 1) [] candidate with hdeclared
  have hcanonical : store.canonicalDeclaredType (some candidate) = some declared := rfl
  obtain ⟨found, hrun, hfound⟩ := run_seek_card (fun current =>
    if some current = store.canonicalDeclaredType base then some () else none)
    (h.canonicalFrom (store.types + 1) [])
  rw [Fintype.card_fin] at hrun
  refine ⟨found.isSome, ?_, ?_⟩
  · rw [declaredTypeIsSameOrExtension, hcanonical]
    dsimp only
    rw [hdeclared, hrun]
    rfl
  · rw [hfound]
    constructor
    · rintro ⟨b, hreach, hsome⟩
      split at hsome
      case isTrue heq => exact ⟨declared, b, hcanonical, heq.symm, hreach⟩
      case isFalse => cases hsome
    · rintro ⟨c, b, hc, hb, hreach⟩
      rw [hcanonical] at hc
      cases hc
      exact ⟨b, hreach, by rw [hb, if_pos rfl]; rfl⟩

theorem extendsOneOf_spec {concrete : Fin store.types} (h : store.Ends concrete)
    (bases : List (Option (Fin store.types))) :
    ∃ r, store.extendsOneOf (some concrete) bases = some r ∧
      (r = true ↔ ∃ base ∈ bases, store.SameOrExtension (some concrete) base) := by
  induction bases with
  | nil => exact ⟨false, rfl, by simp⟩
  | cons base rest ih =>
    obtain ⟨first, hfirst, hsame⟩ := declaredTypeIsSameOrExtension_spec h base
    rw [extendsOneOf, hfirst]
    cases first with
    | true =>
      exact ⟨true, rfl, iff_of_true rfl ⟨base, List.mem_cons_self, hsame.mp rfl⟩⟩
    | false =>
      obtain ⟨r, hr, hrest⟩ := ih
      refine ⟨r, hr, ?_⟩
      rw [hrest, List.exists_mem_cons_iff, ← hsame]
      simp

/-- Both are coordinate types, and the axes of the first one keep the bounds of the second one. -/
def DomainWithin (store : GenericStore Definition) (concrete generic : Option (Fin store.types)) :
    Prop :=
  ∃ axes genericAxes, store.coordType concrete = some axes ∧
    store.coordType generic = some genericAxes ∧ AxesWithin axes genericAxes

def DomainsComparable (store : GenericStore Definition)
    (concrete generic : Option (Fin store.types)) : Prop :=
  ∀ axes genericAxes, store.coordType concrete = some axes →
    store.coordType generic = some genericAxes → AxesComparable axes genericAxes

theorem coordinateTypeFit_domains {concrete generic : Option (Fin store.types)}
    (h : store.DomainsComparable concrete generic) :
    ∃ fit, coordinateTypeFit (store.coordType concrete) (store.coordType generic) = some fit ∧
      (fit.fits = true ↔ store.DomainWithin concrete generic) := by
  rw [DomainWithin]
  cases hconcrete : store.coordType concrete with
  | none => exact ⟨_, rfl, iff_of_false (by simp [CoordinateFitResult.fits]) (by simp)⟩
  | some axes =>
    cases hgeneric : store.coordType generic with
    | none => exact ⟨_, rfl, iff_of_false (by simp [CoordinateFitResult.fits]) (by simp)⟩
    | some genericAxes =>
      obtain ⟨fit, hfit, hwithin⟩ := coordinateTypeFit_spec (h _ _ hconcrete hgeneric)
      refine ⟨fit, hfit, ?_⟩
      rw [hwithin]
      simp

/-- The concrete domain keeps the axes of the generic one, and extends a domain of the imported
definition if there is one. -/
structure MapsTo (store : GenericStore Definition) (generic : Fin store.types)
    (imported : Option Definition) (concrete : Option (Fin store.types)) : Prop where
  within : store.DomainWithin concrete (some generic)
  imports : ∀ definition, imported = some definition →
    ∃ base ∈ store.concreteDomain definition, store.SameOrExtension concrete base

theorem DomainWithin.exists_concrete {concrete generic : Option (Fin store.types)}
    (h : store.DomainWithin concrete generic) : ∃ t, concrete = some t := by
  obtain ⟨axes, -, haxes, -, -⟩ := h
  cases concrete with
  | none => cases haxes
  | some t => exact ⟨t, rfl⟩

theorem checkConcreteDomain_spec {generic : Fin store.types} {imported : Option Definition}
    {concrete : Option (Fin store.types)}
    (hcomparable : store.DomainsComparable concrete (some generic))
    (hends : ∀ t, concrete = some t → store.Ends t) :
    ∃ reports, store.checkConcreteDomain generic imported concrete = some reports ∧
      (reports = [] ↔ store.MapsTo generic imported concrete) := by
  obtain ⟨fit, hfit, hwithin⟩ := coordinateTypeFit_domains hcomparable
  have hnot : fit.fits = false → ¬ store.MapsTo generic imported concrete := by
    intro hfits h
    rw [hwithin.mpr h.within] at hfits
    cases hfits
  rw [checkConcreteDomain.eq_def, hfit]
  dsimp only
  split_ifs with hrange hfits
  · refine ⟨_, rfl, iff_of_false (List.cons_ne_nil _ _) (hnot ?_)⟩
    rcases hrange with h | h <;> simp [CoordinateFitResult.fits, h]
  · exact ⟨_, rfl, iff_of_false (List.cons_ne_nil _ _) (hnot hfits)⟩
  · have hkeeps := hwithin.mp ((Bool.not_eq_false _).mp hfits)
    cases imported with
    | none => exact ⟨[], rfl, iff_of_true rfl ⟨hkeeps, by simp⟩⟩
    | some definition =>
      obtain ⟨t, rfl⟩ := hkeeps.exists_concrete
      obtain ⟨allowed, hallowed, hextends⟩ :=
        extendsOneOf_spec (hends t rfl) (store.concreteDomain definition)
      have hmaps : store.MapsTo generic (some definition) (some t) ↔ allowed = true := by
        rw [hextends]
        exact ⟨fun h => h.imports definition rfl, fun h => ⟨hkeeps, by simpa using h⟩⟩
      dsimp only
      rw [hallowed, hmaps]
      refine ⟨_, rfl, ?_⟩
      cases allowed <;> simp

theorem inEach_spec {α β : Type} {check : α → Option (List β)} {accepts : α → Prop} {l : List α}
    (h : ∀ a ∈ l, ∃ reports, check a = some reports ∧ (reports = [] ↔ accepts a)) :
    ∃ reports, inEach check l = some reports ∧ (reports = [] ↔ ∀ a ∈ l, accepts a) := by
  induction l with
  | nil => exact ⟨[], rfl, by simp⟩
  | cons a l ih =>
    obtain ⟨⟨first, hfirst, haccepts⟩, hrest⟩ := List.forall_mem_cons.mp h
    obtain ⟨later, hlater, hall⟩ := ih hrest
    refine ⟨first ++ later, by rw [inEach, hfirst, hlater], ?_⟩
    rw [List.append_eq_nil_iff, haccepts, hall, List.forall_mem_cons]

/-- The definition is one of a context of the model. -/
def Defines (store : GenericStore Definition) (model : Fin store.contexts.size)
    (definition : Definition) : Prop :=
  ∃ definitions, some (.context definitions) ∈ store.contexts.element model ∧
    some definition ∈ definitions

/-- The definition maps a GENERIC coordinate domain, and each of its concrete domains keeps to
that and to the imported definition. -/
structure Maps (store : GenericStore Definition) (model : Fin store.contexts.size)
    (definition : Definition) (generic : Fin store.types) : Prop where
  coordType : (store.coordType (some generic)).isSome
  isGeneric : (store.object generic).generic = true
  concrete : ∀ imported, FirstImported store.contexts (some generic) model imported →
    ∀ concrete ∈ store.concreteDomain definition, store.MapsTo generic imported concrete

theorem genericDefinitionIn_of_defines {model : Fin store.contexts.size} {definition : Definition}
    (h : store.Defines model definition) {generic : Fin store.types}
    {later : List (Option (Fin store.types))}
    (hgeneric : store.contexts.genericDomain definition = some generic :: later) :
    store.contexts.genericDefinitionIn model (some generic) ≠ none := by
  obtain ⟨definitions, helement, hmem⟩ := h
  intro hnone
  rw [ContextStore.genericDefinitionIn, List.findSome?_eq_none_iff] at hnone
  have hcontext := hnone _ helement
  rw [ContextStore.genericDefinitionOfElement, List.findSome?_eq_none_iff] at hcontext
  have hdefinition := hcontext _ hmem
  rw [Option.filter_eq_none_iff] at hdefinition
  exact hdefinition definition rfl (by simp [ContextStore.definesGeneric, hgeneric])

/-- What the check of a model needs: the bounds that it compares are literals whose comparison
is exact, and the concrete domains do not extend themselves. -/
structure Checkable (store : GenericStore Definition) (model : Fin store.contexts.size) : Prop where
  comparable : ∀ definition generic later, store.Defines model definition →
    store.contexts.genericDomain definition = generic :: later →
    ∀ concrete ∈ store.concreteDomain definition, store.DomainsComparable concrete generic
  ends : ∀ definition concrete, store.Defines model definition →
    some concrete ∈ store.concreteDomain definition → store.Ends concrete

/-- A definition without a generic domain is not checked. -/
def Accepted (store : GenericStore Definition) (model : Fin store.contexts.size)
    (definition : Definition) : Prop :=
  ∀ generic later, store.contexts.genericDomain definition = generic :: later →
    ∃ domain, generic = some domain ∧ store.Maps model definition domain

theorem checkDefinition_spec {model : Fin store.contexts.size} (h : store.Checkable model)
    {definition : Definition} (hdefines : store.Defines model definition) :
    ∃ reports, store.checkDefinition model definition = some reports ∧
      (reports = [] ↔ store.Accepted model definition) := by
  rw [checkDefinition.eq_def, Accepted]
  cases hgeneric : store.contexts.genericDomain definition with
  | nil => exact ⟨[], rfl, by simp⟩
  | cons first later =>
    have haccepted : (∀ generic later', first :: later = generic :: later' →
          ∃ domain, generic = some domain ∧ store.Maps model definition domain) ↔
        ∃ domain, first = some domain ∧ store.Maps model definition domain :=
      ⟨fun h => h first later rfl, fun h _ _ heq => (List.cons.inj heq).1 ▸ h⟩
    rw [haccepted]
    dsimp only
    cases hdomain : first.filter fun t =>
        (store.coordType (some t)).isSome && (store.object t).generic with
    | none =>
      refine ⟨_, rfl, iff_of_false (List.cons_ne_nil _ _) ?_⟩
      rintro ⟨domain, rfl, hmaps⟩
      rw [Option.filter_eq_none_iff] at hdomain
      exact hdomain domain rfl (by rw [hmaps.coordType, hmaps.isGeneric, Bool.and_self])
    | some domain =>
      rw [Option.filter_eq_some_iff, Bool.and_eq_true] at hdomain
      obtain ⟨rfl, hcoord, hisGeneric⟩ := hdomain
      obtain ⟨imported, himported, hfirst⟩ :=
        genericDefinitionInImports_first (genericDefinitionIn_of_defines hdefines hgeneric)
      dsimp only
      rw [importedDefinition, himported]
      dsimp only
      have hconcrete : ∀ concrete ∈ store.concreteDomain definition, ∃ reports,
          store.checkConcreteDomain domain imported concrete = some reports ∧
            (reports = [] ↔ store.MapsTo domain imported concrete) := by
        intro concrete hmem
        apply checkConcreteDomain_spec (h.comparable _ _ _ hdefines hgeneric concrete hmem)
        rintro t rfl
        exact h.ends definition t hdefines hmem
      obtain ⟨reports, hreports, hall⟩ := inEach_spec hconcrete
      refine ⟨reports, hreports, hall.trans ?_⟩
      constructor
      · intro hmaps
        refine ⟨domain, rfl, hcoord, hisGeneric, ?_⟩
        intro imported' himported' concrete hmem
        rw [himported'.unique hfirst]
        exact hmaps concrete hmem
      · rintro ⟨domain', hsame, hmaps⟩
        cases hsame
        exact hmaps.concrete imported hfirst

theorem checkContext_spec {model : Fin store.contexts.size} (h : store.Checkable model)
    {definitions : List (Option Definition)}
    (hcontext : some (.context definitions) ∈ store.contexts.element model) :
    ∃ reports, store.checkContext model definitions = some reports ∧
      (reports = [] ↔ ∀ definition, some definition ∈ definitions →
        store.Accepted model definition) := by
  have hdefinition : ∀ definition ∈ definitions, ∃ reports,
      definition.elim (some []) (store.checkDefinition model) = some reports ∧
        (reports = [] ↔ ∀ d, definition = some d → store.Accepted model d) := by
    intro definition hmem
    cases definition with
    | none => exact ⟨[], rfl, by simp⟩
    | some d =>
      obtain ⟨reports, hreports, haccepted⟩ := checkDefinition_spec h ⟨definitions, hcontext, hmem⟩
      exact ⟨reports, hreports, haccepted.trans (by simp)⟩
  obtain ⟨reports, hreports, hall⟩ := inEach_spec hdefinition
  refine ⟨reports, hreports, hall.trans ?_⟩
  exact ⟨fun h d hmem => h _ hmem d rfl, fun h _ hmem d heq => h d (heq ▸ hmem)⟩

theorem checkElement_spec {model : Fin store.contexts.size} (h : store.Checkable model)
    {element : Option (ModelElement Definition)} (helement : element ∈ store.contexts.element model) :
    ∃ reports, store.checkElement model element = some reports ∧
      (reports = [] ↔ ∀ definitions, element = some (.context definitions) →
        ∀ definition, some definition ∈ definitions → store.Accepted model definition) := by
  match element with
  | none => exact ⟨[], rfl, by simp⟩
  | some .other => exact ⟨[], rfl, by simp⟩
  | some (.context definitions) =>
    obtain ⟨reports, hreports, haccepted⟩ := checkContext_spec h helement
    exact ⟨reports, hreports, haccepted.trans (by simp)⟩

theorem checkContexts_spec {model : Fin store.contexts.size} (h : store.Checkable model) :
    ∃ reports, store.checkContexts model = some reports ∧
      (reports = [] ↔ ∀ definition, store.Defines model definition →
        store.Accepted model definition) := by
  obtain ⟨reports, hreports, hall⟩ := inEach_spec fun _ => checkElement_spec h
  refine ⟨reports, hreports, hall.trans ?_⟩
  constructor
  · rintro haccepted definition ⟨definitions, helement, hmem⟩
    exact haccepted _ helement definitions rfl definition hmem
  · rintro haccepted _ helement definitions rfl definition hmem
    exact haccepted definition ⟨definitions, helement, hmem⟩

/-- The contexts of a model are accepted exactly if each of their definitions maps a GENERIC
coordinate domain to coordinate domains within its ranges, which extend those of the first
imported definition. -/
theorem checkContexts_accepts_iff {model : Fin store.contexts.size} (h : store.Checkable model) :
    store.checkContexts model = some [] ↔
      ∀ definition, store.Defines model definition → store.Accepted model definition := by
  obtain ⟨reports, hreports, haccepted⟩ := checkContexts_spec h
  rw [hreports, Option.some.injEq, haccepted]

/-! ## Two models

The second model imports the first one.  Its context maps the same generic domain to an extension
of the domain in the first context. -/

def oneLiteral : DecimalLiteral where
  sign := .absent
  whole := ['1']
  fraction := none
  exponent := none
  digits_ne := by decide
  isDigit_of_mem := by simp [isDigit]

def twoLiteral : DecimalLiteral where
  sign := .absent
  whole := ['2']
  fraction := none
  exponent := none
  digits_ne := by decide
  isDigit_of_mem := by simp [isDigit]

theorem two_comparable_one : Comparable twoLiteral oneLiteral where
  left := ⟨⟨by decide, by decide⟩, fun _ => ⟨by decide, by decide⟩⟩
  right := ⟨⟨by decide, by decide⟩, fun _ => ⟨by decide, by decide⟩⟩
  magnitude := fun _ => ⟨fun _ => ⟨by decide, by decide⟩, fun _ => ⟨by decide, by decide⟩⟩
  zero := by
    have hone : oneLiteral.value ≠ 0 :=
      mul_ne_zero (by simp [oneLiteral, DecimalLiteral.digits, digitsValue, SignMark.factor])
        (zpow_ne_zero _ (by norm_num))
    have htwo : twoLiteral.value ≠ 0 :=
      mul_ne_zero (by simp [twoLiteral, DecimalLiteral.digits, digitsValue, SignMark.factor])
        (zpow_ne_zero _ (by norm_num))
    exact ⟨fun h => htwo h.1, fun h => hone h.1⟩

/-- A generic domain, a domain for it, an extension of that, a class with an attribute, and the
type of the attribute, which is the generic domain. -/
def heightType (t : Fin 5) : TypeObject 5 where
  name := (["Height", "High", "Higher", "Point", "TYPE"].getD t "").toList
  path := (["M.Height", "M.High", "N.Higher", "N.T.Point", "N.T.Point.height"].getD t "").toList
  inPackage := t ≠ 4
  super := if t = 2 then some 1 else if t = 4 then some 0 else none
  generic := t = 0
  body := if t = 3 then .viewable [some ⟨some 4⟩]
    else .coordType [some ⟨(if t = 0 then "1" else "2").toList, []⟩]

def heightStore : GenericStore (Fin 2) where
  types := 5
  object := heightType
  contexts := {
    size := 2
    element := fun model => [some (.context [some model])]
    genericDomain := fun _ => [some 0]
    imports := [some ⟨some (.model 1), some (.model 0)⟩] }
  concreteDomain
    | 0 => [some 1]
    | 1 => [some 2]
  contextName := fun _ => "heights".toList

theorem heightStore_checkable (model : Fin 2) : heightStore.Checkable model where
  comparable := by
    intro definition generic later _ hgeneric concrete hmem axes genericAxes haxes hgenericAxes
    cases hgeneric
    have hgenericEq : genericAxes = [some ⟨"1".toList, []⟩] := by
      cases hgenericAxes
      rfl
    have hconcreteEq : axes = [some ⟨"2".toList, []⟩] := by
      match definition with
      | 0 =>
        cases List.mem_singleton.mp hmem
        cases haxes
        rfl
      | 1 =>
        cases List.mem_singleton.mp hmem
        cases haxes
        rfl
    rw [hgenericEq, hconcreteEq]
    rintro pair hpair c b rfl
    cases List.mem_singleton.mp hpair
    exact ⟨.both two_comparable_one, .unbounded []⟩
  ends := by
    intro definition concrete _ _
    have hrank : ∀ a b : Fin 5, (heightType a).super = some b → b.val < a.val := by decide
    exact @acc_of_rank (Fin 5) _ Fin.val hrank concrete

theorem heightStore_accepted (model : Fin 2) : heightStore.checkContexts model = some [] := by
  match model with
  | 0 => rfl
  | 1 => rfl

theorem heightStore_accepts_iff : heightStore.checkContexts (1 : Fin 2) = some [] ↔
    ∀ definition, heightStore.Defines (1 : Fin 2) definition →
      heightStore.Accepted (1 : Fin 2) definition :=
  checkContexts_accepts_iff (heightStore_checkable 1)

/-! ## Contexts that import others -/

/-- The definition that a model has for a domain is one of its contexts and maps the domain. -/
theorem defines_of_genericDefinitionIn {model : Fin store.contexts.size} {generic : Fin store.types}
    {definition : Definition}
    (h : store.contexts.genericDefinitionIn model (some generic) = some definition) :
    store.Defines model definition ∧
      ∃ later, store.contexts.genericDomain definition = some generic :: later := by
  obtain ⟨element, helement, hfound⟩ := List.exists_of_findSome?_eq_some h
  rw [ContextStore.genericDefinitionOfElement.eq_def] at hfound
  split at hfound
  case h_1 definitions =>
    obtain ⟨candidate, hmem, hfilter⟩ := List.exists_of_findSome?_eq_some hfound
    rw [Option.filter_eq_some_iff] at hfilter
    obtain ⟨rfl, hgeneric⟩ := hfilter
    rw [ContextStore.definesGeneric, decide_eq_true_eq, List.head?_eq_some_iff] at hgeneric
    exact ⟨⟨definitions, helement, hmem⟩, hgeneric⟩
  case h_2 => cases hfound

theorem imports_of_below {generic : Option (Fin store.types)} {m m' : Fin store.contexts.size}
    (h : Below store.contexts.directlyImportedModels (store.contexts.genericDefinitionIn · generic)
      m m') : store.contexts.Imports m m' :=
  ContextStore.mem_directlyImportedModels.mp h.2

theorem exists_model_of_firstImported {model : Fin store.contexts.size} {generic : Fin store.types}
    {definition : Definition}
    (h : FirstImported store.contexts (some generic) model (some definition)) :
    ∃ m, TransGen store.contexts.Imports model m ∧
      store.contexts.genericDefinitionIn m (some generic) = some definition := by
  obtain ⟨order, hlisting, hfirst⟩ := h
  obtain ⟨m, hm, hown⟩ := List.exists_of_findSome?_eq_some hfirst
  refine ⟨m, ?_, hown⟩
  rcases hlisting.reached hm with hnil | ⟨imported, himported, hreach⟩
  · cases hnil
  · exact .head' (ContextStore.mem_directlyImportedModels.mp himported)
      (ReflTransGen.mono (fun _ _ => imports_of_below) _ _ hreach)

theorem exists_maps_of_firstImported (haccepted : ∀ model definition, store.Defines model definition →
      store.Accepted model definition) {model : Fin store.contexts.size} {generic : Fin store.types}
    {definition : Definition}
    (h : FirstImported store.contexts (some generic) model (some definition)) :
    ∃ m, TransGen store.contexts.Imports model m ∧ store.Maps m definition generic := by
  obtain ⟨m, hm, hown⟩ := exists_model_of_firstImported h
  obtain ⟨hdefines, later, hgeneric⟩ := defines_of_genericDefinitionIn hown
  obtain ⟨domain, hdomain, hmaps⟩ := haccepted m definition hdefines _ _ hgeneric
  cases hdomain
  exact ⟨m, hm, hmaps⟩

/-- Every concrete domain is or extends one of a context that imports none for the same generic
domain. -/
theorem Maps.exists_root (haccepted : ∀ model definition, store.Defines model definition →
      store.Accepted model definition)
    (hwf : WellFounded fun m m' => store.contexts.Imports m' m)
    {model : Fin store.contexts.size} {definition : Definition} {generic : Fin store.types}
    (h : store.Maps model definition generic) {concrete : Option (Fin store.types)}
    (hmem : concrete ∈ store.concreteDomain definition) :
    ∃ root rootDefinition base, ReflTransGen store.contexts.Imports model root ∧
      store.Maps root rootDefinition generic ∧
      FirstImported store.contexts (some generic) root none ∧
      base ∈ store.concreteDomain rootDefinition ∧ store.SameOrExtension concrete base := by
  have hwf' := hwf.transGen
  induction model using hwf'.induction generalizing definition concrete with
  | _ model ih =>
    obtain ⟨order, hlisting⟩ := exists_listing store.contexts.directlyImportedModels
      (store.contexts.genericDefinitionIn · (some generic)) []
      (store.contexts.directlyImportedModels model)
    have hfirst : FirstImported store.contexts (some generic) model
        (order.findSome? (store.contexts.genericDefinitionIn · (some generic))) :=
      ⟨order, hlisting, rfl⟩
    have hmaps := h.concrete _ hfirst concrete hmem
    cases himported : order.findSome? (store.contexts.genericDefinitionIn · (some generic)) with
    | none =>
      rw [himported] at hfirst
      obtain ⟨t, rfl⟩ := hmaps.within.exists_concrete
      exact ⟨model, definition, some t, .refl, h, hfirst, hmem, _, _, rfl, rfl, .refl⟩
    | some imported =>
      rw [himported] at hfirst
      obtain ⟨m, hm, hmapped⟩ := exists_maps_of_firstImported haccepted hfirst
      obtain ⟨base, hbase, hextends⟩ := hmaps.imports imported himported
      obtain ⟨root, rootDefinition, last, hreach, hroot, hnone, hlast, hlater⟩ :=
        ih m (transGen_swap.mpr hm) hmapped hbase
      exact ⟨root, rootDefinition, last, hm.to_reflTransGen.trans hreach, hroot, hnone, hlast,
        hextends.trans hlater⟩

end GenericStore

end Ilic.Semantics.GenericDomains
