import Ilic.Semantics.FormattedLiteral

/-! # Restricted domains of dates and times

A domain restricts a standard type or another such domain, either by EXTENDS or by a format with
bounds; attributes have copies of them or restrict them once more.  A literal of the domain
should have the form of the standard type and lie within all the bounds.
-/

namespace Ilic.Semantics
open Foundation Machine Chains
open MetaModel (MetaType)
open Expressions (Expression)

/-- The bounds of a formatted type, as they are written. -/
structure Bounds where
  min : Text
  max : Text

/-- In lexicographic order. -/
def Bounds.Contains (own : Bounds) (value : Text) : Prop := ¬ value < own.min ∧ ¬ own.max < value

/-- What the check makes of the bounds: an empty text is none. -/
def Bounds.Excludes (own : Bounds) (value : Text) : Prop :=
  own.min ≠ [] ∧ value < own.min ∨ own.max ≠ [] ∧ own.max < value

/-- The store with the links from one formatted type to the one whose format it has. -/
structure FormattedStore extends LiteralStore where
  baseFormattedType : MetaType → Option MetaType

namespace FormattedStore
variable (store : FormattedStore)

/-- What the builder has stored for a formatted type. -/
structure Built (t : MetaType) (super base : Option MetaType) (own : Bounds) : Prop where
  super : store.superType t = super
  base : store.baseFormattedType t = base
  body : store.body t = .formattedType own.min own.max

/-- The ways in which the builder derives a formatted type from a standard one, with the bounds
of the types in between. -/
inductive Derived (standard : Standard) : MetaType → List Bounds → Prop where
  /-- The type of the predefined model.  What it extends has a name. -/
  | predefined {t : MetaType} {super : Option MetaType} (hname : t.name = standard.name)
      (hsuper : ∀ s, super = some s → s.name ≠ [] ∧ s.name ≠ "TYPE".toList)
      (h : store.Built t super none ⟨[], []⟩) : Derived standard t []
  /-- `EXTENDS b = min .. max`. -/
  | range {t b : MetaType} {bounds : List Bounds} {own : Bounds} (hb : Derived standard b bounds)
      (h : store.Built t (some b) none own) : Derived standard t (own :: bounds)
  /-- `EXTENDS b = FORMAT ref min .. max`. -/
  | extendsFormat {t b ref : MetaType} {bounds refBounds : List Bounds} {own : Bounds}
      (hb : Derived standard b bounds) (href : Derived standard ref refBounds)
      (h : store.Built t (some b) (some ref) own) :
      Derived standard t (own :: (bounds ++ refBounds))
  /-- `= FORMAT ref min .. max`, for a domain or within an attribute. -/
  | format {t ref : MetaType} {bounds : List Bounds} {own : Bounds}
      (href : Derived standard ref bounds) (h : store.Built t none (some ref) own) :
      Derived standard t (own :: bounds)
  /-- `(EXTENDED): min .. max` for an attribute whose inherited type is `b`. -/
  | attributeRange {t b : MetaType} {bounds : List Bounds} {own : Bounds}
      (hb : Derived standard b bounds) (h : store.Built t none none own) :
      Derived standard t (own :: bounds)
  /-- A copy of `b`: `EXTENDS b = MANDATORY`, or an attribute of the type `b`, also if that
  is `DATE`, `TIMEOFDAY` or `DATETIME`. -/
  | copy {t b : MetaType} {bounds : List Bounds} {super base : Option MetaType} {own : Bounds}
      (hb : Derived standard b bounds) (hown : store.Built b super base own)
      (h : store.Built t (some b) base own) : Derived standard t bounds
  /-- `(EXTENDED): MANDATORY` for an attribute whose inherited type is `b`. -/
  | attributeMandatory {t b : MetaType} {bounds : List Bounds} {super base : Option MetaType}
      {own : Bounds} (hname : t.name = "TYPE".toList) (hbname : b.name = "TYPE".toList)
      (hb : Derived standard b bounds) (hown : store.Built b super base own)
      (h : store.Built t super base own) : Derived standard t bounds
  /-- `= DATE`, `= TIMEOFDAY` or `= DATETIME` for a domain. -/
  | dateTime {t : MetaType} (h : store.Built t none none ⟨[], []⟩) : Derived standard t []
  /-- The same with `EXTENDS b`. -/
  | extendsDateTime {t b : MetaType} {bounds : List Bounds} (hb : Derived standard b bounds)
      (h : store.Built t (some b) none ⟨[], []⟩) : Derived standard t bounds

/-- The form of the standard type and all the bounds. -/
def Belongs (standard : Standard) (bounds : List Bounds) (value : Text) : Prop :=
  standard.Form value ∧ ∀ own ∈ bounds, own.Contains value

/-- With enough turns, the check accepts the literal exactly if it belongs to the domain. -/
def ValidatedExactly (standard : Standard) (bounds : List Bounds)
    (literal : Option (Expression Factor)) (value : Text) (formatted : Descriptor) : Prop :=
  ∃ fuel₀, ∀ fuel ≥ fuel₀, ∃ check,
    store.validateFormattedLiteral fuel literal formatted = some check ∧
      (check.accepted = true ↔ Belongs standard bounds value)

/-- The name that the type is declared under: its own, or that of the next type above it. -/
def DeclaredUnder (t : MetaType) (name : Text) : Prop :=
  ∃ fuel, store.declaredTypeName fuel t = some name

/-- When the form and the bounds do not fall apart. -/
structure FollowsChain (standard : Standard) (bounds : List Bounds) (t : MetaType)
    (value : Text) : Prop where
  /-- Under the name of the standard type, a literal of its form is within the bounds. -/
  standardName : store.DeclaredUnder t standard.name → standard.Form value →
    ∀ own ∈ bounds, own.Contains value
  /-- Under the name of another standard type, a literal has neither the form of that one, nor
  the proper form within the bounds. -/
  otherStandard : ∀ other, store.DeclaredUnder t other.name → other ≠ standard →
    ¬ other.Form value ∧ ¬ Belongs standard bounds value
  /-- Under a name of its own, a literal within the bounds of the type itself has the form and is
  within the other bounds. -/
  ownName : (∀ other : Standard, ¬ store.DeclaredUnder t other.name) → ∀ own : Bounds,
    store.body t = .formattedType own.min own.max →
      own.Excludes value ∨ Belongs standard bounds value

variable {store}
variable {standard : Standard} {t : MetaType} {bounds : List Bounds}

/-! ## The declared name -/

/-- The turn of the loop for the declared name. -/
def nameTurn (store : FormattedStore) : MetaType → MetaType ⊕ Option Text :=
  seekTurn store.superType fun current =>
    if current.name ≠ [] ∧ current.name ≠ "TYPE".toList then some current.name else none

theorem nameTurn_ends_of_super (h : ∀ s, store.superType t = some s →
    ∃ found, EndsWith store.nameTurn s found) : ∃ found, EndsWith store.nameTurn t found := by
  by_cases hname : t.name ≠ [] ∧ t.name ≠ "TYPE".toList
  · refine ⟨some t.name, (endsWith_of_inr ?_).mpr rfl⟩
    simp only [nameTurn, seekTurn, if_pos hname]
  · cases hsuper : store.superType t with
    | none =>
      refine ⟨none, (endsWith_of_inr ?_).mpr rfl⟩
      simp only [nameTurn, seekTurn, if_neg hname, hsuper]
    | some s =>
      obtain ⟨found, hfound⟩ := h s hsuper
      refine ⟨found, (endsWith_of_inl ?_).mpr hfound⟩
      simp only [nameTurn, seekTurn, if_neg hname, hsuper]

theorem nameTurn_congr {s : MetaType} (hname : t.name = "TYPE".toList)
    (hsname : s.name = "TYPE".toList) (hsuper : store.superType t = store.superType s) :
    store.nameTurn t = store.nameTurn s := by
  simp only [nameTurn, seekTurn, hname, hsname, hsuper]

theorem nameTurn_ends (h : store.Derived standard t bounds) :
    ∃ found, EndsWith store.nameTurn t found := by
  have hno : ∀ {t : MetaType}, store.superType t = none →
      ∃ found, EndsWith store.nameTurn t found := by
    intro t hnone
    refine nameTurn_ends_of_super fun s hs => ?_
    rw [hnone] at hs
    cases hs
  have hone : ∀ {t b : MetaType}, store.superType t = some b →
      (∃ found, EndsWith store.nameTurn b found) → ∃ found, EndsWith store.nameTurn t found := by
    intro t b hb hends
    refine nameTurn_ends_of_super fun s hs => ?_
    rwa [← Option.some.inj (hb.symm.trans hs)]
  induction h with
  | predefined _ hsuper h =>
    refine nameTurn_ends_of_super fun s hs => ⟨some s.name, (endsWith_of_inr ?_).mpr rfl⟩
    simp only [nameTurn, seekTurn, if_pos (hsuper s (h.super.symm.trans hs))]
  | range _ h ih => exact hone h.super ih
  | extendsFormat _ _ h ih _ => exact hone h.super ih
  | format _ h _ => exact hno h.super
  | attributeRange _ h _ => exact hno h.super
  | copy _ _ h ih => exact hone h.super ih
  | attributeMandatory hname hbname _ hown h ih =>
    obtain ⟨found, n, hn⟩ := ih
    have hsame := nameTurn_congr hname hbname (h.super.trans hown.super.symm)
    refine ⟨found, n, ?_⟩
    cases n with
    | zero => cases hn
    | succ n =>
      rw [run] at hn ⊢
      rwa [hsame]
  | dateTime h => exact hno h.super
  | extendsDateTime _ h ih => exact hone h.super ih

/-- After enough turns the declared name is known. -/
theorem exists_declaredTypeName (h : store.Derived standard t bounds) :
    ∃ name fuel₀, ∀ fuel ≥ fuel₀, store.declaredTypeName fuel t = some name := by
  obtain ⟨found, fuel₀, hrun⟩ := nameTurn_ends h
  refine ⟨found.getD [], fuel₀, fun fuel hfuel => ?_⟩
  have hmore : run store.nameTurn fuel t = .inr found := run_mono hrun hfuel
  rw [nameTurn] at hmore
  rw [LiteralStore.declaredTypeName, hmore]
  rfl

theorem DeclaredUnder.unique {name name' : Text} (h : store.DeclaredUnder t name)
    (h' : store.DeclaredUnder t name') : name = name' := by
  obtain ⟨fuel, hfuel⟩ := h
  obtain ⟨fuel', hfuel'⟩ := h'
  rw [LiteralStore.declaredTypeName, Option.map_eq_some_iff] at hfuel hfuel'
  obtain ⟨found, hfound, rfl⟩ := hfuel
  obtain ⟨found', hfound', rfl⟩ := hfuel'
  have hsame := EndsWith.unique ⟨fuel, Sum.getRight?_eq_some_iff.mp hfound⟩
    ⟨fuel', Sum.getRight?_eq_some_iff.mp hfound'⟩
  rw [hsame]

/-! ## The bounds of the type itself -/

theorem Bounds.eq_of_body {own own' : Bounds}
    (h : TypeBody.formattedType own.min own.max = .formattedType own'.min own'.max) :
    own = own' := by
  cases own
  cases own'
  cases h
  rfl

theorem Derived.own (h : store.Derived standard t bounds) :
    ∃ own : Bounds, store.body t = .formattedType own.min own.max ∧
      (own ∈ bounds ∨ own = ⟨[], []⟩) := by
  have hcopied : ∀ {t b : MetaType} {super super' base : Option MetaType} {own : Bounds}
      {bounds : List Bounds}, store.Built b super base own → store.Built t super' base own →
      (∃ own' : Bounds, store.body b = .formattedType own'.min own'.max ∧
        (own' ∈ bounds ∨ own' = ⟨[], []⟩)) →
      ∃ own' : Bounds, store.body t = .formattedType own'.min own'.max ∧
        (own' ∈ bounds ∨ own' = ⟨[], []⟩) := by
    rintro t b super super' base own bounds hown h ⟨own', hbody, hmem⟩
    obtain rfl : own = own' := Bounds.eq_of_body (hown.body.symm.trans hbody)
    exact ⟨own, h.body, hmem⟩
  induction h with
  | predefined _ _ h => exact ⟨_, h.body, .inr rfl⟩
  | range _ h _ => exact ⟨_, h.body, .inl List.mem_cons_self⟩
  | extendsFormat _ _ h _ _ => exact ⟨_, h.body, .inl List.mem_cons_self⟩
  | format _ h _ => exact ⟨_, h.body, .inl List.mem_cons_self⟩
  | attributeRange _ h _ => exact ⟨_, h.body, .inl List.mem_cons_self⟩
  | copy _ hown h ih => exact hcopied hown h ih
  | attributeMandatory _ _ _ hown h ih => exact hcopied hown h ih
  | dateTime h => exact ⟨_, h.body, .inr rfl⟩
  | extendsDateTime _ h _ => exact ⟨_, h.body, .inr rfl⟩

theorem Bounds.not_excludes {own : Bounds} {value : Text}
    (h : own.Contains value ∨ own = ⟨[], []⟩) : ¬ own.Excludes value := by
  rintro (⟨hmin, hlt⟩ | ⟨hmax, hlt⟩)
  · rcases h with h | rfl
    · exact h.1 hlt
    · exact hmin rfl
  · rcases h with h | rfl
    · exact h.2 hlt
    · exact hmax rfl

/-! ## What the check accepts -/

/-- The answer of the check for a type with this declared name and these bounds. -/
def Accepts (name : Text) (own : Bounds) (value : Text) : Prop :=
  (∃ s : Standard, name = s.name ∧ s.Form value) ∨
    (∀ s : Standard, name ≠ s.name) ∧ ¬ own.Excludes value

theorem accepts_standard {s : Standard} {own : Bounds} {value : Text} :
    Accepts s.name own value ↔ s.Form value := by
  constructor
  · rintro (⟨s', hname, hform⟩ | ⟨hnot, -⟩)
    · rwa [Standard.name_inj hname]
    · exact absurd rfl (hnot s)
  · exact fun hform => .inl ⟨s, rfl, hform⟩

theorem accepts_other {name : Text} {own : Bounds} {value : Text}
    (h : ∀ s : Standard, name ≠ s.name) : Accepts name own value ↔ ¬ own.Excludes value := by
  constructor
  · rintro (⟨s, hname, -⟩ | ⟨-, hown⟩)
    · exact absurd hname (h s)
    · exact hown
  · exact fun hown => .inr ⟨h, hown⟩

theorem validateStandardFormattedValue_iff {fuel : ℕ} {name value : Text} {own : Bounds}
    (hname : store.declaredTypeName fuel t = some name) :
    ∃ valid, store.validateStandardFormattedValue fuel t own.min own.max value = some valid ∧
      (valid = true ↔ Accepts name own value) := by
  refine ⟨_, by rw [LiteralStore.validateStandardFormattedValue, hname, Option.map_some], ?_⟩
  split_ifs with hdate htime hdateTime
  · rw [hdate, isXmlDate_iff]
    exact (@accepts_standard .date _ _).symm
  · rw [htime, isXmlTime_iff]
    exact (@accepts_standard .time _ _).symm
  · rw [hdateTime, isXmlDateTime_iff]
    exact (@accepts_standard .dateTime _ _).symm
  · have hnot : ∀ s : Standard, name ≠ s.name := by
      intro s
      cases s
      · exact hdate
      · exact htime
      · exact hdateTime
    rw [accepts_other hnot, Bounds.Excludes]
    simp only [Bool.and_eq_true, Bool.not_eq_true', Bool.and_eq_false_iff, decide_eq_false_iff_not,
      not_or, not_and_or]

theorem validateFormattedLiteral_iff {literal : Option (Expression Factor)} {value : Text}
    {resolved formatted : Descriptor} (hliteral : literalConstant literal = some ⟨value, .text, resolved⟩)
    (hformatted : formatted.declared = some t) {own : Bounds}
    (hbody : store.body t = .formattedType own.min own.max) {fuel : ℕ} {name : Text}
    (hname : store.declaredTypeName fuel t = some name) :
    ∃ check, store.validateFormattedLiteral fuel literal formatted = some check ∧
      (check.accepted = true ↔ Accepts name own value) := by
  obtain ⟨valid, hvalid, hiff⟩ := @validateStandardFormattedValue_iff _ _ _ _ value own hname
  refine ⟨if valid then { accepted := true }
    else { accepted := false, reports := [LiteralStore.formattedReport value] }, ?_, ?_⟩
  · simp only [LiteralStore.validateFormattedLiteral, hliteral, hformatted, Option.map_some, hbody,
      hvalid]
  · rw [← hiff]
    cases valid <;> simp

/-- A literal is validated exactly if the form and the bounds do not fall apart. -/
theorem validatedExactly_iff (h : store.Derived standard t bounds)
    {literal : Option (Expression Factor)} {value : Text} {resolved formatted : Descriptor}
    (hliteral : literalConstant literal = some ⟨value, .text, resolved⟩)
    (hformatted : formatted.declared = some t) :
    store.ValidatedExactly standard bounds literal value formatted ↔
      store.FollowsChain standard bounds t value := by
  obtain ⟨own, hbody, hown⟩ := h.own
  obtain ⟨name, fuel₀, hname⟩ := exists_declaredTypeName h
  have hnamed : store.DeclaredUnder t name := ⟨fuel₀, hname fuel₀ (Nat.le_refl fuel₀)⟩
  have hspec : store.ValidatedExactly standard bounds literal value formatted ↔
      (Accepts name own value ↔ Belongs standard bounds value) := by
    constructor
    · rintro ⟨fuel₁, hexact⟩
      obtain ⟨check, hcheck, hiff⟩ := hexact (max fuel₀ fuel₁) (Nat.le_max_right _ _)
      obtain ⟨check', hcheck', hiff'⟩ := validateFormattedLiteral_iff hliteral hformatted hbody
        (hname (max fuel₀ fuel₁) (Nat.le_max_left _ _))
      obtain rfl : check = check' := Option.some.inj (hcheck.symm.trans hcheck')
      exact hiff'.symm.trans hiff
    · intro hexact
      refine ⟨fuel₀, fun fuel hfuel => ?_⟩
      obtain ⟨check, hcheck, hiff⟩ := validateFormattedLiteral_iff hliteral hformatted hbody
        (hname fuel hfuel)
      exact ⟨check, hcheck, hiff.trans hexact⟩
  rw [hspec]
  constructor
  · intro hexact
    refine ⟨fun hstandard hform => ?_, fun other hother hne => ?_, fun hnone own' hbody' => ?_⟩
    · rw [← hstandard.unique hnamed, accepts_standard] at hexact
      exact (hexact.mp hform).2
    · rw [← hother.unique hnamed, accepts_standard] at hexact
      have hnot : ¬ other.Form value := fun hform =>
        hne (Standard.form_inj hform (hexact.mp hform).1)
      exact ⟨hnot, fun hbelongs => hnot (hexact.mpr hbelongs)⟩
    · obtain rfl : own = own' := Bounds.eq_of_body (hbody.symm.trans hbody')
      rw [accepts_other fun s hs => hnone s (hs ▸ hnamed)] at hexact
      by_cases hexcluded : own.Excludes value
      · exact .inl hexcluded
      · exact .inr (hexact.mp hexcluded)
  · intro hfollows
    by_cases hnot : ∀ s : Standard, name ≠ s.name
    · rw [accepts_other hnot]
      refine ⟨fun hincluded => ?_, fun hbelongs => ?_⟩
      · refine (hfollows.ownName (fun s hs => hnot s (hnamed.unique hs)) own hbody).resolve_left
          hincluded
      · exact Bounds.not_excludes (hown.imp_left (hbelongs.2 own))
    · push Not at hnot
      obtain ⟨s, rfl⟩ := hnot
      rw [accepts_standard]
      by_cases hs : s = standard
      · subst hs
        exact ⟨fun hform => ⟨hform, hfollows.standardName hnamed hform⟩, fun hbelongs => hbelongs.1⟩
      · obtain ⟨hform, hbelongs⟩ := hfollows.otherStandard s hnamed hs
        exact iff_of_false hform hbelongs

theorem isIdentifier_interlis : '.' ∉ "INTERLIS".toList ∧ "INTERLIS".toList ≠ "BASKET".toList := by
  decide

/-- A domain of the predefined model. -/
def domainOf (address : ℕ) (name : Text) : MetaType :=
  ⟨⟨address, name, some (.model ⟨0, ⟨"INTERLIS".toList, isIdentifier_interlis⟩⟩)⟩, .domain, []⟩

def xmlDate : MetaType := domainOf 1 "XMLDate".toList

/-- The domain `Building EXTENDS XMLDate = "2000-01-01" .. "2010-12-31"`. -/
def building : MetaType := domainOf 2 "Building".toList

def decade : Bounds := ⟨"2000-01-01".toList, "2010-12-31".toList⟩

def decadeStore : FormattedStore where
  toLiteralStore :=
    { Operand.bareStore with
      superType := fun t => if t = building then some xmlDate else none
      body := fun t => if t = building then .formattedType decade.min decade.max
        else .formattedType [] [] }
  baseFormattedType _ := none

/-- The literal with this text. -/
def dateLiteral (value : Text) : Option (Expression Factor) :=
  some (.factor (.constant ⟨value, .text, ⟨.text, none⟩⟩) "TextType".toList)

theorem building_derived : decadeStore.Derived .date building [decade] :=
  have hdate : decadeStore.Built xmlDate none none ⟨[], []⟩ := ⟨rfl, rfl, rfl⟩
  .range (.predefined rfl (fun _ h => by cases h) hdate) ⟨rfl, rfl, rfl⟩

theorem validatedExactly_iff_building :
    decadeStore.ValidatedExactly .date [decade] (dateLiteral "1999-12-31".toList)
        "1999-12-31".toList ⟨.formatted, some building⟩ ↔
      decadeStore.FollowsChain .date [decade] building "1999-12-31".toList :=
  validatedExactly_iff building_derived rfl rfl

/-- A text within the bounds is accepted although no month has the number of its month. -/
theorem notADate_accepted :
    decadeStore.Derived .date building [decade] ∧
      (decadeStore.validateFormattedLiteral 1 (dateLiteral "2005-99-99".toList)
        ⟨.formatted, some building⟩).map LiteralCheck.accepted = some true ∧
      ¬ decadeStore.ValidatedExactly .date [decade] (dateLiteral "2005-99-99".toList)
        "2005-99-99".toList ⟨.formatted, some building⟩ := by
  have hname : ∀ fuel ≥ 1, decadeStore.declaredTypeName fuel building = some "Building".toList := by
    intro fuel hfuel
    obtain ⟨n, rfl⟩ := Nat.exists_eq_add_of_le' hfuel
    rfl
  have hform : ¬ Belongs .date [decade] "2005-99-99".toList := by
    rintro ⟨hdate, -⟩
    have hxml : isXmlDate "2005-99-99".toList = true := isXmlDate_iff.mpr hdate
    revert hxml
    decide
  refine ⟨building_derived, by decide, ?_⟩
  rintro ⟨fuel₁, hexact⟩
  obtain ⟨check, hcheck, hiff⟩ := hexact (max 1 fuel₁) (Nat.le_max_right _ _)
  have hliteral : literalConstant (dateLiteral "2005-99-99".toList) =
      some ⟨"2005-99-99".toList, .text, ⟨.text, none⟩⟩ := rfl
  have hdeclared : Expressions.Descriptor.declared ⟨.formatted, some building⟩ = some building := rfl
  have hbody : decadeStore.body building = .formattedType decade.min decade.max := rfl
  obtain ⟨check', hcheck', hiff'⟩ := validateFormattedLiteral_iff hliteral hdeclared hbody
    (hname (max 1 fuel₁) (Nat.le_max_left _ _))
  obtain rfl : check = check' := Option.some.inj (hcheck.symm.trans hcheck')
  refine hform (hiff.mp (hiff'.mpr (.inr ⟨fun s => ?_, ?_⟩)))
  · cases s <;> decide
  · rw [Bounds.Excludes]
    decide

end FormattedStore
end Ilic.Semantics
