import Ilic.MetaModel.Ili2Input
import Ilic.MetaModel.TypeLookup

/-! # What a visit of a type changes

Every visit that makes a type leaves the other kinds of elements alone, and links the new
type to one that was there before.  Only a view can find itself as its base.
-/

namespace Ilic.MetaModel
open MetaModelStore

/-- Nothing but types differs between the two states. -/
structure TypesOnly (b b' : Builder) : Prop where
  context : b'.context = b.context
  models : b'.store.models = b.store.models
  packages : b'.store.packages = b.store.packages
  imports : b'.store.imports = b.store.imports
  units : b'.store.units = b.store.units
  dataUnits : b'.store.dataUnits = b.store.dataUnits
  functions : b'.store.functions = b.store.functions
  lineForms : b'.store.lineForms = b.store.lineForms
  superTopic : b'.store.superTopic = b.store.superTopic
  superUnit : b'.store.superUnit = b.store.superUnit
  superDataUnit : b'.store.superDataUnit = b.store.superDataUnit

theorem TypesOnly.refl (b : Builder) : TypesOnly b b :=
  ⟨rfl, rfl, rfl, rfl, rfl, rfl, rfl, rfl, rfl, rfl, rfl⟩

/-- One new type, with its link. -/
structure Makes (b b' : Builder) (t : MetaType) (super : Option MetaType) : Prop where
  typesOnly : TypesOnly b b'
  address : t.address = b.made
  made : b'.made = b.made + 1
  superType : b'.store.superType = Function.update b.store.superType t super
  types : b'.store.types = b.store.types ∨ b'.store.types = b.store.types ++ [t]
  typesMade : b'.typesMade = b.typesMade ++ [t]
  views : b'.views = b.views ∨ b'.views = b.views ++ [t]

theorem Builder.make_makes (b : Builder) {t : MetaType} (super : Option MetaType)
    (ht : t.address = b.made) : Makes b (b.make t super) t super where
  typesOnly := ⟨rfl, rfl, rfl, rfl, rfl, rfl, rfl, rfl, rfl, rfl, rfl⟩
  address := ht
  made := rfl
  superType := rfl
  types := Or.inl rfl
  typesMade := rfl
  views := Or.inl rfl

theorem Builder.declare_makes (b : Builder) {t : MetaType} (super : Option MetaType)
    (ht : t.address = b.made) : Makes b (b.declare t super) t super := by
  by_cases h : (∃ tt ∈ (b.make t super).store.types, tt.getPath = t.getPath) ∧
      t.name ≠ "???".toList
  · have hstore : (b.make t super).store.addType t = (b.make t super).store := if_pos h
    rw [Builder.declare, hstore]
    exact b.make_makes super ht
  · have hstore : (b.make t super).store.addType t =
        { (b.make t super).store with types := (b.make t super).store.types ++ [t] } := if_neg h
    rw [Builder.declare, hstore]
    have hsame := (b.make_makes super ht).typesOnly
    exact ⟨{ hsame with }, ht, rfl, rfl, Or.inr rfl, rfl, Or.inl rfl⟩

/-! ## What the look-ups of types give -/

theorem MetaModelStore.mem_of_findType {store : MetaModelStore} {fuel : ℕ} {ctx : Package}
    {name : Text} {line : ℤ} {error : Bool} {q : Lookup MetaType} {t : MetaType}
    (h : store.findType fuel ctx name line error = some q) (ht : q.found = some t) :
    t ∈ store.types ∧ store.Compared ctx (searchName name) t.getPath := by
  obtain ⟨-, -, ⟨u, hu, hcompared, hfound⟩ | ⟨-, hnone⟩⟩ := findType_spec h
  · cases ht.symm.trans hfound
    exact ⟨hu, hcompared⟩
  · cases ht.symm.trans hnone

theorem MetaModelStore.mem_of_findKind {store : MetaModelStore} {kinds : List TypeKind}
    {fuel : ℕ} {ctx : Package} {name : Text} {line : ℤ} {t : MetaType}
    (h : store.findKind kinds fuel ctx name line = some (some t)) :
    t ∈ store.types ∧ store.Compared ctx (searchName name) t.getPath ∧ t.kind ∈ kinds := by
  obtain ⟨q, hfind, hq⟩ := Option.map_eq_some_iff.mp h
  obtain ⟨hfound, hkind⟩ := Option.filter_eq_some_iff.mp hq
  obtain ⟨hmem, hcompared⟩ := mem_of_findType hfind hfound
  exact ⟨hmem, hcompared, of_decide_eq_true hkind⟩

/-- The visits that at most make a type, views apart. -/
def Ili1Visit.ofType : Ili1Visit → Bool
  | .modelDef _ | .topicDef _ => false
  | _ => true

def Visit.ofType : Visit → Bool
  | .functionCall _ | .unitReference _ | .topicReference _ | .classDef .. | .structureDef ..
  | .associationDef .. | .domainDef .. | .attributePath _ | .attributeType _
  | .viewAttribute _ => true
  | .ili1 v => v.ofType
  | _ => false

namespace Builder
variable {b b' : Builder} {fuel : ℕ}

/-- Every base that a class can have stands in the store before the class does. -/
theorem mem_of_classBaseOf {find : Text → Option (Option MetaType)} {ctx : Package}
    {name : Text} {extended : Bool} {base : Option Text} {s : MetaType}
    (hfind : ∀ path t, find path = some (some t) → t ∈ b.store.types)
    (h : b.classBaseOf find ctx name extended base = some (some s)) : s ∈ b.store.types := by
  obtain ⟨super, htopic, hbase⟩ := Option.bind_eq_some_iff.mp h
  cases base with
  | some path => exact hfind path s hbase
  | none =>
    cases hbase
    split_ifs at htopic
    · obtain ⟨allowed, -, hallowed⟩ := Option.bind_eq_some_iff.mp htopic
      split_ifs at hallowed
      · exact hfind name s hallowed
      · cases hallowed
    · cases htopic

/-- The effect of a visit that makes a type from what is already there. -/
def MakesLinked (b b' : Builder) : Prop :=
  b' = b ∨ ∃ t super, Makes b b' t super ∧
    ∀ s, super = some s → s ∈ b.store.types ∨ s ∈ b.typesMade

theorem visitClass_makes {kind : TypeKind} {name : Text} {extended : Bool} {base : Option Text}
    {find : MetaModelStore → ℕ → Package → Text → ℤ → Option (Option MetaType)}
    (hfind : ∀ ctx path t, find b.store fuel ctx path 0 = some (some t) → t ∈ b.store.types)
    (h : b.visitClass fuel kind find name extended base = some b') : MakesLinked b b' := by
  unfold visitClass at h
  split at h
  · cases h
  · rename_i ctx rest hcontext
    obtain ⟨super, hbase, rfl⟩ := Option.map_eq_some_iff.mp h
    refine Or.inr ⟨_, super, b.declare_makes super rfl, ?_⟩
    rintro s rfl
    exact Or.inl (mem_of_classBaseOf (fun path t => hfind ctx path t) hbase)

theorem visitAssociationDef_makes {name : Option Identifier} {extended : Bool}
    {base : Option Text} (h : b.visitAssociationDef fuel name extended base = some b') :
    MakesLinked b b' := by
  unfold visitAssociationDef at h
  split at h
  · cases h
  · rename_i ctx rest hcontext
    obtain ⟨super, hbase, rfl⟩ := Option.map_eq_some_iff.mp h
    refine Or.inr ⟨_, super, b.declare_makes super rfl, ?_⟩
    rintro s rfl
    exact Or.inl (mem_of_classBaseOf (fun path t ht => (mem_of_findKind ht).1) hbase)

theorem visitDomainType_makes {name : Identifier} {baseDomain : Option Text}
    {type : DomainType} (h : b.visitDomainType fuel name baseDomain type = some b') :
    MakesLinked b b' := by
  unfold visitDomainType at h
  split at h
  · cases h
  · rename_i ctx rest hcontext
    obtain ⟨base, hbase, htype⟩ := Option.bind_eq_some_iff.mp h
    have hmem : ∀ s, base = some s → s ∈ b.store.types := by
      rintro s rfl
      cases baseDomain with
      | none => cases hbase
      | some path =>
        obtain ⟨q, hfind, hq⟩ := Option.map_eq_some_iff.mp hbase
        exact (mem_of_findType hfind hq).1
    cases type with
    | own =>
      cases htype
      exact Or.inr ⟨_, base, b.declare_makes base rfl, fun s hs => Or.inl (hmem s hs)⟩
    | predefined path =>
      obtain ⟨q, hfind, hq⟩ := Option.bind_eq_some_iff.mp htype
      obtain ⟨t, ht, rfl⟩ := Option.map_eq_some_iff.mp hq
      split_ifs
      · exact Or.inr ⟨_, base, b.declare_makes base rfl, fun s hs => Or.inl (hmem s hs)⟩
      · refine Or.inr ⟨_, some t, b.make_makes (some t) rfl, ?_⟩
        rintro s ⟨⟩
        exact Or.inl (mem_of_findType hfind ht).1
    | mandatory =>
      obtain ⟨t, hbaset, ht⟩ := Option.bind_eq_some_iff.mp htype
      subst hbaset
      split_ifs at ht
      cases ht
      exact Or.inr ⟨_, some t, b.declare_makes (some t) rfl, fun s hs => Or.inl (hmem s hs)⟩

theorem visitAttributePath_makes {path : Text} (h : b.visitAttributePath fuel path = some b') :
    MakesLinked b b' := by
  unfold visitAttributePath at h
  split at h
  · cases h
  · rename_i ctx rest hcontext
    obtain ⟨q, hfind, rfl⟩ := Option.map_eq_some_iff.mp h
    cases ht : q.found with
    | none => exact Or.inl rfl
    | some t =>
      simp only
      split_ifs
      · refine Or.inr ⟨_, some t, b.make_makes (some t) rfl, ?_⟩
        rintro s ⟨⟩
        exact Or.inl (mem_of_findType hfind ht).1
      · exact Or.inr ⟨_, none, b.make_makes none rfl, nofun⟩

theorem visitAttributeType_makes {type : Option Text}
    (h : b.visitAttributeType fuel type = some b') : MakesLinked b b' := by
  unfold visitAttributeType at h
  split at h
  · cases h
  · cases h
    exact Or.inr ⟨_, none, b.make_makes none rfl, nofun⟩
  · obtain ⟨q, hfind, hq⟩ := Option.bind_eq_some_iff.mp h
    obtain ⟨t, ht, rfl⟩ := Option.map_eq_some_iff.mp hq
    refine Or.inr ⟨_, some t, b.make_makes (some t) rfl, ?_⟩
    rintro s ⟨⟩
    exact Or.inl (mem_of_findType hfind ht).1

theorem visitViewAttribute_makes {source : ℕ} (h : b.visitViewAttribute source = some b') :
    MakesLinked b b' := by
  obtain ⟨t, ht, rfl⟩ := Option.map_eq_some_iff.mp h
  refine Or.inr ⟨_, some t, b.make_makes (some t) rfl, ?_⟩
  rintro s ⟨⟩
  exact Or.inr (List.mem_of_getElem? ht)

/-! ### Types of INTERLIS 1 -/

/-- A type found from any scope stands in the store. -/
theorem mem_of_findIn {name : Text} {t : MetaType} (h : b.findIn fuel name = some (some t)) :
    t ∈ b.store.types := by
  unfold findIn at h
  split at h
  · obtain ⟨q, hfind, hq⟩ := Option.map_eq_some_iff.mp h
    exact (mem_of_findType hfind hq).1
  · obtain ⟨candidates, -, hlast⟩ := Option.map_eq_some_iff.mp h
    exact (List.mem_filter.mp (List.mem_of_getLast? hlast)).1
  · split_ifs at h
    cases h

theorem visitType_spec {type : Ili1Type} {t : MetaType} {base : Option MetaType}
    (h : b.visitType fuel type = some (some (t, base))) :
    t.address = b.made ∧ ∀ s, base = some s → s ∈ b.store.types := by
  cases type with
  | own =>
    cases h
    exact ⟨rfl, nofun⟩
  | name name =>
    obtain ⟨found, hfind, hmap⟩ := Option.map_eq_some_iff.mp h
    obtain ⟨s, rfl, hs⟩ := Option.map_eq_some_iff.mp hmap
    cases hs
    refine ⟨rfl, ?_⟩
    rintro s ⟨⟩
    exact mem_of_findIn hfind
  | predefined path =>
    obtain ⟨found, hfind, hmap⟩ := Option.bind_eq_some_iff.mp h
    obtain ⟨s, rfl, hs⟩ := Option.map_eq_some_iff.mp hmap
    cases hs
    refine ⟨rfl, ?_⟩
    rintro s ⟨⟩
    exact mem_of_findIn hfind

theorem visitTableDef_makes {name : Identifier} (h : b.visitTableDef name = some b') :
    MakesLinked b b' := by
  obtain ⟨scope, -, rfl⟩ := Option.map_eq_some_iff.mp h
  exact Or.inr ⟨_, none, b.declare_makes none (scope.place_address _), nofun⟩

theorem visitDomainDef_makes {name : Identifier} {type : Ili1Type}
    (h : b.visitDomainDef fuel name type = some b') : MakesLinked b b' := by
  obtain ⟨found, htype, hresult⟩ := Option.map_eq_some_iff.mp h
  cases found with
  | none => exact Or.inl hresult.symm
  | some made =>
    obtain ⟨haddress, hbase⟩ := visitType_spec htype
    subst hresult
    refine Or.inr ⟨_, made.2, b.declare_makes made.2 ?_, fun s hs => Or.inl (hbase s hs)⟩
    rw [Ili1Scope.place_address]
    exact haddress

theorem visitAttribute_makes {type : Ili1Type} (h : b.visitAttribute fuel type = some b') :
    MakesLinked b b' := by
  obtain ⟨scope, -, hattribute⟩ := Option.bind_eq_some_iff.mp h
  obtain ⟨found, htype, hresult⟩ := Option.map_eq_some_iff.mp hattribute
  cases found with
  | none => exact Or.inl hresult.symm
  | some made =>
    obtain ⟨haddress, hbase⟩ := visitType_spec htype
    subst hresult
    exact Or.inr ⟨_, made.2, b.make_makes made.2 haddress, fun s hs => Or.inl (hbase s hs)⟩

theorem visitControlPoints_makes {name : Text} (h : b.visitControlPoints name = some b') :
    MakesLinked b b' := by
  unfold visitControlPoints at h
  split at h
  · cases h
  · cases h
    exact Or.inr ⟨_, none, b.make_makes none (Ili1Scope.place_address _ _), nofun⟩

theorem visitLineAttributes_makes {name : Text} (h : b.visitLineAttributes name = some b') :
    MakesLinked b b' := by
  obtain ⟨scope, -, hresult⟩ := Option.map_eq_some_iff.mp h
  have hmakes := b.make_makes
    (t := scope.place (b.newType none (withoutPrefix name) .structureVal [])) none
    (scope.place_address _)
  simp only at hresult
  split_ifs at hresult
  · subst hresult
    exact Or.inr ⟨_, none, hmakes, nofun⟩
  · subst hresult
    have hsame := hmakes.typesOnly
    exact Or.inr ⟨_, none, ⟨{ hsame with }, hmakes.address, rfl, rfl, Or.inr rfl, rfl,
      Or.inl rfl⟩, nofun⟩

theorem visitIli1TopicDef_store {name : Identifier} (h : b.visitIli1TopicDef name = some b') :
    b'.store = b.store := by
  unfold visitIli1TopicDef at h
  split at h <;> cases h <;> rfl

theorem visitIli1_makesLinked {v : Ili1Visit} (hv : v.ofType = true)
    (h : b.visitIli1 fuel v = some b') : MakesLinked b b' := by
  cases v with
  | tableDef name => exact visitTableDef_makes h
  | domainDef name type => exact visitDomainDef_makes h
  | attributeDef type => exact visitAttribute_makes h
  | controlPoints name => exact visitControlPoints_makes h
  | lineAttributes name => exact visitLineAttributes_makes h
  | _ => cases hv

theorem visit_makesLinked {v : Visit} (hv : v.ofType = true) (h : b.visit fuel v = some b') :
    MakesLinked b b' := by
  cases v with
  | functionCall name => exact Or.inl (Option.some.inj h).symm
  | unitReference name => exact Or.inl (Option.some.inj h).symm
  | topicReference name => exact Or.inl (Option.some.inj h).symm
  | classDef name extended base =>
    exact visitClass_makes (fun ctx path t ht => (mem_of_findKind ht).1) h
  | structureDef name extended base =>
    exact visitClass_makes (fun ctx path t ht => (mem_of_findKind ht).1) h
  | associationDef name extended base => exact visitAssociationDef_makes h
  | domainDef name baseDomain type => exact visitDomainType_makes h
  | attributePath path => exact visitAttributePath_makes h
  | attributeType type => exact visitAttributeType_makes h
  | viewAttribute source => exact visitViewAttribute_makes h
  | ili1 v => exact visitIli1_makesLinked hv h
  | _ => cases hv

theorem MakesLinked.typesOnly (h : MakesLinked b b') : TypesOnly b b' := by
  rcases h with rfl | ⟨t, super, hmakes, -⟩
  · exact .refl _
  · exact hmakes.typesOnly

theorem MakesLinked.made_le (h : MakesLinked b b') : b.made ≤ b'.made := by
  rcases h with rfl | ⟨t, super, hmakes, -⟩
  · exact Nat.le_refl _
  · rw [hmakes.made]
    exact Nat.le_succ _

/-- A view is linked to a view of the base topic, or to what its heading names in a store
that holds the view itself. -/
theorem visitViewDef_makes {name : Identifier} {extended : Bool} {viewRef : Option Text}
    (h : b.visitViewDef fuel name extended viewRef = some b') :
    ∃ ctx rest super, b.context = ctx :: rest ∧ Makes b b' (b.newView ctx name) super ∧
      (viewRef = none → super = if extended then
        (b.enterView (b.newView ctx name)).baseView ctx name else none) ∧
      ∀ path, viewRef = some path →
        (b.enterView (b.newView ctx name)).store.findView fuel ctx path 0 = some super := by
  unfold visitViewDef at h
  split at h
  · cases h
  · rename_i ctx rest hcontext
    have hmakes : ∀ super, Makes b ((b.enterView (b.newView ctx name)).link
        (b.newView ctx name) super) (b.newView ctx name) super := by
      intro super
      have hdeclare := b.declare_makes (t := b.newView ctx name) none rfl
      have hsame := hdeclare.typesOnly
      refine ⟨{ hsame with }, rfl, hdeclare.made, ?_, hdeclare.types, hdeclare.typesMade,
        Or.inr rfl⟩
      simp only [link, enterView, hdeclare.superType, Function.update_idem]
    cases viewRef with
    | none =>
      cases h
      exact ⟨ctx, rest, _, hcontext, hmakes _, fun _ => rfl, nofun⟩
    | some path =>
      obtain ⟨super, hfind, rfl⟩ := Option.map_eq_some_iff.mp h
      refine ⟨ctx, rest, super, hcontext, hmakes super, nofun, ?_⟩
      intro path' hpath
      cases hpath
      exact hfind

end Builder
end Ilic.MetaModel
