import Ilic.Foundation.Runs
import Ilic.MetaModel.DeclaredNames

/-! # Qualified names find their declarations

A function or a line form is lost when an earlier one has its simple name, a reference by a
qualified name renames a line form, and a topic of INTERLIS 1 is never stored; apart from
these, every declaration is found under its path, whatever model is current.
-/

namespace Ilic.MetaModel
open Foundation MetaModelStore

variable {t t' : Tracked}

/-! ## What a visit keeps -/

theorem tracks_iff {v : Visit} : Tracks t v t' ↔
    (∃ fuel, t.builder.visit fuel v = some t'.builder) ∧
      t'.declared = t.declared ++ declaration t.builder v ∧
      DistinctPaths t'.declared := by
  constructor
  · rintro ⟨fuel, h⟩
    obtain ⟨b, hvisit, hrest⟩ := Option.bind_eq_some_iff.mp h
    simp only at hrest
    split_ifs at hrest with hdistinct
    cases hrest
    exact ⟨⟨fuel, hvisit⟩, rfl, hdistinct⟩
  · rintro ⟨⟨fuel, hvisit⟩, hdeclared, hdistinct⟩
    rw [hdeclared] at hdistinct
    exact ⟨fuel, by rw [track, hvisit, Option.bind_some, if_pos hdistinct, ← hdeclared]⟩

theorem Kept.unchanged (h : Kept t) (hdeclared : t'.declared = t.declared)
    (hfunctions : t'.builder.store.functions = t.builder.store.functions)
    (hlineForms : t'.builder.store.lineForms = t.builder.store.lineForms)
    (hunits : t'.builder.store.units = t.builder.store.units)
    (hpackages : t'.builder.store.packages = t.builder.store.packages ∨
      ∃ m : Model, t'.builder.store.packages = t.builder.store.packages ++ [.model m] ∧
        m.address < t'.builder.made)
    (hmade : t.builder.made ≤ t'.builder.made) : Kept t' where
  functions := by rw [hfunctions, hdeclared, h.functions]
  lineForms := by rw [hlineForms, hdeclared, h.lineForms]
  units := by rw [hunits, hdeclared, h.units]
  topics s := by
    rw [hdeclared, ← h.topics]
    rcases hpackages with hsame | ⟨m, hadded, -⟩
    · rw [hsame]
    · simp [hadded]
  packages p hp := by
    rcases hpackages with hsame | ⟨m, hadded, hm⟩
    · exact (h.packages p (hsame ▸ hp)).trans_le hmade
    · rcases List.mem_append.mp (hadded ▸ hp) with hp | hp
      · exact (h.packages p hp).trans_le hmade
      · rw [List.mem_singleton.mp hp]
        exact hm
  named := hdeclared ▸ h.named
  addresses := hlineForms ▸ h.addresses
  made f hf := (h.made f (hlineForms ▸ hf)).trans_le hmade
  distinct := hdeclared ▸ h.distinct

theorem Kept.of_typesOnly (h : Kept t) (hdeclared : t'.declared = t.declared)
    (hsame : TypesOnly t.builder t'.builder) (hmade : t.builder.made ≤ t'.builder.made) :
    Kept t' :=
  h.unchanged hdeclared hsame.functions hsame.lineForms hsame.units (Or.inl hsame.packages) hmade

/-- The path of a new declaration is that of no other. -/
theorem getPath_ne_of_distinct {declared : List Declared} {d e : Declared}
    (h : DistinctPaths (declared ++ [d])) (he : e ∈ declared) : e.getPath ≠ d.getPath := by
  rw [DistinctPaths, List.map_append, List.map_singleton, List.nodup_append] at h
  exact h.2.2 _ (List.mem_map_of_mem he) _ (List.mem_singleton_self _)

/-! ### New elements -/

theorem Kept.add_topic (h : Kept t) {s : SubModel}
    (hdeclared : t'.declared = t.declared ++ [.topic s]) (hdistinct : DistinctPaths t'.declared)
    (hpackages : t'.builder.store.packages = (t.builder.store.addPackage (.subModel s)).packages)
    (hfunctions : t'.builder.store.functions = t.builder.store.functions)
    (hlineForms : t'.builder.store.lineForms = t.builder.store.lineForms)
    (hunits : t'.builder.store.units = t.builder.store.units)
    (haddress : s.address < t'.builder.made)
    (hmade : t.builder.made ≤ t'.builder.made) : Kept t' := by
  have hnew : ¬ ∃ p ∈ t.builder.store.packages, p.getPath = (Package.subModel s).getPath := by
    rintro ⟨p, hp, hpath⟩
    cases p with
    | model m => exact Package.getPath_model_ne m s.dot_mem_getPath hpath
    | subModel s' =>
      exact getPath_ne_of_distinct (d := .topic s) (hdeclared ▸ hdistinct)
        ((h.topics s').mp hp) hpath
  have hstored : t'.builder.store.packages = t.builder.store.packages ++ [.subModel s] := by
    rw [hpackages, addPackage, if_neg hnew]
  exact {
    functions := by simp [hfunctions, hdeclared, h.functions, Declared.function?]
    lineForms := by simp [hlineForms, hdeclared, h.lineForms, Declared.lineForm?]
    units := by simp [hunits, hdeclared, h.units, Declared.unit?]
    topics := by simp [hstored, hdeclared, h.topics]
    packages := by
      rw [hstored]
      refine List.forall_mem_append.mpr ⟨fun p hp => (h.packages p hp).trans_le hmade, ?_⟩
      exact List.forall_mem_singleton.mpr haddress
    named := by
      rw [hdeclared]
      exact List.forall_mem_append.mpr ⟨h.named, by simp [Declared.Named]⟩
    addresses := hlineForms ▸ h.addresses
    made := fun f hf => (h.made f (hlineForms ▸ hf)).trans_le hmade
    distinct := hdistinct }

theorem Kept.add_unit (h : Kept t) {u : MetaUnit}
    (hdeclared : t'.declared = t.declared ++ [.unit u]) (hdistinct : DistinctPaths t'.declared)
    (hunits : t'.builder.store.units = (t.builder.store.addUnit u).units)
    (hpackages : t'.builder.store.packages = t.builder.store.packages)
    (hfunctions : t'.builder.store.functions = t.builder.store.functions)
    (hlineForms : t'.builder.store.lineForms = t.builder.store.lineForms)
    (hmade : t.builder.made ≤ t'.builder.made) : Kept t' := by
  have hnew : ¬ ∃ uu ∈ t.builder.store.units, uu.getPath = u.getPath := by
    rintro ⟨uu, huu, hpath⟩
    exact getPath_ne_of_distinct (d := .unit u) (hdeclared ▸ hdistinct)
      (h.mem_units.mp huu) hpath
  have hstored : t'.builder.store.units = t.builder.store.units ++ [u] := by
    rw [hunits, addUnit, if_neg hnew]
  exact {
    functions := by simp [hfunctions, hdeclared, h.functions, Declared.function?]
    lineForms := by simp [hlineForms, hdeclared, h.lineForms, Declared.lineForm?]
    units := by simp [hstored, hdeclared, h.units, Declared.unit?]
    topics := by simp [hpackages, hdeclared, h.topics]
    packages := fun p hp => (h.packages p (hpackages ▸ hp)).trans_le hmade
    named := by
      rw [hdeclared]
      exact List.forall_mem_append.mpr ⟨h.named, by simp [Declared.Named]⟩
    addresses := hlineForms ▸ h.addresses
    made := fun f hf => (h.made f (hlineForms ▸ hf)).trans_le hmade
    distinct := hdistinct }

theorem Kept.add_function (h : Kept t) {f : FunctionDef}
    (hdeclared : t'.declared = t.declared ++ [.function f])
    (hdistinct : DistinctPaths t'.declared) (hnamed : (Declared.function f).Named)
    (hnew : ∀ g, .function g ∈ t.declared → g.name ≠ f.name)
    (hstore : t'.builder.store = t.builder.store.addFunction f)
    (hmade : t.builder.made ≤ t'.builder.made) : Kept t' := by
  have hnone : ¬ ∃ g ∈ t.builder.store.functions, g.name = f.name := by
    rintro ⟨g, hg, hname⟩
    exact hnew g (h.mem_functions.mp hg) hname
  rw [addFunction, if_neg hnone] at hstore
  exact {
    functions := by simp [hstore, hdeclared, h.functions, Declared.function?]
    lineForms := by simp [hstore, hdeclared, h.lineForms, Declared.lineForm?]
    units := by simp [hstore, hdeclared, h.units, Declared.unit?]
    topics := by simp [hstore, hdeclared, h.topics]
    packages := by
      rw [hstore]
      exact fun p hp => (h.packages p hp).trans_le hmade
    named := by
      rw [hdeclared]
      exact List.forall_mem_append.mpr ⟨h.named, by simpa using hnamed⟩
    addresses := by
      rw [hstore]
      exact h.addresses
    made := by
      rw [hstore]
      exact fun g hg => (h.made g hg).trans_le hmade
    distinct := hdistinct }

theorem Kept.add_lineForm (h : Kept t) {f : LineForm}
    (hdeclared : t'.declared = t.declared ++ [.lineForm f])
    (hdistinct : DistinctPaths t'.declared) (hnamed : (Declared.lineForm f).Named)
    (hnew : ∀ g, .lineForm g ∈ t.declared → g.name ≠ f.name)
    (hstore : t'.builder.store = t.builder.store.addLineForm f)
    (haddress : f.address = t.builder.made) (hmade : t'.builder.made = t.builder.made + 1) :
    Kept t' := by
  have hnone : ¬ ∃ g ∈ t.builder.store.lineForms, g.name = f.name := by
    rintro ⟨g, hg, hname⟩
    exact hnew g (h.mem_lineForms.mp hg) hname
  rw [addLineForm, if_neg hnone] at hstore
  exact {
    functions := by simp [hstore, hdeclared, h.functions, Declared.function?]
    lineForms := by simp [hstore, hdeclared, h.lineForms, Declared.lineForm?]
    units := by simp [hstore, hdeclared, h.units, Declared.unit?]
    topics := by simp [hstore, hdeclared, h.topics]
    packages := by
      rw [hstore]
      exact fun p hp => (h.packages p hp).trans_le (hmade ▸ Nat.le_succ _)
    named := by
      rw [hdeclared]
      exact List.forall_mem_append.mpr ⟨h.named, by simpa using hnamed⟩
    addresses := by
      rw [hstore]
      rw [List.map_append, List.map_singleton, List.nodup_append]
      refine ⟨h.addresses, List.nodup_singleton _, ?_⟩
      intro a ha c hc
      obtain ⟨g, hg, rfl⟩ := List.mem_map.mp ha
      rw [List.mem_singleton.mp hc, haddress]
      exact (h.made g hg).ne
    made := by
      intro g hg
      rw [hstore] at hg
      rcases List.mem_append.mp hg with hg | hg
      · rw [hmade]
        exact (h.made g hg).trans (Nat.lt_succ_self _)
      · rw [List.mem_singleton.mp hg, haddress, hmade]
        exact Nat.lt_succ_self _
    distinct := hdistinct }

/-- A reference by the simple name writes the name that the line form has. -/
theorem Kept.renameLineForm (h : Kept t) {f : LineForm} {name : Text} (hdot : '.' ∉ name)
    (hfind : t.builder.store.findLineForm name = some f) :
    t.builder.store.renameLineForm f name = t.builder.store := by
  have hmem := List.mem_of_find?_eq_some hfind
  have hnamed := h.named _ (h.mem_lineForms.mp hmem)
  have hnames : namesElement name f.toElement = true :=
    List.find?_some (p := fun f : LineForm => namesElement name f.toElement) hfind
  have hname : f.name = name := by
    rcases (namesElement_iff hnamed.2).mp hnames with hpath | hname
    · exact absurd (hpath ▸ dot_mem_getPath hnamed.2) hdot
    · exact hname
  have hsame : ∀ g ∈ t.builder.store.lineForms,
      (if g.address = f.address then { g with name } else g) = g := by
    intro g hg
    split_ifs with haddress
    · have hgf : g = f := List.inj_on_of_nodup_map h.addresses hg hmem haddress
      rw [hgf, ← hname]
    · rfl
  rw [MetaModelStore.renameLineForm, List.map_congr_left hsame, List.map_id']

/-! ### Models of INTERLIS 1 -/

/-- The copies of the predefined units are declared one after the other. -/
theorem Kept.copyUnits {m : Model} {names : List Text} {b b' : Builder}
    {declared : List Declared} (h : Kept ⟨b, declared⟩)
    (hcopy : names.foldlM (fun b name => b.copyUnit m name) b = some b')
    (hdistinct : DistinctPaths (declared ++ copiedUnits m b names)) :
    Kept ⟨b', declared ++ copiedUnits m b names⟩ := by
  induction names generalizing b declared with
  | nil =>
    cases hcopy
    simpa [copiedUnits] using h
  | cons name names ih =>
    rw [List.foldlM_cons] at hcopy
    obtain ⟨b₁, hfirst, hrest⟩ := Option.bind_eq_some_iff.mp hcopy
    obtain ⟨u, hu, hb₁⟩ := Option.map_eq_some_iff.mp hfirst
    have hcopied : copiedUnits m b (name :: names) =
        .unit (b.newUnitOf m u) :: copiedUnits m b₁ names := by
      rw [copiedUnits, hu, hfirst]
    rw [hcopied, List.append_cons] at hdistinct ⊢
    refine ih ?_ hrest hdistinct
    have hone : DistinctPaths (declared ++ [.unit (b.newUnitOf m u)]) := by
      rw [DistinctPaths, List.map_append] at hdistinct
      exact (List.nodup_append.mp hdistinct).1
    obtain ⟨units, hunits, -⟩ := addUnit_eq b.store (b.newUnitOf m u)
    subst hb₁
    simp only [hunits]
    refine h.add_unit rfl hone ?_ rfl rfl rfl (Nat.le_succ _)
    rw [hunits]

theorem Kept.ili1ModelDef (h : Kept t) {name : Identifier}
    (hvisit : t.builder.visitIli1ModelDef name = some t'.builder)
    (hdeclared : t'.declared = t.declared ++ declaration t.builder (.ili1 (.modelDef name)))
    (hdistinct : DistinctPaths t'.declared) : Kept t' := by
  obtain ⟨b', declared'⟩ := t'
  simp only at hvisit hdeclared hdistinct
  unfold Builder.visitIli1ModelDef at hvisit
  split at hvisit
  · subst hdeclared
    refine Kept.copyUnits ?_ hvisit hdistinct
    obtain ⟨models, hmodels⟩ := addModel_eq t.builder.store ⟨t.builder.made, name⟩
    rw [Builder.enterIli1Model, hmodels]
    exact h.unchanged rfl rfl rfl rfl (Or.inl rfl) (Nat.le_succ _)
  · cases hvisit

/-! ### Every visit -/

theorem declaration_of_ofType {b : Builder} {v : Visit} (h : v.ofType = true) :
    declaration b v = [] := by
  cases v with
  | ili1 v => cases v <;> first | rfl | cases h
  | _ => first | rfl | cases h

theorem Kept.visit (h : Kept t) {v : Visit} (hstep : Tracks t v t') (hapart : NamesApart t v) :
    Kept t' := by
  obtain ⟨⟨fuel, hvisit⟩, hdeclared, hdistinct⟩ := tracks_iff.mp hstep
  by_cases htype : v.ofType = true
  · have hmakes := Builder.visit_makesLinked htype hvisit
    rw [declaration_of_ofType htype, List.append_nil] at hdeclared
    exact h.of_typesOnly hdeclared hmakes.typesOnly hmakes.made_le
  obtain ⟨b', declared'⟩ := t'
  simp only at hvisit hdeclared hdistinct
  cases v with
  | modelDef name =>
    rw [Builder.visit, Builder.visitModelDef] at hvisit
    split at hvisit
    · cases hvisit
      obtain ⟨models, hmodels⟩ := addModel_eq t.builder.store
        ⟨t.builder.made, Builder.modelName name⟩
      obtain ⟨packages, hpackages, hcases⟩ := addPackage_eq
        { t.builder.store with models } (.model ⟨t.builder.made, Builder.modelName name⟩)
      rw [hmodels, hpackages]
      refine h.unchanged (by simpa [declaration] using hdeclared) rfl rfl rfl ?_ (Nat.le_succ _)
      exact hcases.imp id fun hadded => ⟨_, hadded, Nat.lt_succ_self _⟩
    · cases hvisit
  | importing name unqualified =>
    rw [Builder.visit, Builder.visitImporting] at hvisit
    split at hvisit
    · cases hvisit
      exact h.unchanged (by simpa [declaration] using hdeclared) rfl rfl rfl (Or.inl rfl)
        (Nat.le_refl _)
    · cases hvisit
  | endPackage =>
    rw [Builder.visit, Builder.closePackage] at hvisit
    split at hvisit <;> cases hvisit <;>
      exact h.unchanged (by simpa [declaration] using hdeclared) rfl rfl rfl (Or.inl rfl)
        (Nat.le_refl _)
  | topicDef name topicBase =>
    rw [Builder.visit, Builder.visitTopicDef] at hvisit
    split at hvisit
    · rename_i m hcontext
      have htopic : declared' = t.declared ++ [.topic (t.builder.newTopic m name)] := by
        rw [hdeclared, declaration, hcontext]
      obtain ⟨packages, hpackages, -⟩ := addPackage_eq t.builder.store
        (.subModel (t.builder.newTopic m name))
      cases topicBase with
      | none =>
        cases hvisit
        rw [hpackages]
        refine h.add_topic htopic hdistinct ?_ rfl rfl rfl (Nat.lt_add_of_pos_right (by decide))
          (Nat.le_add_right _ 2)
        rw [hpackages]
        rfl
      | some base =>
        obtain ⟨ss, -, rfl⟩ := Option.map_eq_some_iff.mp hvisit
        rw [hpackages]
        refine h.add_topic htopic hdistinct ?_ rfl rfl rfl (Nat.lt_add_of_pos_right (by decide))
          (Nat.le_add_right _ 2)
        rw [hpackages]
        rfl
    · cases hvisit
  | unitDef name unitShort super unitRef =>
    rw [Builder.visit, Builder.visitUnitDef] at hvisit
    split at hvisit
    · cases hvisit
    · rename_i ctx rest hcontext
      cases hvisit
      have hunit : declared' = t.declared ++ [.unit (t.builder.newUnit ctx name unitShort)] := by
        rw [hdeclared, declaration, hcontext]
      obtain ⟨units, hunits, -⟩ := addUnit_eq t.builder.store
        (t.builder.newUnit ctx name unitShort)
      rw [hunits]
      refine h.add_unit hunit hdistinct ?_ rfl rfl rfl (Nat.le_succ _)
      rw [hunits]
  | functionDef name =>
    rw [Builder.visit, Builder.visitFunctionDef] at hvisit
    split at hvisit
    · cases hvisit
    · rename_i ctx rest hcontext
      cases hvisit
      have hfunction : declared' = t.declared ++ [.function (t.builder.newFunction ctx name)] := by
        rw [hdeclared, declaration, hcontext]
      exact h.add_function hfunction hdistinct ⟨name.noDot, rfl⟩ hapart rfl (Nat.le_succ _)
  | lineFormTypeDecl name =>
    rw [Builder.visit, Builder.visitLineFormTypeDecl] at hvisit
    split at hvisit
    · rename_i m hcontext
      cases hvisit
      have hlineForm : declared' =
          t.declared ++ [.lineForm (t.builder.newLineForm (.model m) name)] := by
        rw [hdeclared, declaration, hcontext]
      exact h.add_lineForm hlineForm hdistinct ⟨name.noDot, rfl⟩ hapart rfl rfl rfl
    · cases hvisit
  | lineForm name =>
    rw [Builder.visit, Builder.visitLineForm] at hvisit
    split_ifs at hvisit
    · cases hvisit
      exact h.unchanged (by simpa [declaration] using hdeclared) rfl rfl rfl (Or.inl rfl)
        (Nat.le_succ _)
    · obtain ⟨f, hfind, rfl⟩ := Option.map_eq_some_iff.mp hvisit
      rw [h.renameLineForm hapart hfind]
      exact h.unchanged (by simpa [declaration] using hdeclared) rfl rfl rfl (Or.inl rfl)
        (Nat.le_refl _)
  | viewDef name extended viewRef =>
    obtain ⟨ctx, rest, super, -, hmakes, -⟩ := Builder.visitViewDef_makes hvisit
    exact h.of_typesOnly (by simpa [declaration] using hdeclared) hmakes.typesOnly
      (hmakes.made ▸ Nat.le_succ _)
  | ili1 v =>
    cases v with
    | modelDef name => exact h.ili1ModelDef hvisit hdeclared hdistinct
    | topicDef name => exact hapart.elim
    | _ => exact absurd rfl htype
  | _ => exact absurd rfl htype

/-! ### What gets lost -/

/-- A function with the simple name of an earlier one is not stored. -/
theorem Kept.loses_function (h : Kept t) {f : FunctionDef}
    (hdeclared : t'.declared = t.declared ++ [.function f])
    (hdistinct : DistinctPaths t'.declared)
    (hused : ∃ g, .function g ∈ t.declared ∧ g.name = f.name)
    (hstore : t'.builder.store = t.builder.store.addFunction f) : ¬ Finds t' := by
  intro hfinds
  obtain ⟨g, hg, hname⟩ := hused
  have hsame : t'.builder.store = t.builder.store := by
    rw [hstore, addFunction, if_pos ⟨g, h.mem_functions.mpr hg, hname⟩]
  have hfound : t'.builder.store.findFunction f.getPath = some f :=
    hfinds (.function f) (by simp [hdeclared]) ⟨0, ⟨[], by decide⟩⟩
  rw [hsame] at hfound
  have hold := h.mem_functions.mp (List.mem_of_find?_eq_some hfound)
  exact getPath_ne_of_distinct (d := .function f) (hdeclared ▸ hdistinct) hold rfl

/-- A line form with the simple name of an earlier one is not stored. -/
theorem Kept.loses_lineForm (h : Kept t) {f : LineForm}
    (hdeclared : t'.declared = t.declared ++ [.lineForm f])
    (hdistinct : DistinctPaths t'.declared)
    (hused : ∃ g, .lineForm g ∈ t.declared ∧ g.name = f.name)
    (hstore : t'.builder.store = t.builder.store.addLineForm f) : ¬ Finds t' := by
  intro hfinds
  obtain ⟨g, hg, hname⟩ := hused
  have hsame : t'.builder.store = t.builder.store := by
    rw [hstore, addLineForm, if_pos ⟨g, h.mem_lineForms.mpr hg, hname⟩]
  have hfound : t'.builder.store.findLineForm f.getPath = some f :=
    hfinds (.lineForm f) (by simp [hdeclared]) ⟨0, ⟨[], by decide⟩⟩
  rw [hsame] at hfound
  have hold := h.mem_lineForms.mp (List.mem_of_find?_eq_some hfound)
  exact getPath_ne_of_distinct (d := .lineForm f) (hdeclared ▸ hdistinct) hold rfl

/-- A line form that was referred to by a qualified name has that for its name. -/
theorem Kept.renames_lineForm (h : Kept t) {name : Text} {f : LineForm} (hdot : '.' ∈ name)
    (hfind : t.builder.store.findLineForm name = some f)
    (hdeclared : t'.declared = t.declared)
    (hstore : t'.builder.store = t.builder.store.renameLineForm f name) : ¬ Finds t' := by
  intro hfinds
  have hmem := h.mem_lineForms.mp (List.mem_of_find?_eq_some hfind)
  have hfound : t'.builder.store.findLineForm f.getPath = some f :=
    hfinds (.lineForm f) (hdeclared ▸ hmem) ⟨0, ⟨[], by decide⟩⟩
  rw [hstore] at hfound
  obtain ⟨g, hg, hgf⟩ := List.mem_map.mp (List.mem_of_find?_eq_some hfound)
  split_ifs at hgf with haddress
  · have hname : name = f.name := congrArg (fun c : LineForm => c.name) hgf
    exact (h.named _ hmem).1 (hname ▸ hdot)
  · exact haddress (congrArg (fun c : LineForm => c.address) hgf)

/-- A topic of INTERLIS 1 is no package of the store. -/
theorem Kept.loses_topic (h : Kept t) {name : Identifier}
    (hvisit : t.builder.visitIli1TopicDef name = some t'.builder)
    (hdeclared : t'.declared = t.declared ++ declaration t.builder (.ili1 (.topicDef name))) :
    ¬ Finds t' := by
  intro hfinds
  have hlost : ∀ currentModel path p,
      t'.builder.store.findPackage currentModel path = some p → p.address ≠ t.builder.made := by
    intro currentModel path p hfind
    rw [Builder.visitIli1TopicDef_store hvisit] at hfind
    exact (h.packages p (mem_of_findPackage hfind)).ne
  unfold Builder.visitIli1TopicDef at hvisit
  let currentModel : Model := ⟨0, ⟨[], by decide⟩⟩
  split at hvisit
  · rename_i m hscope
    rw [declaration, hscope] at hdeclared
    have hfound := hfinds (.topic (t.builder.newTopic m name)) (by simp [hdeclared]) currentModel
    exact hlost _ _ _ hfound rfl
  · rename_i hscope
    rw [declaration, hscope] at hdeclared
    obtain ⟨p, hfind, haddress⟩ :=
      hfinds (.derivedTopic t.builder.made name) (by simp [hdeclared]) currentModel
    exact hlost _ _ _ hfind haddress
  · cases hvisit

theorem Kept.loses (h : Kept t) {v : Visit} (hstep : Tracks t v t')
    (hapart : ¬ NamesApart t v) : ¬ Finds t' := by
  obtain ⟨⟨fuel, hvisit⟩, hdeclared, hdistinct⟩ := tracks_iff.mp hstep
  obtain ⟨b', declared'⟩ := t'
  simp only at hvisit hdeclared hdistinct
  cases v with
  | functionDef name =>
    rw [Builder.visit, Builder.visitFunctionDef] at hvisit
    split at hvisit
    · cases hvisit
    · rename_i ctx rest hcontext
      cases hvisit
      have hfunction : declared' = t.declared ++ [.function (t.builder.newFunction ctx name)] := by
        rw [hdeclared, declaration, hcontext]
      have hused : ∃ g, .function g ∈ t.declared ∧ g.name = name.val := by
        simpa [NamesApart] using hapart
      exact h.loses_function hfunction hdistinct hused rfl
  | lineFormTypeDecl name =>
    rw [Builder.visit, Builder.visitLineFormTypeDecl] at hvisit
    split at hvisit
    · rename_i m hcontext
      cases hvisit
      have hlineForm : declared' =
          t.declared ++ [.lineForm (t.builder.newLineForm (.model m) name)] := by
        rw [hdeclared, declaration, hcontext]
      have hused : ∃ g, .lineForm g ∈ t.declared ∧ g.name = name.val := by
        simpa [NamesApart] using hapart
      exact h.loses_lineForm hlineForm hdistinct hused rfl
    · cases hvisit
  | lineForm name =>
    have hdot : '.' ∈ name := not_not.mp hapart
    rw [Builder.visit, Builder.visitLineForm] at hvisit
    split_ifs at hvisit with hpredefined
    · rcases hpredefined with rfl | rfl <;> exact absurd hdot (by decide)
    · obtain ⟨f, hfind, rfl⟩ := Option.map_eq_some_iff.mp hvisit
      exact h.renames_lineForm hdot hfind (by simpa [declaration] using hdeclared) rfl
  | ili1 v =>
    cases v with
    | topicDef name => exact h.loses_topic hvisit hdeclared
    | _ => exact absurd trivial hapart
  | _ => exact absurd trivial hapart

/-! ## Runs -/

/-- Behind every part of a run everything declared is found under its path exactly if no two
functions and no two line forms that the run declares have one simple name, it refers to line
forms by simple names, and it declares no topic of INTERLIS 1. -/
theorem qualified_names_find_iff (visits : List Visit) :
    (∀ before t, before <+: visits → Reach Tracks {} before t → Finds t) ↔
      StepsMeet Tracks NamesApart {} visits :=
  states_keep_iff kept_start (fun _ h => h.finds) (fun _ _ _ h hstep => h.visit hstep)
    (fun _ _ _ h hstep => h.loses hstep) visits

/-- Two models declare a function of the same name, and the second one is lost. -/
theorem findFunction_loses_second : ¬ ∀ visits t, Reach Tracks {} visits t → Finds t := by
  intro hall
  let a : Identifier := ⟨"A".toList, by decide⟩
  let b : Identifier := ⟨"B".toList, by decide⟩
  let name : Identifier := ⟨"f".toList, by decide⟩
  let visits : List Visit :=
    [.modelDef a, .functionDef name, .endPackage, .modelDef b, .functionDef name]
  let f : FunctionDef := ⟨⟨3, name, some (.model ⟨2, b⟩)⟩⟩
  have hlost : ∃ t, visits.foldlM (track 0) {} = some t ∧
      .function f ∈ t.declared ∧ t.builder.store.findFunction f.getPath ≠ some f :=
    ⟨_, rfl, by decide, by decide⟩
  obtain ⟨t, hrun, hdeclared, hnone⟩ := hlost
  have hreach : Reach Tracks {} visits t := Reach.of_foldlM (fun t v u h => ⟨0, h⟩) hrun
  exact hnone (hall visits t hreach (.function f) hdeclared ⟨2, b⟩)

end Ilic.MetaModel
