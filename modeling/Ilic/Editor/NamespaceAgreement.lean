import Ilic.Editor.LiveReports
import Ilic.MetaModel.Namespaces

/-! # Live diagnostics and the compiler

The editor compares names up to case, with the full names of units and all domains, and puts
the attributes of an unnamed association into the topic; the compiler compares the names that
it enters.  Both report the same scopes exactly if in every scope the two comparisons of names
agree, and every end name is the name itself or another one for both.
-/

namespace Ilic.Editor
open Foundation Ilic.Parser MetaModel

/-- For every scope of the source, the editor reports a duplicate declaration if and only if the
namespace checks of the compiler do, and an end name if and only if its reader does. -/
def AgreesWithCompiler (stored : List Text) (source : Source) : Prop :=
  ∀ place, (ReportsDuplicate source place ↔ Namespaces.ReportsDuplicate stored source place) ∧
    (ReportsEndName source place ↔ Namespaces.ReportsEndName source place)

/-- Two names of the scope agree up to case if and only if one name is entered twice in it. -/
def NamesAgree (isStored : Prop) (s : Scope) : Prop :=
  ¬ (upperNames (shownIn s)).Nodup ↔
    isStored ∧ Namespaces.EnteredTwice (Namespaces.entered s)

/-- The end name is the name of the scope, or another one even where neither case nor a prefix
matters; a scope without a name has none. -/
def EndAgrees (s : Scope) : Prop :=
  match s.name, s.endName with
  | some name, some found =>
    name.text = found.text ∨ upper name.text ≠ upper found.text ∧
      Namespaces.comparedName s name.text ≠ Namespaces.comparedName s found.text
  | none, none => True
  | _, _ => False

/-! ## Scopes by their places -/

section
variable {α κ : Type*} [DecidableEq κ] {place : α → Option κ} {l : List α}

theorem eq_of_place (hl : (l.filterMap place).Nodup) {a b : α} {k : κ} (ha : a ∈ l) (hb : b ∈ l)
    (hak : place a = some k) (hbk : place b = some k) : b = a := by
  have honly := filter_eq_singleton hl (p := fun a => decide (place a = some k)) ha hak
    (fun _ h => of_decide_eq_true h) (decide_eq_true hak)
  rw [← List.mem_singleton, ← honly]
  exact List.mem_filter.mpr ⟨hb, decide_eq_true hbk⟩

/-- Two properties hold at the same places exactly if they agree, where the first one holds only
of what has a place. -/
theorem forall_place_iff (hl : (l.filterMap place).Nodup) {A B : α → Prop}
    (hA : ∀ a, A a → place a ≠ none) :
    (∀ k, (∃ a ∈ l, place a = k ∧ A a) ↔ ∃ a ∈ l, place a = k ∧ B a) ↔
      ∀ a ∈ l, (A a ↔ B a) := by
  constructor
  · intro h a ha
    constructor
    · intro hAa
      obtain ⟨k, hk⟩ := Option.ne_none_iff_exists'.mp (hA a hAa)
      obtain ⟨b, hb, hbk, hBb⟩ := (h (some k)).mp ⟨a, ha, hk, hAa⟩
      exact eq_of_place hl ha hb hk hbk ▸ hBb
    · intro hBa
      obtain ⟨b, hb, hbk, hAb⟩ := (h (place a)).mpr ⟨a, ha, rfl, hBa⟩
      obtain ⟨k, hk⟩ := Option.ne_none_iff_exists'.mp (hA b hAb)
      exact eq_of_place hl hb ha hk (hbk ▸ hk) ▸ hAb
  · intro h k
    constructor
    · rintro ⟨a, ha, hk, hAa⟩
      exact ⟨a, ha, hk, (h a ha).mp hAa⟩
    · rintro ⟨a, ha, hk, hBa⟩
      exact ⟨a, ha, hk, (h a ha).mpr hBa⟩

end

/-! ## End names -/

theorem withoutIlicPrefix_injective_of_length {name found : Text}
    (hlength : name.length = found.length)
    (h : Namespaces.withoutIlicPrefix name = Namespaces.withoutIlicPrefix found) : name = found := by
  have hsplit {t : Text} (ht : Text.startsWith "ILIC_".toList t = true) :
      t = "ILIC_".toList ++ t.drop 5 := by
    obtain ⟨rest, rfl⟩ := Text.startsWith_iff.mp ht
    rfl
  have hshort {t : Text} (ht : Text.startsWith "ILIC_".toList t = true) :
      (t.drop 5).length < t.length := by
    obtain ⟨rest, rfl⟩ := Text.startsWith_iff.mp ht
    rw [List.length_drop, List.length_append, show "ILIC_".toList.length = 5 from rfl]
    omega
  unfold Namespaces.withoutIlicPrefix at h
  split_ifs at h with hname hfound hfound
  · rw [hsplit hname, h, ← hsplit hfound]
  · have := hshort hname
    rw [h] at this
    omega
  · have := hshort hfound
    rw [← h] at this
    omega
  · exact h

theorem modelName_injective_of_length {name found : Text} (hlength : name.length = found.length)
    (h : Namespaces.modelName name = Namespaces.modelName found) : name = found := by
  unfold Namespaces.modelName at h
  split_ifs at h with hname hfound hfound
  · rw [hname, hfound]
  · rw [hname, ← h] at hlength
    exact absurd hlength (by decide)
  · rw [hfound, h] at hlength
    exact absurd hlength (by decide)
  · exact h

/-- Names of one length differ in the form in which they are compared if they differ at all. -/
theorem eq_of_comparedName {s : Scope} {name found : Text} (hlength : name.length = found.length)
    (h : Namespaces.comparedName s name = Namespaces.comparedName s found) : name = found := by
  unfold Namespaces.comparedName at h
  split at h
  · exact modelName_injective_of_length hlength h
  · exact withoutIlicPrefix_injective_of_length hlength h
  · exact h

theorem length_eq_of_upper {name found : Text} (h : upper name = upper found) :
    name.length = found.length := by
  have hmap := congrArg List.length h
  rw [upper, upper, List.length_map, List.length_map] at hmap
  exact hmap

theorem endNameReports_of_one_name {s : Scope} (h : s.name.isSome ≠ s.endName.isSome) :
    Namespaces.endNameReports s ≠ [] := by
  cases s with
  | model m => exact absurd rfl h
  | topic t => exact absurd rfl h
  | definition d =>
    cases d with
    | unitDef u => exact absurd rfl h
    | domainType d => exact absurd rfl h
    | other className name => exact absurd rfl h
    | classDef c => exact absurd rfl h
    | structureDef c => exact absurd rfl h
    | viewDef v => exact absurd rfl h
    | graphicDef g => exact absurd rfl h
    | associationDef a =>
      obtain ⟨name1, name2, attributes⟩ := a
      cases name1 with
      | none =>
        cases name2 with
        | none => exact absurd rfl h
        | some name2 => exact List.cons_ne_nil _ _
      | some name1 =>
        cases name2 with
        | none => exact List.cons_ne_nil _ _
        | some name2 => exact absurd rfl h

theorem endNameReports_of_no_name {s : Scope} (h : s.name = none) (hend : s.endName = none) :
    Namespaces.endNameReports s = [] := by
  cases s with
  | model m => cases h
  | topic t => cases h
  | definition d =>
    cases d with
    | unitDef u => rfl
    | domainType d => rfl
    | other className name => rfl
    | classDef c => cases h
    | structureDef c => cases h
    | viewDef v => cases h
    | graphicDef g => cases h
    | associationDef a =>
      obtain ⟨name1, name2, attributes⟩ := a
      cases h
      cases hend
      rfl

theorem endDiffers_ne_nil_iff {s : Scope} {name found : NameToken} (hname : s.name = some name)
    (hfound : s.endName = some found) :
    endDiffers s ≠ [] ↔ upper name.text ≠ upper found.text := by
  rw [endDiffers, hname, hfound]
  simp only [sameName, decide_eq_true_eq]
  split_ifs with h
  · exact iff_of_false (fun hne => hne rfl) fun hne => hne h
  · exact iff_of_true (List.cons_ne_nil _ _) h

theorem endAgrees_iff (s : Scope) :
    EndAgrees s ↔ (endDiffers s ≠ [] ↔ Namespaces.endNameReports s ≠ []) := by
  cases hname : s.name with
  | none =>
    have hnone : endDiffers s = [] := by rw [endDiffers, hname]
    cases hfound : s.endName with
    | none =>
      rw [EndAgrees, hname, hfound, hnone, endNameReports_of_no_name hname hfound]
      exact iff_of_true trivial (iff_of_false (fun h => h rfl) fun h => h rfl)
    | some found =>
      have hreports := endNameReports_of_one_name (s := s) (by simp [hname, hfound])
      rw [EndAgrees, hname, hfound, hnone]
      exact iff_of_false id fun h => h.mpr hreports rfl
  | some name =>
    cases hfound : s.endName with
    | none =>
      have hnone : endDiffers s = [] := by rw [endDiffers, hname, hfound]
      have hreports := endNameReports_of_one_name (s := s) (by simp [hname, hfound])
      rw [EndAgrees, hname, hfound, hnone]
      exact iff_of_false id fun h => h.mpr hreports rfl
    | some found =>
      have hsame : Namespaces.comparedName s name.text = Namespaces.comparedName s found.text →
          upper name.text = upper found.text → name.text = found.text := fun h hupper =>
        eq_of_comparedName (length_eq_of_upper hupper) h
      rw [EndAgrees, hname, hfound, endDiffers_ne_nil_iff hname hfound,
        Namespaces.endNameReports_ne_nil_iff hname hfound]
      by_cases htext : name.text = found.text
      · simp [htext]
      · simp only [htext, false_or]
        tauto

/-! ## Agreement -/

/-- The scopes of a source, each with its model. -/
def modelScopes (source : Source) : List (ModelDef × Scope) :=
  source.models.flatMap fun m => m.scopes.map fun s => (m, s)

theorem mem_modelScopes_iff {source : Source} {m : ModelDef} {s : Scope} :
    (m, s) ∈ modelScopes source ↔ m ∈ source.models ∧ s ∈ m.scopes := by
  simp [modelScopes]

theorem map_snd_modelScopes (source : Source) :
    (modelScopes source).map Prod.snd = source.scopes := by
  rw [modelScopes, List.map_flatMap, Source.scopes]
  simp only [List.map_map, Function.comp_def, List.map_id']

theorem places_modelScopes (source : Source) :
    ((modelScopes source).filterMap fun x => Source.placeOf x.2).Nodup := by
  have h := places_nodup source
  rw [← map_snd_modelScopes, List.filterMap_map] at h
  exact h

theorem exists_scope_iff {source : Source} {p : Scope → Prop} :
    (∃ s ∈ source.scopes, p s) ↔ ∃ x ∈ modelScopes source, p x.2 := by
  rw [← map_snd_modelScopes]
  simp only [List.mem_map, exists_exists_and_eq_and]

theorem exists_storedScope_iff {stored : List Text} {source : Source}
    {place : Option ℕ} {p : Scope → Prop} :
    (∃ m ∈ Namespaces.storedModels stored source, ∃ s ∈ m.scopes, Source.placeOf s = place ∧ p s) ↔
      ∃ x ∈ modelScopes source, Source.placeOf x.2 = place ∧
        x.1 ∈ Namespaces.storedModels stored source ∧ p x.2 := by
  constructor
  · rintro ⟨m, hm, s, hs, hplace, hp⟩
    have hmodel : m ∈ source.models := (mem_keepFirst_iff.mp hm).2.mem
    exact ⟨(m, s), mem_modelScopes_iff.mpr ⟨hmodel, hs⟩, hplace, hm, hp⟩
  · rintro ⟨⟨m, s⟩, hx, hplace, hm, hp⟩
    exact ⟨m, hm, s, (mem_modelScopes_iff.mp hx).2, hplace, hp⟩

/-- Both report duplicates in the same scopes exactly if the names of every scope agree. -/
theorem duplicates_agree_iff (stored : List Text) (source : Source) :
    (∀ place, ReportsDuplicate source place ↔ Namespaces.ReportsDuplicate stored source place) ↔
      ∀ m ∈ source.models, ∀ s ∈ m.scopes,
        NamesAgree (m ∈ Namespaces.storedModels stored source) s := by
  have hnamed (x : ModelDef × Scope) (h : ¬ (upperNames (shownIn x.2)).Nodup) :
      Source.placeOf x.2 ≠ none := by
    intro hnone
    rw [shownIn_unnamed (Option.map_eq_none_iff.mp hnone)] at h
    exact h List.nodup_nil
  have hplaces := forall_place_iff (places_modelScopes source)
    (A := fun x => ¬ (upperNames (shownIn x.2)).Nodup)
    (B := fun x => x.1 ∈ Namespaces.storedModels stored source ∧
      Namespaces.EnteredTwice (Namespaces.entered x.2)) hnamed
  simp only [reportsDuplicate_iff, Namespaces.reportsDuplicate_iff, exists_scope_iff,
    ← Source.placeOf.eq_def, exists_storedScope_iff]
  rw [hplaces]
  simp only [Prod.forall, mem_modelScopes_iff, NamesAgree]
  constructor
  · exact fun h m hm s hs => h m s ⟨hm, hs⟩
  · exact fun h m s hms => h m hms.1 s hms.2

/-- Both report end names in the same scopes exactly if every end name agrees. -/
theorem endNames_agree_iff (source : Source) :
    (∀ place, ReportsEndName source place ↔ Namespaces.ReportsEndName source place) ↔
      ∀ m ∈ source.models, ∀ s ∈ m.scopes, EndAgrees s := by
  have hnamed (s : Scope) (h : endDiffers s ≠ []) : Source.placeOf s ≠ none := by
    obtain ⟨name, hname⟩ := List.exists_mem_of_ne_nil _ h
    rw [Source.placeOf, name_of_mem_endDiffers hname]
    exact Option.some_ne_none _
  have hplaces := forall_place_iff (places_nodup source) (A := fun s => endDiffers s ≠ [])
    (B := fun s => Namespaces.endNameReports s ≠ []) hnamed
  simp only [reportsEndName_iff, Namespaces.reportsEndName_iff, ← Source.placeOf.eq_def, endAgrees_iff]
  rw [hplaces]
  simp only [Source.scopes, List.mem_flatMap]
  constructor
  · exact fun h m hm s hs => h s ⟨m, hm, hs⟩
  · rintro h s ⟨m, hm, hs⟩
    exact h m hm s hs

/-- Editor and compiler agree exactly if the names of every scope do, and its end name. -/
theorem agreesWithCompiler_iff (stored : List Text) (source : Source) :
    AgreesWithCompiler stored source ↔ ∀ m ∈ source.models, ∀ s ∈ m.scopes,
      NamesAgree (m ∈ Namespaces.storedModels stored source) s ∧ EndAgrees s := by
  rw [AgreesWithCompiler, forall_and, duplicates_agree_iff, endNames_agree_iff]
  constructor
  · rintro ⟨hnames, hends⟩ m hm s hs
    exact ⟨hnames m hm s hs, hends m hm s hs⟩
  · intro h
    exact ⟨fun m hm s hs => (h m hm s hs).1, fun m hm s hs => (h m hm s hs).2⟩

/-- A topic with the classes `a` and `A`. -/
def twoCases : Source where
  models := [{
    modelname1 := ⟨"M".toList, 20, by decide⟩
    modelname2 := ⟨"M".toList, 128, by decide⟩
    items := [.topicDef {
      topicname1 := ⟨"T".toList, 61, by decide⟩
      topicname2 := ⟨"T".toList, 121, by decide⟩
      definitions := [
        .classDef ⟨⟨"a".toList, 75, by decide⟩, ⟨"a".toList, 87, by decide⟩, []⟩,
        .classDef ⟨⟨"A".toList, 100, by decide⟩, ⟨"A".toList, 112, by decide⟩, []⟩] }] }]
  places := by decide

/-- The editor reports the class `A` as a duplicate, and the compiler reports nothing. -/
theorem not_agreesWithCompiler_twoCases : ¬ AgreesWithCompiler ["INTERLIS".toList] twoCases := by
  intro h
  have hcompiler : Namespaces.checkerReports ["INTERLIS".toList] twoCases = [] := by decide
  have heditor : ReportsDuplicate twoCases (some 61) := by
    refine ⟨⟨"class:100:A".toList, ⟨"A".toList, 100, by decide⟩, .class_, "topic:61:T".toList⟩,
      ⟨"class:75:a".toList, ⟨"a".toList, 75, by decide⟩, .class_, "topic:61:T".toList⟩,
      .topic, ⟨"T".toList, 61, by decide⟩, ?_, ?_, rfl⟩
    · decide
    · decide
  obtain ⟨r, hr, -⟩ := (h (some 61)).1.mp heditor
  rw [hcompiler] at hr
  cases hr

end Ilic.Editor
