import Mathlib.Data.List.Forall2
import Mathlib.Logic.Function.Basic
import Ilic.Foundation.Text
import Ilic.Translation.LinkCycles

/-! # Names in textual references

Where a reference is kept as a text, the checker of translations compares the texts after it
has replaced the names that it knows from the linked declarations.  It does so in both texts.
-/

namespace Ilic.Translation
open Foundation Machine Chains Renaming

/-- The base names of translated names; a name with two of them has the empty one. -/
abbrev TranslatedNames := Text → Option Text

/-- What `link_element` enters for two declarations that it links. -/
def recordName (names : TranslatedNames) (translated base : Text) : TranslatedNames :=
  if translated ≠ [] ∧ translated ≠ base then
    match names translated with
    | none => Function.update names translated (some base)
    | some existing =>
      if existing ≠ base then Function.update names translated (some []) else names
  else names

/-- The names after the declarations with these names were linked. -/
def translatedNames (linked : List (Text × Text)) : TranslatedNames :=
  linked.foldl (fun names pair => recordName names pair.1 pair.2) fun _ => none

def isNameStart (c : Char) : Bool := c.isAlpha || c = '_'

def isNamePart (c : Char) : Bool := c.isAlphanum || c = '_'

def canonicalToken (names : TranslatedNames) (token : Text) : Text :=
  match names token with
  | some found => if found ≠ [] then found else token
  | none => token

/-- The loop of `canonical_text`. -/
def canonicalFrom (names : TranslatedNames) (quoted : Bool) : Text → Text
  | [] => []
  | c :: text =>
    if c = '"' then c :: canonicalFrom names (!quoted) text
    else if !quoted && isNameStart c then
      canonicalToken names (c :: text.takeWhile isNamePart) ++
        canonicalFrom names quoted (text.dropWhile isNamePart)
    else c :: canonicalFrom names quoted text
termination_by text => text.length
decreasing_by
  · simp
  · have hle := (List.dropWhile_suffix isNamePart (l := text)).length_le
    simp only [List.length_cons]
    omega
  · simp

def canonicalText (names : TranslatedNames) (text : Text) : Text := canonicalFrom names false text

/-! ## Where texts are compared -/

inductive ConstantKind where
  | undefined | numeric | text | enumeration
deriving DecidableEq

structure Constant where
  value : Text
  kind : ConstantKind

inductive PathElKind where
  | this | thisArea | thatArea | parent | referenceAttr | assocPath | role | viewBase
  | attributeRef | metaObject
deriving DecidableEq

inductive SpecIndex where
  | first | last
deriving DecidableEq

structure PathEl (n : ℕ) where
  kind : PathElKind
  ref : Ptr n := none
  numIndex : ℤ := -1
  specIndex : SpecIndex

structure PathOrInspFactor (n : ℕ) where
  pathEls : List (PathEl n)
  inspection : Ptr n := none
  path : Text

inductive MismatchId where
  | translationReferenceMismatch | translationTypePropertyMismatch | translationViewMismatch
deriving DecidableEq

structure Mismatch where
  id : MismatchId
  property : Text
deriving DecidableEq

/-- `same_expression` for two constants. -/
def sameConstant (names : TranslatedNames) (left right : Constant) : Bool :=
  decide (left.kind = right.kind) &&
    if left.kind = .enumeration then
      decide (canonicalText names left.value = canonicalText names right.value)
    else decide (left.value = right.value)

/-- `same_ref`, which has no answer if a loop over the links does not end. -/
def samePtr {n : ℕ} (translationOf : Fin n → Ptr n) : Ptr n → Ptr n → Option Bool
  | some actual, some expected => sameRef translationOf actual expected
  | none, none => some true
  | _, _ => some false

/-- The loop over the elements of two paths. -/
def samePathEls {n : ℕ} (translationOf : Fin n → Ptr n) :
    List (PathEl n) → List (PathEl n) → Option Bool
  | l :: left, r :: right =>
    if l.kind ≠ r.kind ∨ l.numIndex ≠ r.numIndex ∨ l.specIndex ≠ r.specIndex then some false
    else
      match samePtr translationOf l.ref r.ref with
      | some true => samePathEls translationOf left right
      | answer => answer
  | _, _ => some true

/-- `same_path` for two paths. -/
def samePath {n : ℕ} (translationOf : Fin n → Ptr n) (names : TranslatedNames)
    (actual expected : PathOrInspFactor n) : Option Bool :=
  if actual.pathEls.isEmpty && expected.pathEls.isEmpty then
    some (decide (canonicalText names actual.path = canonicalText names expected.path))
  else if actual.pathEls.length ≠ expected.pathEls.length then some false
  else
    match samePathEls translationOf actual.pathEls expected.pathEls with
    | some true => samePtr translationOf actual.inspection expected.inspection
    | answer => answer

/-- `value` for two texts. -/
def value (id : MismatchId) (property actual expected : Text) : List Mismatch :=
  if actual ≠ expected then [⟨id, property⟩] else []

def compareRefSysName (names : TranslatedNames) (num base : Text) : List Mismatch :=
  value .translationReferenceMismatch "reference system name".toList (canonicalText names num)
    (canonicalText names base)

def compareFormat (names : TranslatedNames) (formatted base : Text) : List Mismatch :=
  value .translationTypePropertyMismatch "format".toList (canonicalText names formatted)
    (canonicalText names base)

/-- The formation paths of two views. -/
def compareFormationPaths (names : TranslatedNames) (actual base : List Text) : List Mismatch :=
  if actual.map (canonicalText names) ≠ base.map (canonicalText names) then
    [⟨.translationViewMismatch, "view formation paths".toList⟩]
  else []

/-- The comparisons of two textual references.  Two paths may have inspections. -/
inductive TextComparison (n : ℕ) where
  | enumerationConstant
  | unresolvedPath (actual expected : Ptr n)
  | refSysName
  | format

/-- Whether the comparison accepts two texts. -/
def TextComparison.accepts {n : ℕ} (translationOf : Fin n → Ptr n) (names : TranslatedNames)
    (actual expected : Text) : TextComparison n → Bool
  | enumerationConstant => sameConstant names ⟨actual, .enumeration⟩ ⟨expected, .enumeration⟩
  | unresolvedPath i j => decide (samePath translationOf names ⟨[], i, actual⟩ ⟨[], j, expected⟩ =
      some true)
  | refSysName => (compareRefSysName names actual expected).isEmpty
  | format => (compareFormat names actual expected).isEmpty

theorem value_eq_nil_iff {id : MismatchId} {property actual expected : Text} :
    (value id property actual expected).isEmpty = true ↔ actual = expected := by
  rw [value]
  split_ifs with h
  · simp [h]
  · simpa using h

theorem TextComparison.accepts_eq {n : ℕ} (c : TextComparison n) (translationOf : Fin n → Ptr n)
    (names : TranslatedNames) (actual expected : Text) :
    c.accepts translationOf names actual expected = true ↔
      canonicalText names actual = canonicalText names expected := by
  cases c with
  | enumerationConstant => simp [accepts, sameConstant]
  | unresolvedPath i j => simp [accepts, samePath]
  | refSysName => exact value_eq_nil_iff
  | format => exact value_eq_nil_iff

/-- The formation paths are compared in pairs. -/
theorem compareFormationPaths_eq_nil_iff (names : TranslatedNames) (actual base : List Text) :
    compareFormationPaths names actual base = [] ↔
      List.Forall₂ (fun a b => canonicalText names a = canonicalText names b) actual base := by
  have hpairs : List.Forall₂ (fun a b => canonicalText names a = canonicalText names b) actual base ↔
      actual.map (canonicalText names) = base.map (canonicalText names) := by
    rw [← List.forall₂_eq_eq_eq (α := Text), List.forall₂_map_left_iff,
      List.forall₂_map_right_iff]
  rw [compareFormationPaths, hpairs]
  split_ifs with h
  · simpa using h
  · simpa using h

/-! ## The base names -/

/-- The base name of a name: its own one if no declaration of the name was linked to a named one,
and otherwise that of all of them.  A name that is linked to two different base names has none. -/
inductive BaseName (linked : List (Text × Text)) : Text → Text → Prop where
  | translated {name base : Text} (hmem : (name, base) ∈ linked) (hbase : base ≠ [])
      (hall : ∀ other, (name, other) ∈ linked → other = base) : BaseName linked name base
  | kept {name : Text} (hnone : ∀ other, (name, other) ∈ linked → other = []) :
      BaseName linked name name

/-- The second text is the first one with its names outside of quotes replaced. -/
def Replaces (linked : List (Text × Text)) : Text → Text → Prop :=
  Renames '"' isNameStart isNamePart (BaseName linked)

/-- Unless a name has two base names, every text can be replaced. -/
theorem exists_replaces {linked : List (Text × Text)}
    (h : ∀ name base other, (name, base) ∈ linked → (name, other) ∈ linked → base = other)
    (text : Text) : ∃ text', Replaces linked text text' := by
  refine exists_renames (fun name => ?_) text
  by_cases hbase : ∃ base, base ≠ [] ∧ (name, base) ∈ linked
  · obtain ⟨base, hne, hmem⟩ := hbase
    exact ⟨base, .translated hmem hne fun other hother => (h name base other hmem hother).symm⟩
  · push Not at hbase
    refine ⟨name, .kept fun other hother => ?_⟩
    by_contra hne
    exact hbase other hne hother

theorem recordName_of_ne {names : TranslatedNames} {translated base name : Text}
    (h : name ≠ translated) : recordName names translated base name = names name := by
  simp only [recordName]
  split_ifs
  · cases names translated with
    | none => exact Function.update_of_ne h _ _
    | some existing =>
      simp only
      split_ifs
      · exact Function.update_of_ne h _ _
      · rfl
  · rfl

theorem recordName_self {names : TranslatedNames} {name base : Text}
    (hnames : names name = none ∨ names name = some base) :
    recordName names name base name =
      if name ≠ [] ∧ name ≠ base then some base else names name := by
  simp only [recordName]
  split_ifs
  · rcases hnames with hnone | hsome
    · rw [hnone]
      exact Function.update_self _ _ _
    · simp [hsome]
  · rfl

/-- What is recorded of a name whose declarations are all linked to one name. -/
theorem translatedNames_eq {name base : Text} {linked : List (Text × Text)}
    (hall : ∀ other, (name, other) ∈ linked → other = base) :
    translatedNames linked name =
      if name ≠ [] ∧ name ≠ base ∧ (name, base) ∈ linked then some base else none := by
  induction linked using List.reverseRecOn with
  | nil => simp [translatedNames]
  | append_singleton linked pair ih =>
    obtain ⟨translated, base'⟩ := pair
    have hnames := ih fun other hother => hall other (List.mem_append_left _ hother)
    have hrecord : translatedNames (linked ++ [(translated, base')]) =
        recordName (translatedNames linked) translated base' := by
      simp [translatedNames]
    rw [hrecord]
    by_cases hname : name = translated
    · subst hname
      obtain rfl := hall base' (by simp)
      rw [recordName_self (by rw [hnames]; split_ifs <;> simp), hnames]
      by_cases hne : name ≠ [] ∧ name ≠ base'
      · simp [hne]
      · have hnot : ¬ (name ≠ [] ∧ name ≠ base' ∧ (name, base') ∈ linked) :=
          fun hand => hne ⟨hand.1, hand.2.1⟩
        have hnot' : ¬ (name ≠ [] ∧ name ≠ base' ∧ (name, base') ∈ linked ++ [(name, base')]) :=
          fun hand => hne ⟨hand.1, hand.2.1⟩
        rw [if_neg hne, if_neg hnot, if_neg hnot']
    · rw [recordName_of_ne hname, hnames]
      simp [hname]

theorem canonicalToken_eq {linked : List (Text × Text)} {name base : Text} (hname : name ≠ [])
    (h : BaseName linked name base) : canonicalToken (translatedNames linked) name = base := by
  cases h with
  | translated hmem hbase hall =>
    rw [canonicalToken, translatedNames_eq hall]
    by_cases hne : name = base
    · simp [hne]
    · simp [hname, hne, hmem, hbase]
  | kept hnone =>
    rw [canonicalToken, translatedNames_eq hnone]
    split_ifs
    · simp
    · rfl

/-! ## What is computed -/

theorem canonicalFrom_quoted {names : TranslatedNames} {body : Text} (hbody : '"' ∉ body)
    (rest : Text) : canonicalFrom names true (body ++ rest) =
      body ++ canonicalFrom names true rest := by
  induction body with
  | nil => rfl
  | cons c body ih =>
    have hc : c ≠ '"' := (List.ne_of_not_mem_cons hbody).symm
    rw [List.cons_append, canonicalFrom, if_neg hc, if_neg (by simp),
      ih (List.not_mem_of_not_mem_cons hbody), List.cons_append]

/-- `canonical_text` replaces the names outside of quotes. -/
theorem canonicalText_eq {linked : List (Text × Text)} {text text' : Text}
    (h : Replaces linked text text') : canonicalText (translatedNames linked) text = text' := by
  rw [canonicalText]
  induction h with
  | done => rw [canonicalFrom]
  | @name c part new rest rest' hquote hstart hpart hend hbase _ ih =>
    have hrest : ∀ d, rest.head? = some d → isNamePart d = false := hend
    rw [canonicalFrom, if_neg hquote, if_pos (by simp [hstart]),
      Text.takeWhile_append_stop hpart hrest, Text.dropWhile_append_stop hpart hrest,
      canonicalToken_eq (List.cons_ne_nil c part) hbase, ih]
  | @quoted body rest rest' hbody _ ih =>
    rw [canonicalFrom, if_pos rfl, Bool.not_false, canonicalFrom_quoted hbody, canonicalFrom,
      if_pos rfl, Bool.not_true, ih]
  | @unclosed body hbody =>
    rw [canonicalFrom, if_pos rfl, Bool.not_false, ← List.append_nil body,
      canonicalFrom_quoted hbody, canonicalFrom]
  | other hquote hstart _ ih =>
    rw [canonicalFrom, if_neg hquote, if_neg (by simp [hstart]), ih]

/-- The comparison accepts what it should exactly if the names of the base text stay as they are,
or if the translated text becomes neither the base text nor what that one becomes. -/
theorem TextComparison.accepts_iff {n : ℕ} (c : TextComparison n) (translationOf : Fin n → Ptr n)
    {linked : List (Text × Text)} {actual actual' expected expected' : Text}
    (hactual : Replaces linked actual actual') (hexpected : Replaces linked expected expected') :
    (c.accepts translationOf (translatedNames linked) actual expected = true ↔
        actual' = expected) ↔
      expected' = expected ∨ (actual' ≠ expected ∧ actual' ≠ expected') := by
  rw [c.accepts_eq, canonicalText_eq hactual, canonicalText_eq hexpected]
  constructor
  · intro hiff
    by_cases hkept : expected' = expected
    · exact Or.inl hkept
    · have hnot : actual' ≠ expected := fun heq => hkept ((hiff.mpr heq).symm.trans heq)
      exact Or.inr ⟨hnot, fun heq => hnot (hiff.mp heq)⟩
  · rintro (rfl | ⟨hnot, hnot'⟩)
    · exact Iff.rfl
    · exact ⟨fun heq => absurd heq hnot', fun heq => absurd heq hnot⟩

/-- The constants `blau` and `rot` of a translation whose base has them in the other order. -/
def swappedNames : List (Text × Text) :=
  [("blau".toList, "rot".toList), ("rot".toList, "blau".toList)]

theorem replaces_swapped : Replaces swappedNames "blau".toList "rot".toList ∧
    Replaces swappedNames "rot".toList "blau".toList := by
  have hblau : BaseName swappedNames "blau".toList "rot".toList :=
    .translated (by simp [swappedNames]) (by decide) (by simp [swappedNames])
  have hrot : BaseName swappedNames "rot".toList "blau".toList :=
    .translated (by simp [swappedNames]) (by decide) (by simp [swappedNames])
  have hlau : ∀ d ∈ "lau".toList, isNamePart d = true := List.all_eq_true.mp (by decide)
  have hot : ∀ d ∈ "ot".toList, isNamePart d = true := List.all_eq_true.mp (by decide)
  exact ⟨.name (by decide) (by decide) hlau (by simp) hblau .done,
    .name (by decide) (by decide) hot (by simp) hrot .done⟩

/-- The translation of a constant by its base is rejected. -/
theorem swapped_rejected : Replaces swappedNames "blau".toList "rot".toList ∧
    (TextComparison.enumerationConstant.accepts (fun _ : Fin 0 => none)
      (translatedNames swappedNames) "blau".toList "rot".toList) = false := by
  refine ⟨replaces_swapped.1, ?_⟩
  rw [Bool.eq_false_iff, ne_eq, TextComparison.accepts_eq, canonicalText_eq replaces_swapped.1,
    canonicalText_eq replaces_swapped.2]
  decide

theorem TextComparison.accepts_iff_swapped :
    ((TextComparison.enumerationConstant.accepts (fun _ : Fin 0 => none)
          (translatedNames swappedNames) "blau".toList "rot".toList = true ↔
        "rot".toList = "rot".toList) ↔
      "blau".toList = "rot".toList ∨
        ("rot".toList ≠ "rot".toList ∧ "rot".toList ≠ "blau".toList)) :=
  TextComparison.accepts_iff .enumerationConstant _ replaces_swapped.1 replaces_swapped.2

/-! ## The names that linking records -/

/-- The states of linking, with the names that have been recorded. -/
inductive Recorded (store : MetaModelStore) : LinkState store.size → TranslatedNames → Prop where
  | start : Recorded store store.start fun _ => none
  | link {s s' : LinkState store.size} {names : TranslatedNames} {t b : Fin store.size}
      (h : Recorded store s names) (hnext : s.LinksNext store t b)
      (hstep : store.step s = .inl s') :
      Recorded store s' (recordName names (store.element t).name (store.element b).name)
  | other {s s' : LinkState store.size} {names : TranslatedNames} (h : Recorded store s names)
      (hnext : ∀ t b, ¬ s.LinksNext store t b) (hstep : store.step s = .inl s') :
      Recorded store s' names

theorem exists_recorded {store : MetaModelStore} {s : LinkState store.size}
    (h : store.Reached s) : ∃ names, Recorded store s names := by
  obtain ⟨n, hn⟩ := h
  have hstep : ∀ s, (∃ names, Recorded store s names) →
      (store.step s).elim (fun s' => ∃ names, Recorded store s' names) fun _ => True := by
    rintro s ⟨names, hs⟩
    cases hnext : store.step s with
    | inr links => trivial
    | inl s' =>
      by_cases hlinks : ∃ t b, s.LinksNext store t b
      · obtain ⟨t, b, htb⟩ := hlinks
        exact ⟨_, hs.link htb hnext⟩
      · exact ⟨names, hs.other (fun t b htb => hlinks ⟨t, b, htb⟩) hnext⟩
  have hrun := run_invariant hstep ⟨_, Recorded.start⟩ n
  rwa [hn] at hrun

/-- What is recorded are the names of the linked declarations. -/
theorem Recorded.exists_linked {store : MetaModelStore} {s : LinkState store.size}
    {names : TranslatedNames} (h : Recorded store s names) :
    ∃ linked : List (Fin store.size × Fin store.size),
      (∀ t b, (t, b) ∈ linked ↔ s.translationOf t = some b) ∧
        names = translatedNames (linked.map fun pair =>
          ((store.element pair.1).name, (store.element pair.2).name)) := by
  induction h with
  | start => exact ⟨[], by simp [MetaModelStore.start], rfl⟩
  | @link s s' names t b _ hnext hstep ih =>
    obtain ⟨linked, hlinked, rfl⟩ := ih
    obtain ⟨s'', hstep', hput⟩ := MetaModelStore.step_of_linksNext hnext
    rw [hstep'] at hstep
    cases hstep
    refine ⟨linked ++ [(t, b)], fun t' b' => ?_, by simp [translatedNames]⟩
    rw [List.mem_append, hlinked, hput, List.mem_singleton, Prod.mk.injEq]
    constructor
    · rintro (hold | ⟨rfl, rfl⟩)
      · exact extends_put b hnext.2.1 t' b' hold
      · exact put_self t' b'
    · exact fun hnew => (put_cases hnew).symm
  | other _ hnext hstep ih =>
    obtain ⟨linked, hlinked, rfl⟩ := ih
    refine ⟨linked, fun t b => ?_, rfl⟩
    rcases MetaModelStore.step_translationOf hstep with hsame | ⟨t', b', hlinks, -⟩
    · rw [hsame, hlinked]
    · exact absurd hlinks (hnext t' b')

end Ilic.Translation
