import Ilic.Semantics.ContextCheck

/-! # What the check of contexts compares

The bounds of two axes are compared as decimal literals: without a report, what the concrete
domain admits is admitted by the generic one.  The imported definition of a context is the first
one in the depth-first order of the imports.
-/

namespace Ilic.Semantics.GenericDomains
open Foundation Machine Chains Relation FirstHolder

/-- The bounds of the candidate keep those of the base. -/
structure NumType.Within (candidate base : NumType) : Prop where
  min : ∀ y, decimalValue base.min = some y → ∃ x, decimalValue candidate.min = some x ∧ y ≤ x
  max : ∀ y, decimalValue base.max = some y → ∃ x, decimalValue candidate.max = some x ∧ x ≤ y

/-- The numbers that a numeric type admits. -/
def NumType.Admits (axis : NumType) (q : ℚ) : Prop := InRange axis.min axis.max q

theorem NumType.Within.admits {candidate base : NumType} (h : candidate.Within base) {q : ℚ}
    (hq : candidate.Admits q) : base.Admits q := by
  constructor
  · intro y hy
    obtain ⟨x, hx, hle⟩ := h.min y hy
    exact hle.trans (hq.1 x hx)
  · intro y hy
    obtain ⟨x, hx, hle⟩ := h.max y hy
    exact (hq.2 x hx).trans hle

/-- No `int` of the comparison overflows, and neither is zero while the other is between zero
and one. -/
structure Comparable (l r : DecimalLiteral) : Prop where
  left : l.Bounded ∧ l.ScaleInInt
  right : r.Bounded ∧ r.ScaleInInt
  magnitude : (l.value < 0 ↔ r.value < 0) → l.MagnitudeInInt ∧ r.MagnitudeInInt
  zero : ¬ ZeroBelowOne l.value r.value ∧ ¬ ZeroBelowOne r.value l.value

theorem decimalValue_of_readAs {l : DecimalLiteral} {d : ExactDecimal} (h : l.ReadAs d) :
    d.value = l.value := by
  cases h with
  | zero h =>
    rw [h]
    simp [ExactDecimal.value, digitsValue]
  | normal d _ hnegative hvalue _ _ =>
    rw [DecimalLiteral.value_of_normal hnegative hvalue, ExactDecimal.value, ExactDecimal.unsigned]
    cases d.negative <;> simp

theorem decimalValue_literal {l : DecimalLiteral} (h : l.Bounded) :
    decimalValue l.text = some l.value := by
  obtain ⟨d, hparse, hread⟩ := l.parse_readAs h.1
  rw [decimalValue, hparse, Option.map_some, decimalValue_of_readAs hread]

theorem decimalValue_nil : decimalValue [] = none := rfl

theorem text_ne_nil {l : DecimalLiteral} (h : l.Bounded) : l.text ≠ [] := by
  intro hnil
  have hvalue := decimalValue_literal h
  rw [hnil, decimalValue_nil] at hvalue
  cases hvalue

theorem Comparable.decides {l r : DecimalLiteral} (h : Comparable l r) :
    ∃ c, compareExactDecimal l.text r.text = some c ∧ Decides c l.value r.value := by
  obtain ⟨left, hleft, hreadl⟩ := l.parse_readAs h.left.1.1
  obtain ⟨right, hright, hreadr⟩ := r.parse_readAs h.right.1.1
  rw [compareExactDecimal, hleft, hright, (DecimalLiteral.parsesInInt_iff h.left.1).mpr h.left.2,
    (DecimalLiteral.parsesInInt_iff h.right.1).mpr h.right.2]
  dsimp only
  by_cases hsign : left.negative = right.negative
  · have hsame : l.value < 0 ↔ r.value < 0 := by
      rw [← hreadl.negative_iff, ← hreadr.negative_iff, hsign]
    obtain ⟨hmagnitudel, hmagnituder⟩ := h.magnitude hsame
    rw [(DecimalLiteral.magnitudeInInt_iff hreadl).mpr hmagnitudel,
      (DecimalLiteral.magnitudeInInt_iff hreadr).mpr hmagnituder]
    refine ⟨_, ?_, (DecimalLiteral.comparison_decides_iff hreadl hreadr hsign).mpr h.zero⟩
    simp [hsign]
  · refine ⟨if left.negative then -1 else 1, by simp [hsign], ?_⟩
    cases hnegative : left.negative with
    | true =>
      have hright : ¬ r.value < 0 := by
        rw [← hreadr.negative_iff]
        exact fun h => hsign (hnegative.trans h.symm)
      exact decides_lt ((hreadl.negative_iff.mp hnegative).trans_le (not_lt.mp hright))
    | false =>
      have hleft : ¬ l.value < 0 := by
        rw [← hreadl.negative_iff, hnegative]
        exact Bool.false_ne_true
      have hright : r.value < 0 := by
        rw [← hreadr.negative_iff]
        exact (Bool.eq_false_or_eq_true _).resolve_right fun h => hsign (hnegative.trans h.symm)
      exact decides_gt (hright.trans_le (not_lt.mp hleft))

/-- A bound of the candidate and the one of the base, as they are written. -/
inductive BoundsComparable : Text → Text → Prop where
  | unbounded (candidate : Text) : BoundsComparable candidate []
  | missing {r : DecimalLiteral} (h : r.Bounded) : BoundsComparable [] r.text
  | both {l r : DecimalLiteral} (h : Comparable l r) : BoundsComparable l.text r.text

structure NumType.Comparable (candidate base : NumType) : Prop where
  min : BoundsComparable candidate.min base.min
  max : BoundsComparable candidate.max base.max

theorem boundBeyond_spec {wrong : ℤ → Bool} {keeps : ℚ → ℚ → Prop}
    (hwrong : ∀ c x y, Decides c x y → (wrong c = false ↔ keeps x y)) {candidate base : Text}
    (h : BoundsComparable candidate base) :
    ∃ result, boundBeyond wrong candidate base = some result ∧
      (result = none ↔ ∀ y, decimalValue base = some y →
        ∃ x, decimalValue candidate = some x ∧ keeps x y) := by
  cases h with
  | unbounded candidate => exact ⟨none, rfl, by simp [decimalValue_nil]⟩
  | @missing r h =>
    refine ⟨some "unbounded".toList, ?_, ?_⟩
    · rw [boundBeyond, if_neg (text_ne_nil h), if_pos rfl]
    · simp [decimalValue_nil, decimalValue_literal h]
  | @both l r h =>
    obtain ⟨c, hcompare, hdecides⟩ := h.decides
    refine ⟨if wrong c then some l.text else none, ?_, ?_⟩
    · rw [boundBeyond, if_neg (text_ne_nil h.right.1), if_neg (text_ne_nil h.left.1), hcompare]
      rfl
    · rw [decimalValue_literal h.left.1, decimalValue_literal h.right.1]
      simp [← hwrong c l.value r.value hdecides]

theorem axisFit_spec (axis : ℕ) {candidate base : NumType} (h : candidate.Comparable base) :
    ∃ result, axisFit axis candidate base = some result ∧
      (result.fits = true ↔ candidate.Within base) := by
  have hbelow : ∀ c x y, Decides c x y → (decide (c < 0) = false ↔ y ≤ x) := by
    intro c x y hc
    rw [decide_eq_false_iff_not, hc.1, not_lt]
  have habove : ∀ c x y, Decides c x y → (decide (0 < c) = false ↔ x ≤ y) := by
    intro c x y hc
    rw [decide_eq_false_iff_not, hc.2.2, not_lt]
  obtain ⟨low, hlow, hmin⟩ := @boundBeyond_spec _ (fun x y => y ≤ x) hbelow _ _ h.min
  obtain ⟨high, hhigh, hmax⟩ := @boundBeyond_spec _ (fun x y => x ≤ y) habove _ _ h.max
  rw [axisFit, hlow]
  cases low with
  | some actual =>
    refine ⟨_, rfl, ?_⟩
    refine iff_of_false (by simp [CoordinateFitResult.fits]) fun hwithin => ?_
    exact absurd (hmin.mpr hwithin.min) (by simp)
  | none =>
    dsimp only
    rw [hhigh]
    cases high with
    | some actual =>
      refine ⟨_, rfl, ?_⟩
      refine iff_of_false (by simp [CoordinateFitResult.fits]) fun hwithin => ?_
      exact absurd (hmax.mpr hwithin.max) (by simp)
    | none =>
      exact ⟨_, rfl, iff_of_true (by simp [CoordinateFitResult.fits])
        ⟨hmin.mp rfl, hmax.mp rfl⟩⟩

/-- The axes of two coordinate types: all are there, and those of the first one keep the bounds
of the second one. -/
inductive AxesWithin : List (Option NumType) → List (Option NumType) → Prop where
  | nil : AxesWithin [] []
  | cons {c b : NumType} {candidates bases : List (Option NumType)} (first : c.Within b)
      (later : AxesWithin candidates bases) : AxesWithin (some c :: candidates) (some b :: bases)

/-- The bounds of two coordinate types can be compared, axis by axis. -/
def AxesComparable (candidates bases : List (Option NumType)) : Prop :=
  ∀ pair ∈ candidates.zip bases, ∀ c b, pair = (some c, some b) → c.Comparable b

theorem AxesWithin.length_eq {candidates bases : List (Option NumType)}
    (h : AxesWithin candidates bases) : candidates.length = bases.length := by
  induction h with
  | nil => rfl
  | cons _ _ ih => rw [List.length_cons, List.length_cons, ih]

theorem axesFit_spec (axis : ℕ) {candidates bases : List (Option NumType)}
    (hlength : candidates.length = bases.length) (h : AxesComparable candidates bases) :
    ∃ result, axesFit axis candidates bases = some result ∧
      (result.fits = true ↔ AxesWithin candidates bases) := by
  induction candidates generalizing axis bases with
  | nil =>
    cases bases with
    | nil => exact ⟨{}, rfl, iff_of_true rfl .nil⟩
    | cons base bases => cases hlength
  | cons candidate candidates ih =>
    cases bases with
    | nil => cases hlength
    | cons base bases =>
      rw [AxesComparable, List.zip_cons_cons, List.forall_mem_cons] at h
      cases candidate with
      | none =>
        exact ⟨_, rfl, iff_of_false (by simp [CoordinateFitResult.fits]) (by rintro ⟨⟩)⟩
      | some c =>
        cases base with
        | none =>
          exact ⟨_, rfl, iff_of_false (by simp [CoordinateFitResult.fits]) (by rintro ⟨⟩)⟩
        | some b =>
          obtain ⟨first, hfirst, hwithin⟩ := axisFit_spec axis (h.1 c b rfl)
          obtain ⟨last, hlast, hrest⟩ := ih (axis + 1) (Nat.succ.inj hlength) h.2
          rw [axesFit, hfirst, Option.bind_some]
          cases hfits : first.fits with
          | false =>
            refine ⟨first, by simp, ?_⟩
            refine iff_of_false (by simp [hfits]) ?_
            intro hkeeps
            cases hkeeps with
            | cons hkeeps _ =>
              rw [hwithin.mpr hkeeps] at hfits
              cases hfits
          | true =>
            refine ⟨last, by simpa using hlast, ?_⟩
            rw [hrest]
            constructor
            · exact .cons (hwithin.mp hfits)
            · intro hkeeps
              cases hkeeps with
              | cons _ hlater => exact hlater

theorem coordinateTypeFit_spec {concrete generic : List (Option NumType)}
    (h : AxesComparable concrete generic) :
    ∃ result, coordinateTypeFit (some concrete) (some generic) = some result ∧
      (result.fits = true ↔ AxesWithin concrete generic) := by
  rw [coordinateTypeFit]
  by_cases hlength : concrete.length = generic.length
  · rw [if_neg (not_not.mpr hlength)]
    exact axesFit_spec 1 hlength h
  · rw [if_pos hlength]
    exact ⟨_, rfl, iff_of_false (by simp [CoordinateFitResult.fits])
      fun hwithin => hlength hwithin.length_eq⟩

/-- The coordinates that a coordinate type admits. -/
inductive AdmitsCoordinates : List (Option NumType) → List ℚ → Prop where
  | nil : AdmitsCoordinates [] []
  | cons {axis : NumType} {q : ℚ} {axes : List (Option NumType)} {coordinates : List ℚ}
      (first : axis.Admits q) (later : AdmitsCoordinates axes coordinates) :
      AdmitsCoordinates (some axis :: axes) (q :: coordinates)

theorem AxesWithin.admits {candidates bases : List (Option NumType)}
    (h : AxesWithin candidates bases) {coordinates : List ℚ}
    (hadmits : AdmitsCoordinates candidates coordinates) : AdmitsCoordinates bases coordinates := by
  induction h generalizing coordinates with
  | nil =>
    cases hadmits
    exact .nil
  | cons hwithin _ ih =>
    cases hadmits with
    | cons hq hlater => exact .cons (hwithin.admits hq) (ih hlater)

/-! ## The definition of an imported context -/

section Imported
variable {Domain Definition : Type} [DecidableEq Domain] {store : ContextStore Domain Definition}
  {generic : Option Domain}

/-- A visited model that has a definition makes no difference to the search: it is asked for its
definition before it is looked for among the visited ones. -/
theorem inEach_beside {holder : Fin store.size}
    {search : List (Fin store.size) → Fin store.size →
      Option (Option Definition × List (Fin store.size))}
    (hsearch : ∀ visited model, store.genericDefinitionIn model generic = none →
      search (holder :: visited) model =
        (search visited model).map (Prod.map id (holder :: ·)))
    (visited items : List (Fin store.size)) :
    store.inEach generic search (holder :: visited) items =
      (store.inEach generic search visited items).map (Prod.map id (holder :: ·)) := by
  induction items generalizing visited with
  | nil => rfl
  | cons imported rest ih =>
    rw [ContextStore.inEach, ContextStore.inEach]
    cases hown : store.genericDefinitionIn imported generic with
    | some definition => rfl
    | none =>
      dsimp only
      rw [hsearch visited imported hown]
      cases search visited imported with
      | none => rfl
      | some answer =>
        obtain ⟨found, visited'⟩ := answer
        cases found with
        | some definition => rfl
        | none => exact ih visited'

theorem genericDefinitionInImports_beside {holder : Fin store.size}
    (hholder : store.genericDefinitionIn holder generic ≠ none) (depth : ℕ)
    (visited : List (Fin store.size)) (model : Fin store.size)
    (hown : store.genericDefinitionIn model generic = none) :
    store.genericDefinitionInImports generic depth (holder :: visited) model =
      (store.genericDefinitionInImports generic depth visited model).map
        (Prod.map id (holder :: ·)) := by
  induction depth generalizing visited model with
  | zero => rfl
  | succ depth ih =>
    have hne : model ≠ holder := fun heq => hholder (heq ▸ hown)
    rw [ContextStore.genericDefinitionInImports, ContextStore.genericDefinitionInImports]
    by_cases hmem : model ∈ visited
    · rw [if_pos hmem, if_pos (List.mem_cons_of_mem _ hmem)]
      rfl
    · rw [if_neg hmem, if_neg (by simp [hne, hmem])]
      exact inEach_beside ih (visited ++ [model]) _

/-- The definition of the first model, among those that the model imports directly or through
others, that has one for the domain; the last import comes first, and nothing comes below a
model with a definition. -/
def FirstImported (store : ContextStore Domain Definition) (generic : Option Domain)
    (model : Fin store.size) (definition : Option Definition) : Prop :=
  ∃ order, Listing store.directlyImportedModels (store.genericDefinitionIn · generic) []
      (store.directlyImportedModels model) order ∧
    order.findSome? (store.genericDefinitionIn · generic) = definition

theorem FirstImported.unique {model : Fin store.size} {definition definition' : Option Definition}
    (h : FirstImported store generic model definition)
    (h' : FirstImported store generic model definition') : definition = definition' := by
  obtain ⟨order, hlisting, rfl⟩ := h
  obtain ⟨order', hlisting', rfl⟩ := h'
  rw [hlisting.unique hlisting']

theorem genericDefinitionInImports_first {model : Fin store.size}
    (hown : store.genericDefinitionIn model generic ≠ none) :
    ∃ definition, (store.genericDefinitionInImports generic (store.size + 2) [] model).map
        Prod.fst = some definition ∧ FirstImported store generic model definition := by
  have hdepth : unlisted ([] : List (Fin store.size)) < store.size + 1 := by
    simp [unlisted]
  have hnone : ∀ m ∈ ([] : List (Fin store.size)), store.genericDefinitionIn m generic = none :=
    fun _ h => absurd h List.not_mem_nil
  have hagrees : ContextStore.Agrees store generic [] (store.directlyImportedModels model)
      (store.inEach generic (store.genericDefinitionInImports generic (store.size + 1)) []
        (store.directlyImportedModels model)) :=
    ContextStore.inEach_agrees (ContextStore.genericDefinitionInImports_agrees (store.size + 1))
      hdepth hnone
  rw [ContextStore.genericDefinitionInImports, if_neg List.not_mem_nil, List.nil_append,
    inEach_beside (genericDefinitionInImports_beside hown (store.size + 1)), Option.map_map]
  generalize store.inEach generic (store.genericDefinitionInImports generic (store.size + 1)) []
    (store.directlyImportedModels model) = result at hagrees
  cases result with
  | none => cases hagrees
  | some answer =>
    obtain ⟨found, visited⟩ := answer
    refine ⟨found, rfl, ?_⟩
    cases found with
    | none => exact ⟨visited, hagrees.1, List.findSome?_eq_none_iff.mpr hagrees.2⟩
    | some definition => exact hagrees

end Imported

end Ilic.Semantics.GenericDomains
