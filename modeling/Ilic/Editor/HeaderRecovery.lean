import Ilic.Foundation.Insertions
import Ilic.Foundation.Text

/-! # Bare model headers

While a model is being written, its header may have no issuer and no version yet.  The token
stream of the editor puts them in front of the equals sign, so that the parser goes on.
-/

namespace Ilic.Editor
open Foundation.Insertions

/-- The types of tokens that the recovery looks at or makes. -/
inductive TokenType where
  | equal
  | model
  | name
  | lparen
  | rparen
  | noIncrementalTransfer
  | att
  | string
  | version
  | other (type : ℕ)
deriving DecidableEq

/-- A token of the stream.  Where the code has `INVALID_INDEX`, there is no index. -/
structure Token where
  type : TokenType
  text : Text
  channel : ℕ
  startIndex : Option ℕ
  stopIndex : Option ℕ
  line : ℕ
  charPositionInLine : ℕ
  tokenIndex : Option ℕ
deriving DecidableEq

/-- A token from the lexer, which stands in the text. -/
abbrev SourceToken := { t : Token // t.startIndex.isSome = true }

def Token.isDefault (t : Token) : Bool := t.channel = 0

/-- The tokens with their numbers. -/
def numbered (tokens : List Token) : List Token :=
  tokens.mapIdx fun i t => { t with tokenIndex := some i }

/-- `fill` of the stream. -/
def fill (source : List SourceToken) : List Token := numbered (source.map Subtype.val)

section
variable (tokens : List Token)

def isDefaultAt (i : ℕ) : Bool := (tokens[i]?.map Token.isDefault).getD false

def typeAt (i : ℕ) : Option TokenType := tokens[i]?.map Token.type

/-- The loop backwards over the tokens that are not of the default channel.  It ends at the first
token in any case. -/
def previousDefault : ℕ → ℕ
  | 0 => 0
  | i + 1 => if isDefaultAt tokens i then i else previousDefault i

def nextDefault (index : ℕ) : Option ℕ :=
  ((tokens.drop (index + 1)).findIdx? Token.isDefault).map (index + 1 + ·)

/-- The end of the check forward, behind the name of the model. -/
def endsAtEqual (nextIndex : ℕ) : Bool :=
  match if typeAt tokens nextIndex = some .noIncrementalTransfer then nextDefault tokens nextIndex
      else some nextIndex with
  | none => false
  | some nextIndex => typeAt tokens nextIndex = some .equal

/-- The part in parentheses, if there is one. -/
def skipLanguage (nextIndex : ℕ) : Option ℕ :=
  if typeAt tokens nextIndex = some .lparen then
    match nextDefault tokens nextIndex with
    | none => none
    | some language =>
      if typeAt tokens language = some .name then
        match nextDefault tokens language with
        | none => none
        | some closing =>
          if typeAt tokens closing = some .rparen then nextDefault tokens closing else none
      else none
  else some nextIndex

def bareModelHeaderBefore (equalIndex : ℕ) : Bool :=
  let nameIndex := previousDefault tokens equalIndex
  if typeAt tokens nameIndex ≠ some .name then false
  else if nameIndex = 0 then false
  else
    let modelIndex := previousDefault tokens nameIndex
    if typeAt tokens modelIndex ≠ some .model then false
    else
      match nextDefault tokens modelIndex with
      | none => false
      | some nextIndex =>
        if typeAt tokens nextIndex ≠ some .name then false
        else
          match nextDefault tokens nextIndex with
          | none => false
          | some nextIndex =>
            match skipLanguage tokens nextIndex with
            | none => false
            | some nextIndex => endsAtEqual tokens nextIndex

/-- The numbers of the equals signs in front of which something is inserted. -/
def recoveredEquals : List ℕ :=
  (List.range tokens.length).filter fun index =>
    typeAt tokens index = some .equal && isDefaultAt tokens index &&
      bareModelHeaderBefore tokens index

end

/-- `addSynthetic`. -/
def synthetic (type : TokenType) (text : Text) (location : Token) : Token where
  type := type
  text := text
  channel := 0
  startIndex := none
  stopIndex := none
  line := location.line
  charPositionInLine := location.charPositionInLine
  tokenIndex := none

/-- The tokens that are missing in front of an equals sign. -/
def missing (equal : Token) : List Token :=
  [synthetic .att "AT".toList equal, synthetic .string "\"\"".toList equal,
    synthetic .version "VERSION".toList equal, synthetic .string "\"1\"".toList equal]

/-- The tokens of the stream, and whether it has recovered a header. -/
structure RecoveryStream where
  tokens : List Token
  recovered : Bool

def recoverBareModelHeaders (source : List SourceToken) : RecoveryStream :=
  let tokens := fill source
  if recoveredEquals tokens = [] then ⟨tokens, false⟩
  else ⟨numbered (insertBefore (· ∈ recoveredEquals tokens) missing tokens), true⟩

/-! ## Headers -/

/-- The types of the tokens of a header, with the optional parts. -/
def headers : List (List TokenType) :=
  [[.model, .name],
    [.model, .name, .lparen, .name, .rparen],
    [.model, .name, .noIncrementalTransfer],
    [.model, .name, .lparen, .name, .rparen, .noIncrementalTransfer]]

/-- The types of the tokens of the default channel in front of a place. -/
def defaultsBefore (tokens : List Token) (i : ℕ) : List TokenType :=
  ((tokens.take i).filter Token.isDefault).map Token.type

/-- An equals sign of the default channel with a bare header in front of it. -/
def EndsHeader (tokens : List Token) (i : ℕ) : Prop :=
  typeAt tokens i = some .equal ∧ isDefaultAt tokens i = true ∧
    ∃ header ∈ headers, header <:+ defaultsBefore tokens i

instance (tokens : List Token) : DecidablePred (EndsHeader tokens) := fun _ =>
  inferInstanceAs (Decidable (_ ∧ _ ∧ _))

/-! ## The default channel around a place -/

section
variable {tokens : List Token} {i j : ℕ}

theorem defaultsBefore_succ (i : ℕ) : defaultsBefore tokens (i + 1) =
    defaultsBefore tokens i ++ if isDefaultAt tokens i then (typeAt tokens i).toList else [] := by
  rw [defaultsBefore, List.take_add_one, List.filter_append, List.map_append, defaultsBefore]
  congr 1
  cases h : tokens[i]? with
  | none => simp [isDefaultAt, h]
  | some t => cases hd : t.isDefault <;> simp [isDefaultAt, typeAt, h, hd]

/-- The loop backwards finds the last token of the default channel, if there is one. -/
theorem previousDefault_cases (tokens : List Token) (i : ℕ) :
    (defaultsBefore tokens i = [] ∧ previousDefault tokens i = 0 ∧
      ∀ k < i, isDefaultAt tokens k = false) ∨
    ∃ type, typeAt tokens (previousDefault tokens i) = some type ∧
      isDefaultAt tokens (previousDefault tokens i) = true ∧ previousDefault tokens i < i ∧
        defaultsBefore tokens i = defaultsBefore tokens (previousDefault tokens i) ++ [type] ∧
          ∀ k, previousDefault tokens i < k → k < i → isDefaultAt tokens k = false := by
  induction i with
  | zero => exact .inl ⟨rfl, rfl, fun k hk => absurd hk (Nat.not_lt_zero k)⟩
  | succ i ih =>
    rw [defaultsBefore_succ]
    cases hdefault : isDefaultAt tokens i with
    | true =>
      right
      have hprevious : previousDefault tokens (i + 1) = i := by
        rw [previousDefault, hdefault]
        rfl
      obtain ⟨t, ht⟩ : ∃ t, tokens[i]? = some t := by
        cases ht : tokens[i]? with
        | none => simp [isDefaultAt, ht] at hdefault
        | some t => exact ⟨t, rfl⟩
      rw [hprevious]
      refine ⟨t.type, by simp [typeAt, ht], hdefault, Nat.lt_succ_self i, by simp [typeAt, ht], ?_⟩
      intro k hlower hupper
      omega
    | false =>
      have hprevious : previousDefault tokens (i + 1) = previousDefault tokens i := by
        rw [previousDefault, hdefault]
        rfl
      rw [hprevious]
      simp only [Bool.false_eq_true, if_false, List.append_nil]
      rcases ih with ⟨hnil, hzero, hnone⟩ | ⟨type, htype, hfound, hlt, hbefore, hnone⟩
      · refine .inl ⟨hnil, hzero, fun k hk => ?_⟩
        rcases Nat.lt_succ_iff_lt_or_eq.mp hk with hk | rfl
        · exact hnone k hk
        · exact hdefault
      · refine .inr ⟨type, htype, hfound, by omega, hbefore, fun k hlower hupper => ?_⟩
        rcases Nat.lt_succ_iff_lt_or_eq.mp hupper with hk | rfl
        · exact hnone k hlower hk
        · exact hdefault

/-- The next token of the default channel, if none is between. -/
theorem nextDefault_eq (hlt : j < i) (hdefault : isDefaultAt tokens i = true)
    (hnone : ∀ k, j < k → k < i → isDefaultAt tokens k = false) :
    nextDefault tokens j = some i := by
  have hlength : i < tokens.length := by
    by_contra hge
    rw [isDefaultAt, List.getElem?_eq_none (not_lt.mp hge)] at hdefault
    cases hdefault
  have hfind : (tokens.drop (j + 1)).findIdx? Token.isDefault = some (i - (j + 1)) := by
    rw [List.findIdx?_eq_some_iff_getElem]
    refine ⟨by rw [List.length_drop]; omega, ?_, fun k hk => ?_⟩
    · simpa [isDefaultAt, hlength, show j + 1 + (i - (j + 1)) = i by omega] using hdefault
    · have hbetween := hnone (j + 1 + k) (by omega) (by omega)
      simpa [isDefaultAt, show j + 1 + k < tokens.length by omega] using hbetween
  rw [nextDefault, hfind]
  simp only [Option.map_some, Option.some.injEq]
  omega

/-! ## What the code takes for a header -/

/-- The first token is `MODEL` on a hidden channel, and the only other one in front is a name. -/
def HiddenModel (tokens : List Token) (i : ℕ) : Prop :=
  typeAt tokens 0 = some .model ∧ isDefaultAt tokens 0 = false ∧ defaultsBefore tokens i = [.name]

/-- Behind the name of a model the check forward comes to the equals sign at once. -/
theorem forward_of_equal (hequal : typeAt tokens i = some .equal) :
    (match skipLanguage tokens i with
      | none => false
      | some nextIndex => endsAtEqual tokens nextIndex) = true := by
  simp [skipLanguage, endsAtEqual, hequal]

theorem bareModelHeaderBefore_of_name (hequal : typeAt tokens i = some .equal)
    (hname : typeAt tokens (previousDefault tokens i) = some .name)
    (hzero : previousDefault tokens i ≠ 0)
    (hnext : nextDefault tokens (previousDefault tokens (previousDefault tokens i)) =
      some (previousDefault tokens i))
    (hnext' : nextDefault tokens (previousDefault tokens i) = some i) :
    bareModelHeaderBefore tokens i = true ↔
      typeAt tokens (previousDefault tokens (previousDefault tokens i)) = some .model := by
  have hforward := forward_of_equal hequal
  by_cases hmodel : typeAt tokens (previousDefault tokens (previousDefault tokens i)) = some .model
  · simp only [bareModelHeaderBefore, hname, hzero, hmodel, hnext, hnext', ne_eq,
      not_true_eq_false, if_false, iff_true]
    exact hforward
  · simp [bareModelHeaderBefore, hname, hzero, hmodel]

theorem suffix_concat_iff {α : Type} {l m : List α} {a b : α} :
    l ++ [a] <:+ m ++ [b] ↔ a = b ∧ l <:+ m := by
  rw [← List.reverse_prefix, List.reverse_append, List.reverse_append, List.reverse_singleton,
    List.reverse_singleton, List.singleton_append, List.singleton_append, List.cons_prefix_cons,
    List.reverse_prefix]

/-- The code recovers a header without optional parts, and one whose `MODEL` is hidden at the
start of the stream. -/
theorem bareModelHeaderBefore_iff (hequal : typeAt tokens i = some .equal)
    (hdefault : isDefaultAt tokens i = true) :
    bareModelHeaderBefore tokens i = true ↔
      [.model, .name] <:+ defaultsBefore tokens i ∨ HiddenModel tokens i := by
  rcases previousDefault_cases tokens i with
    ⟨hnil, hzero, -⟩ | ⟨type, htype, hfound, hlt, hbefore, hnone⟩
  · have hfalse : bareModelHeaderBefore tokens i = false := by
      simp [bareModelHeaderBefore, hzero]
    simp [hfalse, hnil, HiddenModel]
  · have hnext' := nextDefault_eq hlt hdefault hnone
    by_cases hname : type = .name
    swap
    · have hfalse : bareModelHeaderBefore tokens i = false := by
        simp [bareModelHeaderBefore, htype, hname]
      rw [hfalse, hbefore, HiddenModel, hbefore, show [TokenType.model, .name] = [.model] ++ [.name]
        from rfl, suffix_concat_iff]
      have hlast : defaultsBefore tokens (previousDefault tokens i) ++ [type] ≠ [.name] := by
        intro heq
        exact hname (List.append_inj_right' (heq.trans (List.nil_append _).symm) rfl |>
          List.singleton_inj.mp)
      simp [Ne.symm hname, hlast]
    · subst hname
      rcases previousDefault_cases tokens (previousDefault tokens i) with
        ⟨hnil, hzero, hhidden⟩ | ⟨type', htype', hfound', hlt', hbefore', hnone'⟩
      · rw [hnil] at hbefore
        by_cases hfirst : previousDefault tokens i = 0
        · have hfalse : bareModelHeaderBefore tokens i = false := by
            simp [bareModelHeaderBefore, hfirst]
          have hname : typeAt tokens 0 = some .name := hfirst ▸ htype
          simp [hfalse, hbefore, HiddenModel, hname, List.suffix_cons_iff]
        · have hpositive := Nat.pos_of_ne_zero hfirst
          have hnext := nextDefault_eq hpositive hfound fun k _ hk => hhidden k hk
          rw [← hzero] at hnext
          rw [bareModelHeaderBefore_of_name hequal htype hfirst hnext hnext', hbefore, HiddenModel,
            hbefore, hzero]
          simp [hhidden 0 hpositive, List.suffix_cons_iff]
      · have hnext := nextDefault_eq hlt' hfound hnone'
        have hfirst : previousDefault tokens i ≠ 0 := by omega
        rw [bareModelHeaderBefore_of_name hequal htype hfirst hnext hnext', hbefore, hbefore',
          HiddenModel, hbefore, hbefore', htype', show [TokenType.model, .name] =
            [] ++ [.model] ++ [.name] from rfl, suffix_concat_iff, suffix_concat_iff]
        have hlong : defaultsBefore tokens (previousDefault tokens (previousDefault tokens i)) ++
            [type'] ++ [TokenType.name] ≠ [.name] := fun heq => by
          simpa using congrArg List.length heq
        simp only [Option.some.injEq, true_and, List.nil_suffix, and_true, hlong, and_false, or_false]
        exact eq_comm

end

/-! ## The numbers of the tokens -/

def Token.unnumbered (t : Token) : Token := { t with tokenIndex := none }

theorem map_unnumbered_numbered (tokens : List Token) :
    (numbered tokens).map Token.unnumbered = tokens.map Token.unnumbered := by
  ext1 i
  rw [List.getElem?_map, List.getElem?_map, numbered, List.getElem?_mapIdx]
  cases tokens[i]? <;> rfl

/-- Numbers are given from the start, whatever numbers there were. -/
theorem numbered_congr {tokens tokens' : List Token}
    (h : tokens.map Token.unnumbered = tokens'.map Token.unnumbered) :
    numbered tokens = numbered tokens' := by
  have hall : ∀ tokens : List Token, numbered tokens = numbered (tokens.map Token.unnumbered) := by
    intro tokens
    ext1 i
    rw [numbered, numbered, List.getElem?_mapIdx, List.getElem?_mapIdx, List.getElem?_map]
    cases tokens[i]? <;> rfl
  rw [hall tokens, h, ← hall tokens']

theorem numbered_numbered (tokens : List Token) : numbered (numbered tokens) = numbered tokens :=
  numbered_congr (map_unnumbered_numbered tokens)

/-- The token is one of the lexer. -/
def Token.fromSource (t : Token) : Bool := t.startIndex.isSome

theorem filter_fromSource_numbered (tokens : List Token) :
    numbered ((numbered tokens).filter Token.fromSource) = numbered (tokens.filter Token.fromSource) := by
  apply numbered_congr
  have hfilter : ∀ tokens : List Token, (tokens.filter Token.fromSource).map Token.unnumbered =
      (tokens.map Token.unnumbered).filter Token.fromSource := by
    intro tokens
    rw [List.filter_map]
    rfl
  rw [hfilter, map_unnumbered_numbered, ← hfilter]

theorem map_fromSource_numbered (tokens : List Token) :
    (numbered tokens).map Token.fromSource = tokens.map Token.fromSource := by
  ext1 i
  rw [List.getElem?_map, List.getElem?_map, numbered, List.getElem?_mapIdx]
  cases tokens[i]? <;> rfl

theorem fromSource_of_mem_fill {source : List SourceToken} {t : Token} (h : t ∈ fill source) :
    t.fromSource = true := by
  rw [fill, numbered, List.mem_mapIdx] at h
  obtain ⟨i, hi, rfl⟩ := h
  have hmem := List.getElem_mem hi
  obtain ⟨u, -, hu⟩ := List.mem_map.mp hmem
  exact (congrArg Token.fromSource hu).symm.trans u.property

theorem not_fromSource_of_mem_missing {t : Token} (equal : Token) (h : t ∈ missing equal) :
    t.fromSource = false := by
  simp only [missing, List.mem_cons, List.not_mem_nil, or_false] at h
  rcases h with rfl | rfl | rfl | rfl <;> rfl

/-! ## Where the recovery is exact -/

variable {source : List SourceToken}

/-- The tokens are numbered one after the other, without the synthetic ones they are those of the
lexer, and the synthetic ones stand exactly in front of the equals signs behind a bare header. -/
def RecoversExactly (source : List SourceToken) : Prop :=
  let tokens := (recoverBareModelHeaders source).tokens
  numbered tokens = tokens ∧ numbered (tokens.filter Token.fromSource) = fill source ∧
    tokens = numbered (insertBefore (EndsHeader (fill source)) missing (fill source))

theorem numbered_fill (source : List SourceToken) : numbered (fill source) = fill source :=
  numbered_numbered _

theorem insertFrom_none {marked : ℕ → Prop} [DecidablePred marked] (h : ∀ i, ¬marked i) (k : ℕ)
    (tokens : List Token) : insertFrom marked missing k tokens = tokens := by
  induction tokens generalizing k with
  | nil => rfl
  | cons t tokens ih =>
    rw [insertFrom, if_neg (h k), ih]
    rfl

theorem recover_tokens (source : List SourceToken) : (recoverBareModelHeaders source).tokens =
    numbered (insertBefore (· ∈ recoveredEquals (fill source)) missing (fill source)) := by
  by_cases hnil : recoveredEquals (fill source) = []
  · have hnone : ∀ i, i ∉ recoveredEquals (fill source) := by simp [hnil]
    rw [recoverBareModelHeaders, if_pos hnil, insertBefore, insertFrom_none hnone, numbered_fill]
  · rw [recoverBareModelHeaders, if_neg hnil]

theorem mem_recoveredEquals {tokens : List Token} {i : ℕ} : i ∈ recoveredEquals tokens ↔
    typeAt tokens i = some .equal ∧ isDefaultAt tokens i = true ∧
      ([.model, .name] <:+ defaultsBefore tokens i ∨ HiddenModel tokens i) := by
  rw [recoveredEquals, List.mem_filter, List.mem_range, Bool.and_eq_true, Bool.and_eq_true,
    decide_eq_true_eq, and_assoc]
  constructor
  · rintro ⟨-, hequal, hdefault, hbefore⟩
    exact ⟨hequal, hdefault, (bareModelHeaderBefore_iff hequal hdefault).mp hbefore⟩
  · rintro ⟨hequal, hdefault, hbefore⟩
    refine ⟨?_, hequal, hdefault, (bareModelHeaderBefore_iff hequal hdefault).mpr hbefore⟩
    by_contra hge
    rw [typeAt, List.getElem?_eq_none (not_lt.mp hge)] at hequal
    cases hequal

theorem recover_exact_iff_marks : RecoversExactly source ↔
    ∀ i, i ∈ recoveredEquals (fill source) ↔ EndsHeader (fill source) i := by
  have hfrom : ∀ t ∈ fill source, t.fromSource = true := fun t ht => fromSource_of_mem_fill ht
  have hmissing : ∀ t, ∀ u ∈ missing t, u.fromSource = false := fun t u hu =>
    not_fromSource_of_mem_missing t hu
  have hne : ∀ t, missing t ≠ [] := fun t => List.cons_ne_nil _ _
  constructor
  · rintro ⟨-, -, heq⟩ i
    rw [recover_tokens] at heq
    have hmap := congrArg (List.map Token.fromSource) heq
    rw [map_fromSource_numbered, map_fromSource_numbered] at hmap
    by_cases hi : i < (fill source).length
    · exact marked_iff_of_map_eq hfrom hmissing hne hmap i (Nat.zero_le i) (by omega)
    · have hnone : typeAt (fill source) i = none := by
        rw [typeAt, List.getElem?_eq_none (not_lt.mp hi)]
        rfl
      simp [mem_recoveredEquals, EndsHeader, hnone]
  · intro h
    rw [RecoversExactly, recover_tokens]
    refine ⟨numbered_numbered _, ?_, ?_⟩
    · rw [filter_fromSource_numbered, insertBefore, filter_insertFrom hfrom hmissing,
        numbered_fill]
    · exact congrArg numbered (insertFrom_congr fun i _ _ => h i)

/-- A header with an optional part. -/
def OptionalHeader (tokens : List Token) (i : ℕ) : Prop :=
  ∃ header ∈ headers.tail, header <:+ defaultsBefore tokens i

/-- The recovery is exact unless a header with optional parts, or one whose `MODEL` is hidden,
stands in front of an equals sign. -/
theorem recoversExactly_iff (source : List SourceToken) : RecoversExactly source ↔
    ∀ i, typeAt (fill source) i = some .equal → isDefaultAt (fill source) i = true →
      ¬OptionalHeader (fill source) i ∧ ¬HiddenModel (fill source) i := by
  rw [recover_exact_iff_marks]
  refine forall_congr' fun i => ?_
  have hheaders : (∃ header ∈ headers, header <:+ defaultsBefore (fill source) i) ↔
      [.model, .name] <:+ defaultsBefore (fill source) i ∨ OptionalHeader (fill source) i :=
    List.exists_mem_cons_iff _ _ _
  have hoptional : [.model, .name] <:+ defaultsBefore (fill source) i →
      ¬OptionalHeader (fill source) i := by
    rintro hbare ⟨header, hmem, hheader⟩
    have hapart : (headers.tail.all fun header =>
        !(header.isSuffixOf [.model, .name]) && !([.model, .name] : List TokenType).isSuffixOf header) =
          true := by decide
    have hnot := List.all_eq_true.mp hapart header hmem
    rw [Bool.and_eq_true, Bool.not_eq_true', Bool.not_eq_true'] at hnot
    rcases List.suffix_or_suffix_of_suffix hheader hbare with h | h
    · rw [List.isSuffixOf_iff_suffix.mpr h] at hnot
      cases hnot.1
    · rw [List.isSuffixOf_iff_suffix.mpr h] at hnot
      cases hnot.2
  have hhidden : HiddenModel (fill source) i → ¬∃ header ∈ headers,
      header <:+ defaultsBefore (fill source) i := by
    rintro ⟨-, -, hbefore⟩ ⟨header, hmem, hheader⟩
    have hlong : (headers.all fun header => 2 ≤ header.length) = true := by decide
    have hlength := hheader.length_le
    have htwo := of_decide_eq_true (List.all_eq_true.mp hlong header hmem)
    rw [hbefore, List.length_singleton] at hlength
    omega
  rw [mem_recoveredEquals, EndsHeader]
  rw [hheaders] at hhidden ⊢
  by_cases hequal : typeAt (fill source) i = some .equal
  swap
  · simp [hequal]
  by_cases hdefault : isDefaultAt (fill source) i = true
  swap
  · simp [hdefault]
  simp only [hequal, hdefault, true_and, true_imp_iff]
  tauto

/-- The token of a text in a line. -/
def sourceToken (type : TokenType) (text : Text) (startIndex line : ℕ) : SourceToken :=
  ⟨⟨type, text, 0, some startIndex, some (startIndex + text.length - 1), line, startIndex, none⟩, rfl⟩

/-- `MODEL M (de) =`. -/
def languageHeader : List SourceToken :=
  [sourceToken .model "MODEL".toList 0 1, sourceToken .name "M".toList 6 1,
    sourceToken .lparen "(".toList 8 1, sourceToken .name "de".toList 9 1,
    sourceToken .rparen ")".toList 11 1, sourceToken .equal "=".toList 13 1]

/-- A header with a language is left as it is. -/
theorem languageHeader_not_recovered :
    (recoverBareModelHeaders languageHeader).recovered = false ∧
      EndsHeader (fill languageHeader) 5 ∧ ¬RecoversExactly languageHeader := by
  have hends : EndsHeader (fill languageHeader) 5 := by decide
  refine ⟨by decide, hends, fun h => ?_⟩
  have hmem := (recover_exact_iff_marks.mp h 5).mpr hends
  revert hmem
  decide

end Ilic.Editor
