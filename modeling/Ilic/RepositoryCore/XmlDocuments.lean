import Ilic.RepositoryCore.XmlDecoder

/-! # Documents

A document is a tree of start tags and end tags, with characters, references and closed sections
between them.  Its names, its tags and the characters between them are read as they are written.
-/

namespace Ilic.RepositoryCore
open Foundation Foundation.Scanner

/-! ## Characters and references -/

inductive Datum where
  | char (c : UInt16)
  | reference (entity : JsString)

def Datum.text : Datum → JsString
  | char c => [c]
  | reference entity => unit '&' :: (entity ++ [unit ';'])

def Datum.value : Datum → JsString
  | char c => [c]
  | reference entity => (entityValue entity).toOption.getD []

def Datum.WellFormed : Datum → Prop
  | char c => c ≠ unit '&'
  | reference entity => unit ';' ∉ entity ∧ (entityValue entity).isOk = true

/-- Inside of an entity everything up to the semicolon belongs to it. -/
theorem decodeFrom_some_ok_iff {entity s output : JsString} :
    decodeFrom (some entity) s = .ok output ↔ ∃ body rest value later,
      s = body ++ unit ';' :: rest ∧ unit ';' ∉ body ∧ entityValue (entity ++ body) = .ok value ∧
        decodeFrom none rest = .ok later ∧ output = value ++ later := by
  induction s generalizing entity with
  | nil =>
    constructor
    · intro h
      cases h
    · rintro ⟨body, rest, value, later, heq, -⟩
      cases body <;> cases heq
  | cons c s ih =>
    rw [decodeFrom]
    by_cases hc : c = unit ';'
    · rw [if_pos hc]
      constructor
      · intro h
        cases hvalue : entityValue entity with
        | error e =>
          rw [hvalue] at h
          cases h
        | ok value =>
          rw [hvalue] at h
          cases hlater : decodeFrom none s with
          | error e =>
            rw [hlater] at h
            cases h
          | ok later =>
            rw [hlater] at h
            cases h
            exact ⟨[], s, value, later, by rw [hc, List.nil_append], List.not_mem_nil,
              by rw [List.append_nil, hvalue], hlater, rfl⟩
      · rintro ⟨body, rest, value, later, heq, hbody, hvalue, hlater, rfl⟩
        cases body with
        | nil =>
          obtain ⟨-, rfl⟩ := List.cons.inj heq
          rw [List.append_nil] at hvalue
          rw [hvalue, hlater]
        | cons d body =>
          obtain ⟨rfl, -⟩ := List.cons.inj heq
          exact absurd (List.mem_cons.mpr (.inl hc.symm)) hbody
    · rw [if_neg hc, ih]
      constructor
      · rintro ⟨body, rest, value, later, rfl, hbody, hvalue, hlater⟩
        refine ⟨c :: body, rest, value, later, rfl, ?_, ?_, hlater⟩
        · rw [List.mem_cons, not_or]
          exact ⟨fun h => hc h.symm, hbody⟩
        · rwa [List.append_assoc, List.singleton_append] at hvalue
      · rintro ⟨body, rest, value, later, heq, hbody, hvalue, hlater⟩
        cases body with
        | nil =>
          obtain ⟨rfl, -⟩ := List.cons.inj heq
          exact absurd rfl hc
        | cons d body =>
          obtain ⟨rfl, rfl⟩ := List.cons.inj heq
          refine ⟨body, rest, value, later, rfl, ?_, ?_, hlater⟩
          · exact fun h => hbody (List.mem_cons_of_mem _ h)
          · rwa [List.append_assoc, List.singleton_append]

/-- A datum is decoded before what stands behind it. -/
theorem decodeEntities_text_append {d : Datum} (h : d.WellFormed) (s : JsString) :
    decodeEntities (d.text ++ s) =
      match decodeEntities s with
      | .error e => .error e
      | .ok output => .ok (d.value ++ output) := by
  cases d with
  | char c =>
    rw [decodeEntities, Datum.text, List.singleton_append, decodeFrom, if_neg h]
    rfl
  | reference entity =>
    obtain ⟨hsemicolon, hok⟩ := h
    have hread : ∀ before body : JsString, unit ';' ∉ body →
        decodeFrom (some before) (body ++ unit ';' :: s) =
          decodeFrom (some (before ++ body)) (unit ';' :: s) := by
      intro before body hbody
      induction body generalizing before with
      | nil => rw [List.nil_append, List.append_nil]
      | cons c body ih =>
        rw [List.mem_cons, not_or] at hbody
        rw [List.cons_append, decodeFrom, if_neg (Ne.symm hbody.1), ih _ hbody.2, List.append_assoc,
          List.singleton_append]
    cases hvalue : entityValue entity with
    | error e =>
      rw [hvalue] at hok
      cases hok
    | ok value =>
      rw [decodeEntities, Datum.text, List.cons_append, List.append_assoc, decodeFrom, if_pos rfl,
        List.singleton_append, hread [] entity hsemicolon, List.nil_append, decodeFrom, if_pos rfl,
        hvalue]
      simp only [Datum.value, hvalue, decodeEntities]
      cases decodeFrom none s <;> rfl

/-- What is decoded consists of characters and references. -/
theorem exists_data {s output : JsString} (h : decodeEntities s = .ok output) :
    ∃ data : List Datum, (∀ d ∈ data, d.WellFormed) ∧ data.flatMap Datum.text = s ∧
      data.flatMap Datum.value = output := by
  induction hlength : s.length using Nat.strongRecOn generalizing s output with
  | ind n ih =>
    cases s with
    | nil =>
      cases h
      exact ⟨[], by simp, rfl, rfl⟩
    | cons c s =>
      rw [List.length_cons] at hlength
      rw [decodeEntities, decodeFrom] at h
      split at h
      case isTrue hc =>
        obtain ⟨entity, rest, value, later, rfl, hentity, hvalue, hlater, rfl⟩ :=
          decodeFrom_some_ok_iff.mp h
        rw [List.nil_append] at hvalue
        obtain ⟨data, hdata, htext, houtput⟩ := ih rest.length (by simp at hlength; omega) hlater rfl
        refine ⟨.reference entity :: data, ?_, ?_, ?_⟩
        · rw [List.forall_mem_cons]
          exact ⟨⟨hentity, by rw [hvalue]; rfl⟩, hdata⟩
        · rw [List.flatMap_cons, htext, Datum.text, hc]
          simp
        · rw [List.flatMap_cons, houtput, Datum.value, hvalue]
          rfl
      case isFalse hc =>
        cases hlater : decodeFrom none s with
        | error e =>
          rw [hlater] at h
          cases h
        | ok later =>
          rw [hlater] at h
          cases h
          obtain ⟨data, hdata, htext, houtput⟩ := ih s.length (by omega) hlater rfl
          refine ⟨.char c :: data, ?_, ?_, ?_⟩
          · rw [List.forall_mem_cons]
            exact ⟨hc, hdata⟩
          · rw [List.flatMap_cons, htext, Datum.text, List.singleton_append]
          · rw [List.flatMap_cons, houtput, Datum.value, List.singleton_append]

theorem decodeEntities_data {data : List Datum} (h : ∀ d ∈ data, d.WellFormed) :
    decodeEntities (data.flatMap Datum.text) = .ok (data.flatMap Datum.value) := by
  induction data with
  | nil => rfl
  | cons d data ih =>
    rw [List.forall_mem_cons] at h
    rw [List.flatMap_cons, decodeEntities_text_append h.1, ih h.2, List.flatMap_cons]

/-! ## Names and spaces -/

def IsXmlName : JsString → Prop
  | [] => False
  | c :: rest => isNameStart c = true ∧ ∀ d ∈ rest, isNamePart d = true

instance : DecidablePred IsXmlName
  | [] => isFalse id
  | _ :: _ => inferInstanceAs (Decidable (_ ∧ _))

def AllSpace (s : JsString) : Prop := ∀ c ∈ s, isSpace c = true

instance : DecidablePred AllSpace := fun _ => inferInstanceAs (Decidable (∀ c ∈ _, _))

theorem not_isSpace_of_isNamePart {c : UInt16} (h : isNamePart c = true) : isSpace c = false := by
  simp only [isNamePart, isNameStart, isLetter, isDigit, unit, Bool.or_eq_true, Bool.and_eq_true,
    decide_eq_true_eq, UInt16.le_iff_toNat_le, ← UInt16.toNat_inj] at h
  simp only [isSpace, Bool.or_eq_false_iff, Bool.and_eq_false_iff, decide_eq_false_iff_not,
    UInt16.le_iff_toNat_le, ← UInt16.toNat_inj]
  simp at h ⊢
  omega

theorem isNamePart_of_isNameStart {c : UInt16} (h : isNameStart c = true) : isNamePart c = true := by
  rw [isNamePart, h]
  rfl

theorem not_isSpace_of_isNameStart {c : UInt16} (h : isNameStart c = true) : isSpace c = false :=
  not_isSpace_of_isNamePart (isNamePart_of_isNameStart h)

theorem skipSpace_append {space rest : JsString} (hspace : AllSpace space)
    (hrest : ∀ c ∈ rest.head?, isSpace c = false) : skipSpace (space ++ rest) = rest :=
  Text.dropWhile_append_stop hspace hrest

/-- What is skipped is space, and no space is left in front. -/
theorem exists_skipped (s : JsString) : ∃ space, AllSpace space ∧ s = space ++ skipSpace s ∧
    ∀ c ∈ (skipSpace s).head?, isSpace c = false := by
  refine ⟨s.takeWhile isSpace, fun c hc => List.mem_takeWhile_imp hc,
    List.takeWhile_append_dropWhile.symm, fun c hc => ?_⟩
  have hnot := List.head?_dropWhile_not isSpace s
  rw [skipSpace, Option.mem_def] at hc
  rw [hc] at hnot
  simpa using hnot

theorem parseName_append {name rest : JsString} (hname : IsXmlName name)
    (hrest : ∀ c ∈ rest.head?, isNamePart c = false) :
    parseName (name ++ rest) = .ok (name, rest) := by
  cases name with
  | nil => exact hname.elim
  | cons c name =>
    rw [List.cons_append, parseName, if_pos hname.1, Text.takeWhile_append_stop hname.2 hrest,
      Text.dropWhile_append_stop hname.2 hrest]

theorem eq_append_of_parseName {s name rest : JsString} (h : parseName s = .ok (name, rest)) :
    s = name ++ rest ∧ IsXmlName name ∧ ∀ c ∈ rest.head?, isNamePart c = false := by
  cases s with
  | nil => cases h
  | cons c s =>
    rw [parseName] at h
    split at h
    case isTrue hc =>
      cases h
      refine ⟨?_, ⟨hc, fun d hd => List.mem_takeWhile_imp hd⟩, fun d hd => ?_⟩
      · rw [List.cons_append, List.takeWhile_append_dropWhile]
      · have hnot := List.head?_dropWhile_not isNamePart s
        rw [Option.mem_def] at hd
        rw [hd] at hnot
        simpa using hnot
    case isFalse => cases h

/-! ## Start tags -/

/-- An attribute with the space around its equals sign and behind it. -/
structure Attribute where
  name : JsString
  before : JsString
  behind : JsString
  quote : UInt16
  data : List Datum
  space : JsString

namespace Attribute

def text (a : Attribute) : JsString :=
  a.name ++ (a.before ++ unit '=' :: (a.behind ++ a.quote :: (a.data.flatMap Datum.text ++
    a.quote :: a.space)))

structure WellFormed (a : Attribute) : Prop where
  name : IsXmlName a.name
  before : AllSpace a.before
  behind : AllSpace a.behind
  quote : isQuote a.quote = true
  data : ∀ d ∈ a.data, d.WellFormed
  closed : a.quote ∉ a.data.flatMap Datum.text
  space : AllSpace a.space

end Attribute

/-- The attributes take everything up to the end of the tag. -/
def AtTagEnd (rest : JsString) : Prop :=
  rest.head? = some (unit '>') ∨ (js "/>").isPrefixOf rest = true

theorem exists_of_selfClosing {rest : JsString} (h : (js "/>").isPrefixOf rest = true) :
    ∃ later, rest = unit '/' :: unit '>' :: later := by
  obtain ⟨later, hlater⟩ := List.isPrefixOf_iff_prefix.mp h
  exact ⟨later, hlater.symm⟩

theorem isQuote_iff {c : UInt16} : isQuote c = true ↔ c = unit '"' ∨ c = unit '\'' := by
  rw [isQuote, Bool.or_eq_true, decide_eq_true_eq, decide_eq_true_eq]

theorem cutAt_singleton {quote : UInt16} {s before behind : JsString} :
    cutAt [quote] s = some (before, behind) ↔
      s = before ++ quote :: behind ∧ quote ∉ before := by
  rw [cutAt_iff (List.cons_ne_nil _ _), EndsAtFirst, List.dropLast_singleton, List.append_nil,
    List.append_assoc, List.singleton_append, List.singleton_infix_iff]

theorem readAttribute_append {a : Attribute} {rest : JsString} (h : a.WellFormed)
    (hrest : ∀ c ∈ rest.head?, isSpace c = false) : readAttribute (a.text ++ rest) = .ok rest := by
  have hequals : ∀ s : JsString, ∀ c ∈ (unit '=' :: s).head?, isSpace c = false := by
    intro s c hc
    cases hc
    decide
  have hquote : ∀ s : JsString, ∀ c ∈ (a.quote :: s).head?, isSpace c = false := by
    intro s c hc
    cases hc
    rcases isQuote_iff.mp h.quote with hq | hq <;> rw [hq] <;> decide
  have hname : ∀ s : JsString, ∀ c ∈ (a.before ++ unit '=' :: s).head?, isNamePart c = false := by
    intro s c hc
    cases hbefore : a.before with
    | nil =>
      rw [hbefore] at hc
      cases hc
      decide
    | cons d before =>
      rw [hbefore] at hc
      cases hc
      have hspace := h.before c (by rw [hbefore]; exact List.mem_cons_self)
      apply Bool.eq_false_iff.mpr
      intro hpart
      rw [not_isSpace_of_isNamePart hpart] at hspace
      cases hspace
  simp only [Attribute.text, List.append_assoc, List.cons_append]
  rw [readAttribute, parseName_append h.name (hname _)]
  simp only [skipSpace_append h.before (hequals _), if_pos, skipSpace_append h.behind (hquote _)]
  rw [readValue, if_neg (by rw [h.quote]; decide), cutAt_singleton.mpr ⟨rfl, h.closed⟩]
  simp only [decodeEntities_data h.data, skipSpace_append h.space hrest]

theorem exists_attribute {s rest : JsString} (h : readAttribute s = .ok rest) :
    ∃ a : Attribute, a.WellFormed ∧ s = a.text ++ rest ∧ ∀ c ∈ rest.head?, isSpace c = false := by
  rw [readAttribute] at h
  split at h
  case h_1 => cases h
  case h_2 name behindName hname =>
    obtain ⟨rfl, hxml, -⟩ := eq_append_of_parseName hname
    obtain ⟨before, hbefore, heq, -⟩ := exists_skipped behindName
    split at h
    case h_1 => cases h
    case h_2 c behindEquals hskip =>
      rw [hskip] at heq
      split at h
      case isFalse => cases h
      case isTrue hc =>
        obtain ⟨behind, hbehind, heq', -⟩ := exists_skipped behindEquals
        revert h heq'
        cases skipSpace behindEquals with
        | nil =>
          intro h heq'
          cases h
        | cons quote quoted =>
          intro h heq'
          rw [readValue] at h
          split at h
          case isTrue => cases h
          case isFalse hquote =>
            split at h
            case h_1 => cases h
            case h_2 value later hcut =>
              obtain ⟨rfl, hclosed⟩ := cutAt_singleton.mp hcut
              split at h
              case h_1 => cases h
              case h_2 output hdecode =>
                obtain ⟨data, hdata, rfl, -⟩ := exists_data hdecode
                obtain ⟨space, hspace, hlater, hhead⟩ := exists_skipped later
                cases h
                refine ⟨⟨name, before, behind, quote, data, space⟩,
                  ⟨hxml, hbefore, hbehind, by simpa using hquote, hdata, hclosed, hspace⟩, ?_, hhead⟩
                rw [heq, heq', hc]
                simp only [Attribute.text, List.append_assoc, List.cons_append]
                rw [← hlater]

theorem isSpace_head_text {a : Attribute} (h : a.WellFormed) (rest : JsString) :
    ∀ c ∈ (a.text ++ rest).head?, isSpace c = false := by
  intro c hc
  have hname := h.name
  rw [Attribute.text] at hc
  revert hname hc
  cases a.name with
  | nil => exact fun _ hname => hname.elim
  | cons d name =>
    intro hc hname
    cases hc
    exact not_isSpace_of_isNameStart hname.1

theorem isSpace_head_of_atTagEnd {rest : JsString} (h : AtTagEnd rest) :
    ∀ c ∈ rest.head?, isSpace c = false := by
  intro c hc
  rcases h with hclose | hslash
  · rw [hclose] at hc
    cases hc
    decide
  · obtain ⟨later, rfl⟩ := exists_of_selfClosing hslash
    cases hc
    decide

theorem not_atTagEnd_text {a : Attribute} (h : a.WellFormed) (rest : JsString) :
    ¬ (a.text ++ rest = [] ∨ (a.text ++ rest).head? = some (unit '>') ∨
      (js "/>").isPrefixOf (a.text ++ rest) = true) := by
  have hname := h.name
  rw [Attribute.text]
  revert hname
  cases a.name with
  | nil => exact fun hname => hname.elim
  | cons d name =>
    intro hname
    rintro (hnil | hclose | hslash)
    · cases hnil
    · cases hclose
      exact absurd hname.1 (by decide)
    · obtain ⟨later, hlater⟩ := exists_of_selfClosing hslash
      obtain ⟨rfl, -⟩ := List.cons.inj hlater
      exact absurd hname.1 (by decide)

theorem readAttributes_append {attributes : List Attribute} {rest : JsString} {n : ℕ}
    (h : ∀ a ∈ attributes, a.WellFormed) (hrest : AtTagEnd rest) (hn : attributes.length ≤ n) :
    readAttributes n (attributes.flatMap Attribute.text ++ rest) = .ok rest := by
  induction attributes generalizing n with
  | nil =>
    cases n with
    | zero => rfl
    | succ n =>
      rw [List.flatMap_nil, List.nil_append, readAttributes, if_pos]
      exact .inr hrest
  | cons a attributes ih =>
    rw [List.forall_mem_cons] at h
    obtain ⟨n, rfl⟩ := Nat.exists_eq_add_of_le' (Nat.lt_of_lt_of_le (Nat.succ_pos _) hn)
    have hhead : ∀ c ∈ (attributes.flatMap Attribute.text ++ rest).head?, isSpace c = false := by
      cases attributes with
      | nil => exact isSpace_head_of_atTagEnd hrest
      | cons b attributes =>
        rw [List.flatMap_cons, List.append_assoc]
        exact isSpace_head_text (h.2 b List.mem_cons_self) _
    rw [List.flatMap_cons, List.append_assoc, readAttributes, if_neg (not_atTagEnd_text h.1 _),
      readAttribute_append h.1 hhead]
    exact ih h.2 (Nat.le_of_succ_le_succ hn)

theorem exists_attributes {s rest : JsString} {n : ℕ} (h : readAttributes n s = .ok rest) :
    ∃ attributes : List Attribute, (∀ a ∈ attributes, a.WellFormed) ∧
      s = attributes.flatMap Attribute.text ++ rest := by
  induction n generalizing s with
  | zero =>
    cases h
    exact ⟨[], by simp, rfl⟩
  | succ n ih =>
    rw [readAttributes] at h
    split at h
    case isTrue =>
      cases h
      exact ⟨[], by simp, rfl⟩
    case isFalse =>
      split at h
      case h_1 => cases h
      case h_2 later hread =>
        obtain ⟨a, ha, rfl, -⟩ := exists_attribute hread
        obtain ⟨attributes, hall, rfl⟩ := ih h
        refine ⟨a :: attributes, ?_, ?_⟩
        · rw [List.forall_mem_cons]
          exact ⟨ha, hall⟩
        · rw [List.flatMap_cons, List.append_assoc]

/-- What stands between the angle brackets of a start tag. -/
structure Tag where
  name : JsString
  space : JsString
  attributes : List Attribute

namespace Tag

def text (tag : Tag) : JsString := tag.name ++ (tag.space ++ tag.attributes.flatMap Attribute.text)

structure WellFormed (tag : Tag) : Prop where
  name : IsXmlName tag.name
  space : AllSpace tag.space
  attributes : ∀ a ∈ tag.attributes, a.WellFormed
  apart : tag.attributes ≠ [] → tag.space ≠ []

end Tag

theorem Attribute.text_ne_nil {a : Attribute} (h : a.WellFormed) : a.text ≠ [] := fun hnil =>
  not_atTagEnd_text h [] (.inl (by rw [hnil, List.append_nil]))

theorem length_attributes_le {attributes : List Attribute} (h : ∀ a ∈ attributes, a.WellFormed) :
    attributes.length ≤ (attributes.flatMap Attribute.text).length := by
  induction attributes with
  | nil => exact Nat.le_refl _
  | cons a attributes ih =>
    rw [List.forall_mem_cons] at h
    have hpos := List.length_pos_of_ne_nil (Attribute.text_ne_nil h.1)
    have hle := ih h.2
    rw [List.flatMap_cons, List.length_append, List.length_cons]
    omega

/-- A start tag is read up to its end. -/
theorem read_tag {tag : Tag} {rest : JsString} (h : tag.WellFormed) (hrest : AtTagEnd rest) :
    ∃ behind, parseName (tag.text ++ rest) = .ok (tag.name, behind) ∧
      readAttributes behind.length (skipSpace behind) = .ok rest := by
  have hhead : ∀ c ∈ (tag.attributes.flatMap Attribute.text ++ rest).head?, isSpace c = false := by
    cases hattributes : tag.attributes with
    | nil => exact isSpace_head_of_atTagEnd hrest
    | cons a attributes =>
      rw [List.flatMap_cons, List.append_assoc]
      exact isSpace_head_text (h.attributes a (by rw [hattributes]; exact List.mem_cons_self)) _
  have hpart : ∀ c ∈ (tag.space ++ (tag.attributes.flatMap Attribute.text ++ rest)).head?,
      isNamePart c = false := by
    intro c hc
    cases hspace : tag.space with
    | cons d space =>
      rw [hspace] at hc
      cases hc
      apply Bool.eq_false_iff.mpr
      intro hpart
      have hc := h.space c (by rw [hspace]; exact List.mem_cons_self)
      rw [not_isSpace_of_isNamePart hpart] at hc
      cases hc
    | nil =>
      have hnone : tag.attributes = [] := by
        by_contra hsome
        exact h.apart hsome hspace
      rw [hspace, hnone] at hc
      rcases hrest with hclose | hslash
      · rw [List.flatMap_nil, List.nil_append, List.nil_append, hclose] at hc
        cases hc
        decide
      · obtain ⟨later, rfl⟩ := exists_of_selfClosing hslash
        cases hc
        decide
  refine ⟨tag.space ++ (tag.attributes.flatMap Attribute.text ++ rest), ?_, ?_⟩
  · rw [Tag.text, List.append_assoc, List.append_assoc, parseName_append h.name hpart]
  · rw [skipSpace_append h.space hhead]
    apply readAttributes_append h.attributes hrest
    have hle := length_attributes_le h.attributes
    simp only [List.length_append]
    omega

theorem exists_tag {s name behind rest : JsString} {n : ℕ} (hname : parseName s = .ok (name, behind))
    (hread : readAttributes n (skipSpace behind) = .ok rest) :
    ∃ tag : Tag, tag.WellFormed ∧ tag.name = name ∧ s = tag.text ++ rest := by
  obtain ⟨rfl, hxml, hpart⟩ := eq_append_of_parseName hname
  obtain ⟨space, hspace, heq, -⟩ := exists_skipped behind
  obtain ⟨attributes, hall, htext⟩ := exists_attributes hread
  rw [htext] at heq
  refine ⟨⟨name, space, attributes⟩, ⟨hxml, hspace, hall, ?_⟩, rfl, ?_⟩
  · rintro hsome rfl
    cases attributes with
    | nil => exact hsome rfl
    | cons a attributes =>
      have ha := (hall a List.mem_cons_self).name
      rw [List.nil_append, List.flatMap_cons, Attribute.text] at heq
      revert ha heq
      cases a.name with
      | nil => exact fun _ ha => ha.elim
      | cons c name =>
        intro heq ha
        rw [heq] at hpart
        have hnot := hpart c rfl
        rw [isNamePart_of_isNameStart ha.1] at hnot
        cases hnot
  · rw [Tag.text, List.append_assoc, List.append_assoc, ← heq]

/-! ## Content -/

theorem Node.addText_nil (node : Node) : node.addText [] = node := by
  cases node
  simp only [addText, List.append_nil]

theorem Node.addText_addText (node : Node) (s s' : JsString) :
    (node.addText s).addText s' = node.addText (s ++ s') := by
  simp only [addText, List.append_assoc]

/-- What is closed by a text of its own. -/
inductive Section where
  | comment | cdata | instruction

namespace Section

def opened : Section → JsString
  | comment => js "<!--"
  | cdata => js "<![CDATA["
  | instruction => js "<?"

def close : Section → JsString
  | comment => js "-->"
  | cdata => js "]]>"
  | instruction => js "?>"

def value : Section → JsString → JsString
  | cdata, body => body
  | _, _ => []

end Section

/-- A piece of a document without elements. -/
inductive Piece where
  | datum (d : Datum)
  | closed (kind : Section) (body : JsString)

namespace Piece

def text : Piece → JsString
  | datum d => d.text
  | closed kind body => kind.opened ++ (body ++ kind.close)

def value : Piece → JsString
  | datum d => d.value
  | closed kind body => kind.value body

def WellFormed : Piece → Prop
  | datum d => d.WellFormed ∧ unit '<' ∉ d.text
  | closed kind body => EndsAtFirst kind.close body

end Piece

/-- What stands inside of an element or of the document. -/
inductive Content where
  | done
  | piece (p : Piece) (later : Content)
  | empty (tag : Tag) (later : Content)
  | element (tag : Tag) (content : Content) (space : JsString) (later : Content)

namespace Content

def text : Content → JsString
  | done => []
  | piece p later => p.text ++ later.text
  | empty tag later => unit '<' :: (tag.text ++ unit '/' :: unit '>' :: later.text)
  | element tag content space later =>
    unit '<' :: (tag.text ++ unit '>' :: (content.text ++ unit '<' :: unit '/' ::
      (tag.name ++ (space ++ unit '>' :: later.text))))

/-- The characters that stand directly inside. -/
def value : Content → JsString
  | done => []
  | piece p later => p.value ++ later.value
  | empty _ later | element _ _ _ later => later.value

/-- The elements that stand directly inside. -/
def nodes : Content → List Node
  | done => []
  | piece _ later => later.nodes
  | empty tag later => { name := tag.name } :: later.nodes
  | element tag content _ later =>
    { name := tag.name, text := content.value, children := content.nodes } :: later.nodes

def WellFormed : Content → Prop
  | done => True
  | piece p later => p.WellFormed ∧ later.WellFormed
  | empty tag later => tag.WellFormed ∧ later.WellFormed
  | element tag content space later =>
    tag.WellFormed ∧ content.WellFormed ∧ AllSpace space ∧ later.WellFormed

/-- How many elements with an end tag are inside of each other. -/
def depth : Content → ℕ
  | done => 0
  | piece _ later | empty _ later => later.depth
  | element _ content _ later => max (content.depth + 1) later.depth

end Content

end Ilic.RepositoryCore
