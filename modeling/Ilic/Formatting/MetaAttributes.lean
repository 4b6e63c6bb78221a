import Ilic.Formatting.Formatter

/-! # Meta attributes

A line with a meta attribute is rewritten: one space behind its mark, and none around the
first equals sign.  Rewriting it again changes nothing, and neither what closes a block nor
what belongs to a comment is seen differently behind it.
-/

namespace Ilic.Formatting
open Foundation Diagnostics

theorem byte_lt_of_isSpace (c : Char) (h : isSpace c = true) : byte c < 0x80 := by
  have hle : c.toNat ≤ 32 := by
    rcases Bool.or_eq_true_iff.mp h with hspace | hcontrol
    · rw [of_decide_eq_true hspace]
      decide
    · have := of_decide_eq_true (Bool.and_eq_true_iff.mp hcontrol).2
      omega
  exact (Nat.mod_le _ _).trans_lt (by omega)

theorem trim_trim (s : Text) : trim (trim s) = trim s := (strip_stripped isSpace s).strip_eq

/-! ## What is written behind the mark -/

/-- The attribute without the spaces around it and around its equals sign. -/
def attributeText (value : Text) : Text :=
  if '=' ∈ value then
    trim (value.takeWhile (· ≠ '=')) ++ '=' :: trim ((value.dropWhile (· ≠ '=')).drop 1)
  else value

theorem canonicalMetaAttribute_meta (rest : Text) :
    canonicalMetaAttribute ("!!@".toList ++ rest) =
      "!!@ ".toList ++ attributeText (trim rest) := by
  have hmark : Text.startsWith "!!@".toList ("!!@".toList ++ rest) = true :=
    Text.startsWith_append _ _
  have hdrop : ("!!@".toList ++ rest).drop 3 = rest := rfl
  rw [canonicalMetaAttribute, if_pos hmark, hdrop, attributeText]
  by_cases hequals : '=' ∈ trim rest
  · simp only [if_pos hequals, List.append_assoc]
  · simp only [if_neg hequals]

theorem canonicalMetaAttribute_cases (line : Text) :
    (∃ rest, line = "!!@".toList ++ rest) ∨ canonicalMetaAttribute line = line := by
  by_cases h : Text.startsWith "!!@".toList line = true
  · obtain ⟨rest, hrest⟩ := Text.startsWith_iff.mp h
    exact Or.inl ⟨rest, hrest⟩
  · exact Or.inr (if_neg h)

/-- A text is cut at its first equals sign. -/
theorem split_equals {value : Text} (h : '=' ∈ value) :
    ∃ key rest, value = key ++ '=' :: rest ∧ '=' ∉ key ∧
      attributeText value = trim key ++ '=' :: trim rest := by
  obtain ⟨key, rest, rfl, hkey⟩ := List.eq_append_cons_of_mem h
  refine ⟨key, rest, rfl, hkey, ?_⟩
  have hall : ∀ c ∈ key, decide (c ≠ '=') = true := by
    intro c hc
    exact decide_eq_true fun heq => hkey (heq ▸ hc)
  rw [attributeText, if_pos h, List.takeWhile_append_of_pos hall,
    List.dropWhile_append_of_pos hall]
  simp

theorem not_mem_trim {c : Char} {s : Text} (h : c ∉ s) : c ∉ trim s := by
  intro hc
  have hdropped : c ∈ s.dropWhile isSpace := (List.rdropWhile_prefix isSpace _).mem hc
  exact h ((List.dropWhile_suffix isSpace).mem hdropped)

theorem attributeText_stripped {value : Text} (h : Stripped isSpace value) :
    Stripped isSpace (attributeText value) := by
  by_cases hequals : '=' ∈ value
  · obtain ⟨key, rest, -, -, htext⟩ := split_equals hequals
    have hkey := strip_stripped isSpace key
    have hrest := strip_stripped isSpace rest
    have hsign : ¬ isSpace '=' = true := by decide
    rw [htext]
    constructor
    · intro c hc
      cases hk : trim key with
      | nil =>
        rw [hk] at hc
        cases hc
        exact hsign
      | cons d k =>
        rw [hk] at hc
        cases hc
        exact hkey.head c (by rw [← trim, hk]; rfl)
    · intro c hc
      cases hr : trim rest with
      | nil =>
        rw [hr, List.getLast?_append] at hc
        cases hc
        exact hsign
      | cons d r =>
        rw [hr, List.getLast?_append, List.getLast?_cons_cons] at hc
        apply hrest.last c
        rw [← trim, hr]
        simpa using hc
  · rw [attributeText, if_neg hequals]
    exact h

theorem attributeText_attributeText (value : Text) :
    attributeText (attributeText value) = attributeText value := by
  by_cases hequals : '=' ∈ value
  · obtain ⟨key, rest, -, hkey, htext⟩ := split_equals hequals
    have hkey' : ∀ c ∈ trim key, decide (c ≠ '=') = true := by
      intro c hc
      exact decide_eq_true fun heq => not_mem_trim hkey (heq ▸ hc)
    have hmem : '=' ∈ trim key ++ '=' :: trim rest :=
      List.mem_append_right _ List.mem_cons_self
    rw [htext, attributeText, if_pos hmem, List.takeWhile_append_of_pos hkey',
      List.dropWhile_append_of_pos hkey']
    simp [trim_trim]
  · have hself : attributeText value = value := if_neg hequals
    rw [hself, hself]

theorem mem_attributeText {c : Char} {value : Text} (h : c ∈ attributeText value) : c ∈ value := by
  by_cases hequals : '=' ∈ value
  · obtain ⟨key, rest, rfl, -, htext⟩ := split_equals hequals
    rw [htext, List.mem_append, List.mem_cons] at h
    rw [List.mem_append, List.mem_cons]
    exact h.imp (fun hkey => not_imp_not.mp not_mem_trim hkey)
      (Or.imp id fun hrest => not_imp_not.mp not_mem_trim hrest)
  · rwa [attributeText, if_neg hequals] at h

/-- The last character stays where it is no space. -/
theorem getLast?_trim {s : Text} (h : ∀ c ∈ s.getLast?, ¬ isSpace c = true) :
    (trim s).getLast? = s.getLast? := by
  have hlast : (s.dropWhile isSpace).getLast? = s.getLast? := by
    cases hs : s.dropWhile isSpace with
    | nil =>
      rw [List.dropWhile_eq_nil_iff] at hs
      cases hl : s.getLast? with
      | none => rfl
      | some c => exact absurd (hs c (List.mem_of_getLast? hl)) (h c hl)
    | cons c rest =>
      have hsplit : s.takeWhile isSpace ++ c :: rest = s := by
        rw [← hs, List.takeWhile_append_dropWhile]
      rw [← hsplit, List.getLast?_append_of_ne_nil _ (List.cons_ne_nil c rest)]
  rw [trim, strip, rdropWhile_eq_self (hlast ▸ h), hlast]

theorem getLast?_attributeText {value : Text} (h : Stripped isSpace value) :
    (attributeText value).getLast? = value.getLast? := by
  by_cases hequals : '=' ∈ value
  · obtain ⟨key, rest, rfl, -, htext⟩ := split_equals hequals
    rw [htext, List.getLast?_append_of_ne_nil _ (List.cons_ne_nil _ _),
      List.getLast?_append_of_ne_nil _ (List.cons_ne_nil _ _)]
    by_cases hrest : rest = []
    · subst hrest
      rfl
    · have hlast := h.last
      rw [List.getLast?_append_of_ne_nil _ (List.cons_ne_nil _ _),
        List.getLast?_cons_of_ne_nil hrest] at hlast
      have hsame := getLast?_trim hlast
      have hne : trim rest ≠ [] := by
        intro hnil
        rw [hnil, List.getLast?_nil, eq_comm, List.getLast?_eq_none_iff] at hsame
        exact hrest hsame
      rw [List.getLast?_cons_of_ne_nil hrest, List.getLast?_cons_of_ne_nil hne, hsame]
  · rw [attributeText, if_neg hequals]

/-! ## A second time -/

variable {line : Text}

/-- What the formatter reads where it has written the line before. -/
theorem trim_canonicalMetaAttribute (h : Stripped isSpace line) :
    trim (canonicalMetaAttribute line) = canonicalMetaAttribute line ∨
      trim (canonicalMetaAttribute line) = "!!@".toList ∧
        canonicalMetaAttribute line = "!!@ ".toList := by
  rcases canonicalMetaAttribute_cases line with ⟨rest, rfl⟩ | hself
  · rw [canonicalMetaAttribute_meta]
    cases htext : attributeText (trim rest) with
    | nil => exact Or.inr ⟨by decide, rfl⟩
    | cons c w =>
      left
      have hstripped := attributeText_stripped (strip_stripped isSpace rest)
      rw [← trim, htext] at hstripped
      apply Stripped.strip_eq
      constructor
      · rintro d ⟨⟩
        decide
      · intro d hd
        apply hstripped.last d
        rw [List.getLast?_append] at hd
        cases hlast : (c :: w).getLast? with
        | none => simp at hlast
        | some e =>
          rw [hlast] at hd
          exact hd
  · rw [hself]
    exact Or.inl h.strip_eq

theorem canonicalMetaAttribute_trim (h : Stripped isSpace line) :
    canonicalMetaAttribute (trim (canonicalMetaAttribute line)) = canonicalMetaAttribute line := by
  rcases trim_canonicalMetaAttribute h with hsame | ⟨htrim, hmark⟩
  · rw [hsame]
    rcases canonicalMetaAttribute_cases line with ⟨rest, rfl⟩ | hself
    · rw [canonicalMetaAttribute_meta]
      have hsplit : "!!@ ".toList ++ attributeText (trim rest) =
          "!!@".toList ++ ([' '] ++ attributeText (trim rest)) := rfl
      have hstrip : trim ([' '] ++ attributeText (trim rest)) = attributeText (trim rest) := by
        rw [trim, strip_append_left (by simp [isSpace])]
        exact (attributeText_stripped (strip_stripped isSpace rest)).strip_eq
      rw [hsplit, canonicalMetaAttribute_meta, hstrip, attributeText_attributeText]
      rfl
    · rw [hself, hself]
  · rw [htrim, hmark]
    decide

/-! ## What stays the same -/

/-- What is searched for does not touch the mark, the equals sign or a space at an end. -/
structure Untouched (pat : Text) : Prop where
  stripped : Stripped isSpace pat
  mark : '!' ∉ pat ∧ '@' ∉ pat
  equals : '=' ∉ pat
  nonempty : pat ≠ []

theorem contains_iff {line pat : Text} : contains line pat = true ↔ pat <:+: line :=
  decide_eq_true_iff

variable {pat : Text}

theorem infix_trim_iff (hpat : Untouched pat) {s : Text} : pat <:+: trim s ↔ pat <:+: s := by
  constructor
  · intro h
    exact h.trans ((List.rdropWhile_prefix isSpace _).isInfix.trans
      (List.dropWhile_suffix isSpace).isInfix)
  · exact infix_strip hpat.stripped

theorem infix_append_cons_iff {a b : Text} {c : Char} (hc : c ∉ pat) :
    pat <:+: a ++ c :: b ↔ pat <:+: a ∨ pat <:+: b := by
  constructor
  · exact infix_append_cons hc
  · rintro (h | h)
    · exact h.trans (List.prefix_append a _).isInfix
    · exact h.trans ((List.suffix_cons c b).trans (List.suffix_append a _)).isInfix

theorem infix_mark_iff (hpat : Untouched pat) {s : Text} :
    pat <:+: "!!@".toList ++ s ↔ pat <:+: s := by
  have hcons : ∀ (c : Char) (t : Text), c ∉ pat → (pat <:+: c :: t ↔ pat <:+: t) := by
    intro c t hc
    have h := infix_append_cons_iff (a := []) (b := t) hc
    rw [List.nil_append, List.infix_nil] at h
    exact h.trans (or_iff_right hpat.nonempty)
  exact (hcons '!' _ hpat.mark.1).trans ((hcons '!' _ hpat.mark.1).trans (hcons '@' s hpat.mark.2))

theorem infix_attributeText_iff (hpat : Untouched pat) {value : Text} :
    pat <:+: attributeText value ↔ pat <:+: value := by
  by_cases hequals : '=' ∈ value
  · obtain ⟨key, rest, rfl, -, htext⟩ := split_equals hequals
    rw [htext, infix_append_cons_iff hpat.equals, infix_append_cons_iff hpat.equals,
      infix_trim_iff hpat, infix_trim_iff hpat]
  · rw [attributeText, if_neg hequals]

theorem infix_canonicalMetaAttribute_iff (hpat : Untouched pat) :
    pat <:+: canonicalMetaAttribute line ↔ pat <:+: line := by
  rcases canonicalMetaAttribute_cases line with ⟨rest, rfl⟩ | hself
  · have hstrip : trim (' ' :: attributeText (trim rest)) = attributeText (trim rest) := by
      have hspace :=
        @strip_append_left isSpace (attributeText (trim rest)) [' '] (by simp [isSpace])
      exact hspace.trans (attributeText_stripped (strip_stripped isSpace rest)).strip_eq
    have hsplit : "!!@ ".toList ++ attributeText (trim rest) =
        "!!@".toList ++ ' ' :: attributeText (trim rest) := rfl
    rw [canonicalMetaAttribute_meta, hsplit, infix_mark_iff hpat, infix_mark_iff hpat,
      ← infix_trim_iff hpat, hstrip, infix_attributeText_iff hpat, infix_trim_iff hpat]
  · rw [hself]

theorem trim_canonicalMetaAttribute_start (h : Stripped isSpace line) :
    trim (canonicalMetaAttribute line) = line ∨ ∃ rest rest',
      line = '!' :: rest ∧ trim (canonicalMetaAttribute line) = '!' :: rest' := by
  rcases canonicalMetaAttribute_cases line with ⟨rest, rfl⟩ | hself
  · right
    rcases trim_canonicalMetaAttribute h with hsame | ⟨htrim, -⟩
    · exact ⟨_, _, rfl, by rw [hsame, canonicalMetaAttribute_meta]; rfl⟩
    · exact ⟨_, _, rfl, htrim⟩
  · left
    rw [hself]
    exact h.strip_eq

theorem mem_canonicalMetaAttribute {c : Char} (h : c ∈ canonicalMetaAttribute line) :
    c ∈ line ∨ c = ' ' := by
  rcases canonicalMetaAttribute_cases line with ⟨rest, rfl⟩ | hself
  · rw [canonicalMetaAttribute_meta] at h
    have hsplit : "!!@ ".toList = "!!@".toList ++ [' '] := rfl
    rw [hsplit, List.append_assoc, List.mem_append, List.mem_append, List.mem_singleton] at h
    rcases h with hmark | hspace | htext
    · exact Or.inl (List.mem_append_left _ hmark)
    · exact Or.inr hspace
    · exact Or.inl (List.mem_append_right _ (not_imp_not.mp not_mem_trim (mem_attributeText htext)))
  · exact Or.inl (hself ▸ h)

theorem getLast?_canonicalMetaAttribute (h : Stripped isSpace line) :
    (canonicalMetaAttribute line).getLast? = line.getLast? ∨
      line = "!!@".toList ∧ canonicalMetaAttribute line = "!!@ ".toList := by
  rcases canonicalMetaAttribute_cases line with ⟨rest, rfl⟩ | hself
  · by_cases hrest : rest = []
    · right
      subst hrest
      exact ⟨rfl, by decide⟩
    · left
      have hlast := h.last
      rw [List.getLast?_append_of_ne_nil _ hrest] at hlast
      have hsame : (attributeText (trim rest)).getLast? = rest.getLast? :=
        (getLast?_attributeText (strip_stripped isSpace rest)).trans (getLast?_trim hlast)
      have hne : attributeText (trim rest) ≠ [] := by
        intro hnil
        rw [hnil, List.getLast?_nil, eq_comm, List.getLast?_eq_none_iff] at hsame
        exact hrest hsame
      rw [canonicalMetaAttribute_meta, List.getLast?_append_of_ne_nil _ hne,
        List.getLast?_append_of_ne_nil _ hrest, hsame]
  · exact Or.inl (congrArg List.getLast? hself)

end Ilic.Formatting
