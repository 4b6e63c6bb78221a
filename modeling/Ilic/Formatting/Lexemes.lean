import Ilic.Formatting.Ili2Lexer

/-! # Lexemes

A token ends visibly, and it stays a token where the text goes on otherwise behind it.  White
space and comments are skipped.  A text has at most one sequence of tokens.
-/

namespace Ilic.Formatting.Ili2Lexer
open Diagnostics (isSpace)

/-! ## Tokens -/

/-- The text does not end in white space, and it is not empty. -/
def EndsVisibly (text : Text) : Prop := ∃ c, text.getLast? = some c ∧ isSpace c = false

theorem word_starts (text : Text) : word text <+: text := List.takeWhile_prefix _

theorem isSpace_of_mem_word {text : Text} {c : Char} (h : c ∈ word text) : isSpace c = false := by
  simpa using List.mem_takeWhile_imp h

theorem longest_nil : (longest []).2 = 0 := by
  decide +kernel

/-- A plain token is a part of a word. -/
theorem plainToken_spec {text rest : Text} {t : Token} (h : plainToken text = some (t, rest)) :
    text = t.text ++ rest ∧ t.text ≠ [] ∧ (∀ c ∈ t.text, isSpace c = false) ∧
      ∀ text', word text' = word text →
        ∃ rest', text' = t.text ++ rest' ∧ plainToken text' = some (t, rest') := by
  simp only [plainToken] at h
  split at h
  case isTrue => cases h
  case isFalse hpos =>
    obtain ⟨rfl, rfl⟩ := Prod.mk.inj (Option.some.inj h)
    have hword : (word text).take (longest (word text)).2 <+: word text := List.take_prefix _ _
    have hsplit : ∀ text', word text' = word text → text' =
        (word text).take (longest (word text)).2 ++
          text'.drop ((word text).take (longest (word text)).2).length := by
      intro text' hsame
      obtain ⟨rest, hrest⟩ := hword.trans (hsame ▸ word_starts text')
      conv_lhs => rw [← hrest]
      rw [← hrest, List.drop_left]
    refine ⟨hsplit text rfl, ?_, fun c hc => isSpace_of_mem_word (hword.subset hc),
      fun text' hsame => ⟨_, hsplit text' hsame, ?_⟩⟩
    · intro hnil
      rcases List.take_eq_nil_iff.mp hnil with hzero | hempty
      · exact hpos hzero
      · rw [hempty] at hpos
        exact hpos longest_nil
    · simp only [plainToken, hsame, if_neg hpos]

theorem opening_starts (w : Text) : (opening w).mark <+: w := by
  fun_cases opening w
  case case5 => exact List.nil_prefix
  all_goals exact ⟨_, rfl⟩

theorem eq_append_drop {x text : Text} (h : x <+: word text) : text = x ++ text.drop x.length := by
  obtain ⟨rest, hrest⟩ := h.trans (word_starts text)
  conv_lhs => rw [← hrest]
  rw [← hrest, List.drop_left]

theorem behindBlank_eq_none {c : Char} (hc : isSpace c = false) (text : Text) :
    behindBlank (c :: text) = none := by
  rw [behindBlank.eq_def]
  split
  case h_6 => rfl
  all_goals
    rename_i heq
    obtain ⟨rfl, -⟩ := List.cons.inj heq
    cases hc

theorem EndsVisibly.append {text : Text} (h : EndsVisibly text) (x : Text) :
    EndsVisibly (x ++ text) := by
  obtain ⟨c, hlast, hc⟩ := h
  exact ⟨c, by rw [List.getLast?_append, hlast, Option.some_or], hc⟩

theorem enclosed_append (type : TokenType) (x rest : Text) :
    enclosed type (x ++ rest) rest = (.token ⟨type, x⟩, rest) := by
  rw [enclosed, List.length_append, Nat.add_sub_cancel, List.take_left]

/-- A token ends visibly, and it stays a token where the text goes on otherwise behind it, if the
same word follows and no search begins to find its mark. -/
theorem nextLexeme_token {text rest : Text} {t : Token}
    (h : nextLexeme text = some (.token t, rest)) :
    text = t.text ++ rest ∧ EndsVisibly t.text ∧ ∀ rest', word (t.text ++ rest') = word text →
      (opening (word text) = .block → behindBlockComment (text.drop 2) = none →
        behindBlockComment ((t.text ++ rest').drop 2) = none) →
      (opening (word text) = .explanation → behindMark '/' '/' (text.drop 2) = none →
        behindMark '/' '/' ((t.text ++ rest').drop 2) = none) →
      nextLexeme (t.text ++ rest') = some (.token t, rest') := by
  have hplain : plainToken text = some (t, rest) → text = t.text ++ rest ∧ EndsVisibly t.text ∧
      ∀ rest', word (t.text ++ rest') = word text → plainToken (t.text ++ rest') = some (t, rest') := by
    intro hplain
    obtain ⟨hsplit, hne, hvisible, hmore⟩ := plainToken_spec hplain
    refine ⟨hsplit, ⟨_, List.getLast?_eq_some_getLast hne, hvisible _ (List.getLast_mem hne)⟩, ?_⟩
    intro rest' hword
    obtain ⟨rest'', heq, hfound⟩ := hmore _ hword
    rwa [← List.append_cancel_left heq] at hfound
  have hspec := opening_starts (word text)
  simp only [nextLexeme] at h
  cases hopening : opening (word text) with
  | line => simp [hopening] at h
  | block =>
    simp only [hopening, Option.or_eq_some_iff, Option.map_eq_some_iff, Option.map_eq_none_iff] at h
    rcases h with ⟨rest', -, heq⟩ | ⟨hblock, ⟨t', rest'⟩, hfound, heq⟩
    · cases heq
    · cases heq
      obtain ⟨hsplit, hends, hmore⟩ := hplain hfound
      refine ⟨hsplit, hends, fun rest' hword hnone _ => ?_⟩
      simp only [nextLexeme, hword, hopening, hnone rfl hblock, hmore rest' hword]
      rfl
  | explanation =>
    simp only [hopening, Option.or_eq_some_iff, Option.map_eq_some_iff, Option.map_eq_none_iff] at h
    rcases h with ⟨rest', hfound, heq⟩ | ⟨hmark, ⟨t', rest'⟩, hfound, heq⟩
    · rw [hopening] at hspec
      obtain ⟨y, hy, hlast, hmore⟩ := behindMark_spec hfound
      have htext : text = ['/', '/'] ++ y ++ rest' := by
        rw [List.append_assoc, ← hy]
        exact eq_append_drop hspec
      rw [htext, enclosed_append] at heq
      cases heq
      refine ⟨htext, EndsVisibly.append ⟨'/', hlast, rfl⟩ _, fun rest' hword _ _ => ?_⟩
      have hsearch : behindMark '/' '/' ((['/', '/'] ++ y ++ rest').drop 2) = some rest' :=
        hmore rest'
      simp only [nextLexeme, hword, hopening, hsearch, Option.map_some, Option.some_or,
        enclosed_append]
    · cases heq
      obtain ⟨hsplit, hends, hmore⟩ := hplain hfound
      refine ⟨hsplit, hends, fun rest' hword _ hnone => ?_⟩
      simp only [nextLexeme, hword, hopening, hnone rfl hmark, hmore rest' hword]
      rfl
  | string =>
    simp only [hopening, Option.map_eq_some_iff] at h
    obtain ⟨rest', hfound, heq⟩ := h
    rw [hopening] at hspec
    obtain ⟨y, hy, hlast, hmore⟩ := behindString_spec hfound
    have htext : text = ['"'] ++ y ++ rest' := by
      rw [List.append_assoc, ← hy]
      exact eq_append_drop hspec
    rw [htext, enclosed_append] at heq
    cases heq
    refine ⟨htext, EndsVisibly.append ⟨'"', hlast, rfl⟩ _, fun rest' hword _ _ => ?_⟩
    have hsearch : behindString ((['"'] ++ y ++ rest').drop 1) = some rest' := hmore rest'
    simp only [nextLexeme, hword, hopening, hsearch, Option.map_some, enclosed_append]
  | other =>
    simp only [hopening, Option.or_eq_some_iff, Option.map_eq_some_iff, Option.map_eq_none_iff] at h
    rcases h with ⟨rest', -, heq⟩ | ⟨hblank, ⟨t', rest'⟩, hfound, heq⟩
    · cases heq
    · cases heq
      obtain ⟨hsplit, hends, hmore⟩ := hplain hfound
      refine ⟨hsplit, hends, fun rest' hword _ _ => ?_⟩
      obtain ⟨-, hne, hvisible, -⟩ := plainToken_spec hfound
      obtain ⟨c, y, hy⟩ := List.exists_cons_of_ne_nil hne
      have hnoblank : behindBlank (t'.text ++ rest') = none := by
        rw [hy]
        exact behindBlank_eq_none (hvisible c (by rw [hy]; exact List.mem_cons_self)) _
      simp only [nextLexeme, hword, hopening, hnoblank, hmore rest' hword]
      rfl

/-! ## White space -/

theorem word_of_space {c : Char} (hc : isSpace c = true) (text : Text) : word (c :: text) = [] := by
  rw [word, List.takeWhile_cons_of_neg (by simp [hc])]

theorem nextLexeme_of_space {c : Char} (hc : isSpace c = true) (text : Text) :
    nextLexeme (c :: text) = (behindBlank (c :: text)).map fun rest => (.blank, rest) := by
  have hplain : plainToken (c :: text) = none := by
    rw [plainToken, word_of_space hc]
    exact if_pos longest_nil
  have hopening : opening (word (c :: text)) = .other := by
    rw [word_of_space hc]
    rfl
  simp only [nextLexeme, hopening, hplain, Option.map_none, Option.or_none]

theorem behindBlank_cons {c : Char} {text rest : Text} (h : behindBlank (c :: text) = some rest) :
    c ≠ '\r' ∧ rest = text ∨ c = '\r' ∧ text = '\n' :: rest := by
  rw [behindBlank.eq_def] at h
  split at h <;> simp_all

theorem nextLexeme_nil : nextLexeme [] = none := by
  have hplain : plainToken [] = none := by
    rw [plainToken]
    exact if_pos longest_nil
  have hopening : opening (word []) = .other := rfl
  simp only [nextLexeme, hopening, hplain]
  rfl

theorem Lexes.token_iff {text rest : Text} {t : Token} (h : nextLexeme text = some (.token t, rest))
    {tokens : List Token} :
    Lexes text tokens ↔ ∃ later, tokens = t :: later ∧ Lexes rest later := by
  constructor
  · intro hlexes
    cases hlexes with
    | nil => cases nextLexeme_nil.symm.trans h
    | token hnext hlater =>
      cases hnext.symm.trans h
      exact ⟨_, rfl, hlater⟩
    | skip hnext hl hlater =>
      cases hnext.symm.trans h
      exact absurd rfl (hl t)
  · rintro ⟨later, rfl, hlater⟩
    exact .token h hlater

/-- Comments and white space are between the two places. -/
def Skips : Text → Text → Prop :=
  Relation.ReflTransGen fun text rest =>
    ∃ l, nextLexeme text = some (l, rest) ∧ ∀ t, l ≠ .token t

theorem Skips.reads {text rest : Text} (h : Skips text rest) : Reads text rest :=
  Relation.ReflTransGen.mono (fun _ _ ⟨l, hnext, _⟩ => ⟨l, hnext⟩) _ _ h

theorem Skips.lexes_iff {text rest : Text} (h : Skips text rest) {tokens : List Token} :
    Lexes text tokens ↔ Lexes rest tokens := by
  induction h with
  | refl => exact Iff.rfl
  | @tail text' rest _ hstep ih =>
    obtain ⟨l, hnext, hl⟩ := hstep
    rw [ih]
    constructor
    · intro hlexes
      cases hlexes with
      | nil => cases nextLexeme_nil.symm.trans hnext
      | token hnext' _ =>
        cases hnext'.symm.trans hnext
        exact absurd rfl (hl _)
      | skip hnext' _ hlater =>
        cases hnext'.symm.trans hnext
        exact hlater
    · exact .skip hnext hl

theorem skips_blank {c : Char} (hc : isSpace c = true) {text rest : Text}
    (h : behindBlank (c :: text) = some rest) : Skips (c :: text) rest := by
  refine .single ⟨.blank, ?_, by simp⟩
  rw [nextLexeme_of_space hc, h, Option.map_some]

theorem exists_behindBlank {c : Char} (hc : isSpace c = true) {text : Text} {tokens : List Token}
    (h : Lexes (c :: text) tokens) : ∃ rest, behindBlank (c :: text) = some rest := by
  rw [← Option.isSome_iff_exists, Option.isSome_iff_ne_none]
  intro hnone
  have hnext : nextLexeme (c :: text) = none := by
    rw [nextLexeme_of_space hc, hnone, Option.map_none]
  cases h with
  | token hfound _ => cases hnext.symm.trans hfound
  | skip hfound _ _ => cases hnext.symm.trans hfound

/-- White space in front of a text is skipped, unless it ends in the middle of a line end. -/
theorem skips_spaces {w text : Text} {tokens : List Token} (hw : ∀ c ∈ w, isSpace c = true)
    (hend : w.getLast? = some '\r' → text.head? ≠ some '\n') (h : Lexes (w ++ text) tokens) :
    Skips (w ++ text) text := by
  induction w using List.twoStepInduction with
  | nil => exact .refl
  | singleton c =>
    have hc := hw c List.mem_cons_self
    obtain ⟨rest, hblank⟩ := exists_behindBlank hc h
    rcases behindBlank_cons hblank with ⟨-, rfl⟩ | ⟨rfl, hfeed⟩
    · exact skips_blank hc hblank
    · have hhead : text.head? = some '\n' := by
        rw [show text = '\n' :: rest from hfeed, List.head?_cons]
      exact absurd hhead (hend rfl)
  | cons_cons c d w ih ih' =>
    obtain ⟨hc, hdw⟩ := List.forall_mem_cons.mp hw
    have hrest := (List.forall_mem_cons.mp hdw).2
    obtain ⟨rest, hblank⟩ := exists_behindBlank hc h
    have hskips := skips_blank hc hblank
    have hlater := hskips.lexes_iff.mp h
    rcases behindBlank_cons hblank with ⟨-, rfl⟩ | ⟨-, hfeed⟩
    · exact hskips.trans (ih' d hdw (by rwa [List.getLast?_cons_cons] at hend) hlater)
    · obtain ⟨rfl, rfl⟩ := List.cons.inj hfeed
      exact hskips.trans (ih hrest (fun hlast => hend (by
        rw [List.getLast?_cons_cons, List.getLast?_cons, hlast, Option.getD_some])) hlater)

theorem skips_newline {newline : Text} (hnewline : newline = ['\n'] ∨ newline = ['\r', '\n'])
    (text : Text) : Skips (newline ++ text) text := by
  rcases hnewline with rfl | rfl
  · exact skips_blank rfl rfl
  · exact skips_blank rfl rfl

theorem skips_blanks {v : Text} (hv : ∀ c ∈ v, c = ' ') (text : Text) : Skips (v ++ text) text := by
  induction v with
  | nil => exact .refl
  | cons c v ih =>
    obtain ⟨rfl, hrest⟩ := List.forall_mem_cons.mp hv
    exact (skips_blank rfl rfl).trans (ih hrest)

theorem Lexes.nil_iff {tokens : List Token} : Lexes [] tokens ↔ tokens = [] := by
  constructor
  · intro h
    cases h with
    | nil => rfl
    | token hnext _ => cases nextLexeme_nil.symm.trans hnext
    | skip hnext _ _ => cases nextLexeme_nil.symm.trans hnext
  · rintro rfl
    exact .nil

/-! ## Comments as lexemes -/

theorem nextLexeme_line (text : Text) :
    nextLexeme ('!' :: '!' :: text) = some (.lineComment, behindLine text) := rfl

theorem nextLexeme_block {text rest : Text} (h : behindBlockComment text = some rest) :
    nextLexeme ('/' :: '*' :: text) = some (.blockComment, rest) := by
  have hopening : opening (word ('/' :: '*' :: text)) = .block := rfl
  simp only [nextLexeme, hopening, List.drop_succ_cons, List.drop_zero, h, Option.map_some,
    Option.some_or]

theorem length_behindLine (text : Text) : (behindLine text).length ≤ text.length := by
  induction text with
  | nil => exact le_rfl
  | cons c text ih =>
    rw [behindLine]
    split
    · exact Nat.le_succ _
    · exact Nat.le_succ_of_le ih

theorem behindBlank_congr {c : Char} {text : Text} (h : behindBlank (c :: text) = some text)
    (hc : c ≠ '\r') (text' : Text) : behindBlank (c :: text') = some text' := by
  rw [behindBlank.eq_def] at h
  split at h <;> simp_all [behindBlank]

/-- What may stand in front of a visible character and is no token. -/
theorem nextLexeme_skip {c : Char} (hc : isSpace c = false) {text rest : Text} {l : Lexeme}
    (h : nextLexeme (c :: text) = some (l, rest)) (hl : ∀ t, l ≠ .token t) :
    l = .lineComment ∧ opening (word (c :: text)) = .line ∧
        rest = behindLine ((c :: text).drop 2) ∨
      l = .blockComment ∧ opening (word (c :: text)) = .block ∧
        behindBlockComment ((c :: text).drop 2) = some rest := by
  have hplain : ∀ {found : Option (Token × Text)}, found.map (fun found => (Lexeme.token found.1, found.2)) ≠
      some (l, rest) := by
    intro found heq
    obtain ⟨⟨t, rest'⟩, -, heq⟩ := Option.map_eq_some_iff.mp heq
    cases heq
    exact hl t rfl
  simp only [nextLexeme] at h
  cases hopening : opening (word (c :: text)) with
  | line =>
    rw [hopening] at h
    cases h
    exact Or.inl ⟨rfl, rfl, rfl⟩
  | block =>
    rw [hopening] at h
    rcases Option.or_eq_some_iff.mp h with hfound | ⟨-, hfound⟩
    · obtain ⟨rest', hrest, heq⟩ := Option.map_eq_some_iff.mp hfound
      cases heq
      exact Or.inr ⟨rfl, rfl, hrest⟩
    · exact absurd hfound hplain
  | explanation =>
    rw [hopening] at h
    rcases Option.or_eq_some_iff.mp h with hfound | ⟨-, hfound⟩
    · obtain ⟨rest', -, heq⟩ := Option.map_eq_some_iff.mp hfound
      cases heq
      exact absurd rfl (hl _)
    · exact absurd hfound hplain
  | string =>
    rw [hopening] at h
    obtain ⟨rest', -, heq⟩ := Option.map_eq_some_iff.mp h
    cases heq
    exact absurd rfl (hl _)
  | other =>
    rw [hopening] at h
    simp only [behindBlank_eq_none hc, Option.map_none, Option.none_or] at h
    exact absurd h hplain

/-! ## Other alphabets -/

/-- No lexeme begins with a character outside of the basic alphabet. -/
theorem nextLexeme_eq_none {c : Char} (hc : 128 ≤ c.toNat) (text : Text) :
    nextLexeme (c :: text) = none := by
  have hne : ∀ d : Char, d.toNat < 128 → c ≠ d := by
    rintro d hd rfl
    omega
  have hspace : isSpace c = false := by
    rw [isSpace, decide_eq_false (hne ' ' (by decide)), Bool.false_or, Bool.and_eq_false_iff]
    exact Or.inr (decide_eq_false (by omega))
  have hword : word (c :: text) = c :: word text := List.takeWhile_cons_of_pos (by simp [hspace])
  have hsimple : ∀ w, simple (c :: w) = 0 := by
    intro w
    have hheads : simpleTokens.all
        (fun token => token.toList.head?.any fun d => d.toNat < 128) = true := by
      decide +kernel
    have hnone : (simpleTokens.map String.toList).filter
        (fun token => token.isPrefixOf (c :: w)) = [] := by
      rw [List.filter_eq_nil_iff]
      intro token htoken
      obtain ⟨name, hname, rfl⟩ := List.mem_map.mp htoken
      have hhead := List.all_eq_true.mp hheads name hname
      cases htext : name.toList with
      | nil => simp [htext] at hhead
      | cons d rest =>
        rw [htext] at hhead
        simp [Ne.symm (hne d (by simpa using hhead))]
    rw [simple, hnone]
    rfl
  have hlongest : ∀ w, longest (c :: w) = (.simple, 0) := by
    intro w
    have hle : ∀ d : Char, d.toNat < 128 → ¬ c.val ≤ d.val := fun d hd hle =>
      absurd (UInt32.le_iff_toNat_le.mp hle) (Nat.not_le.mpr (lt_of_lt_of_le hd hc))
    have hdigit : c.isDigit = false := by
      have hnine := hle '9' (by decide)
      simp_all [Char.isDigit]
    have halpha : c.isAlpha = false := by
      rw [← Bool.not_eq_true, Text.isAlpha_iff, Text.isUpper_iff, Text.isLower_iff]
      rintro (hupper | hlower)
      · exact hle 'Z' (by decide) hupper.2
      · exact hle 'z' (by decide) hlower.2
    have hpos : posNumber (c :: w) = 0 := by
      rw [posNumber, List.takeWhile_cons_of_neg (by simp [hdigit])]
      rfl
    have hsign : sign (c :: w) = 0 := by
      simp [sign, hne]
    have hnumber : number (c :: w) = 0 := by
      simp [number, hsign, hpos]
    have hfixed : fixed (c :: w) = 0 := by
      simp [fixed, hnumber]
    have hdec : dec (c :: w) = 0 := by
      simp [dec, hfixed]
    have hnormed : normed (c :: w) = 0 := by
      rw [normed, hsign, List.drop_zero]
      split
      · exact absurd (List.cons.inj ‹c :: w = _›).1 (hne '0' (by decide))
      · rfl
    have hesc : esc (c :: w) = 0 := by
      rw [esc.eq_def]
      split
      case h_4 => rfl
      all_goals exact absurd (List.cons.inj ‹c :: w = _›).1 (hne '\\' (by decide))
    have hhex : hexNumber (c :: w) = 0 := by
      rw [hexNumber.eq_def]
      split
      case h_3 => rfl
      all_goals exact absurd (List.cons.inj ‹c :: w = _›).1 (hne '0' (by decide))
    have hname : name (c :: w) = 0 := by
      simp [name, halpha]
    simp [longest, rules, hsimple, hesc, hpos, hnumber, hdec, decimal, hnormed, hfixed, hhex, hname]
  have hplain : plainToken (c :: text) = none := by
    rw [plainToken, hword, hlongest]
    rfl
  have hopening : ∀ w, opening (c :: w) = .other := by
    intro w
    rw [opening.eq_def]
    split
    case h_5 => rfl
    all_goals
      rename_i heq
      exact absurd (List.cons.inj heq).1 (hne _ (by decide))
  simp only [nextLexeme, hword, hopening, hplain, behindBlank_eq_none hspace]
  rfl

/-! ## Running the lexer -/

theorem Lexes.unique {text : Text} {tokens tokens' : List Token} (h : Lexes text tokens)
    (h' : Lexes text tokens') : tokens = tokens' := by
  induction h generalizing tokens' with
  | nil => exact (Lexes.nil_iff.mp h').symm
  | token hnext _ ih =>
    obtain ⟨later, rfl, hlater⟩ := (Lexes.token_iff hnext).mp h'
    rw [ih hlater]
  | skip hnext hl _ ih =>
    have hskips : Skips _ _ := .single ⟨_, hnext, hl⟩
    exact ih (hskips.lexes_iff.mp h')

def Lexeme.token? : Lexeme → Option Token
  | token t => some t
  | _ => none

/-- The lexemes of a text, and the places where they begin and end. -/
def lexemes : ℕ → Text → Option (List (Text × Lexeme × Text))
  | _, [] => some []
  | 0, _ :: _ => none
  | fuel + 1, text => do
    let (l, rest) ← nextLexeme text
    let later ← lexemes fuel rest
    some ((text, l, rest) :: later)

variable {fuel : ℕ} {text : Text} {found : List (Text × Lexeme × Text)}

theorem lexemes_cons {c : Char} (h : lexemes fuel (c :: text) = some found) :
    ∃ n l rest later, nextLexeme (c :: text) = some (l, rest) ∧
      lexemes n rest = some later ∧ found = (c :: text, l, rest) :: later := by
  cases fuel with
  | zero => cases h
  | succ n =>
    simp only [lexemes, Option.bind_eq_bind, Option.bind_eq_some_iff, Option.some.injEq] at h
    obtain ⟨⟨l, rest⟩, hnext, later, hlater, rfl⟩ := h
    exact ⟨n, l, rest, later, hnext, hlater, rfl⟩

theorem lexes_of_lexemes (h : lexemes fuel text = some found) :
    Lexes text (found.filterMap fun place => place.2.1.token?) := by
  induction found generalizing fuel text with
  | nil =>
    cases text with
    | nil => exact .nil
    | cons c text =>
      obtain ⟨n, l, rest, later, -, -, hfound⟩ := lexemes_cons h
      cases hfound
  | cons place found ih =>
    cases text with
    | nil => cases fuel <;> cases h
    | cons c text =>
      obtain ⟨n, l, rest, later, hnext, hlater, hfound⟩ := lexemes_cons h
      obtain ⟨rfl, rfl⟩ := List.cons.inj hfound
      cases l with
      | token t => exact .token hnext (ih hlater)
      | blank => exact .skip hnext (by simp) (ih hlater)
      | lineComment => exact .skip hnext (by simp) (ih hlater)
      | blockComment => exact .skip hnext (by simp) (ih hlater)

theorem mem_lexemes (h : lexemes fuel text = some found) {place rest : Text} {l : Lexeme}
    (hreads : Reads text place) (hnext : nextLexeme place = some (l, rest)) :
    (place, l, rest) ∈ found := by
  induction hreads using Relation.ReflTransGen.head_induction_on generalizing fuel found with
  | refl =>
    cases place with
    | nil => cases nextLexeme_nil.symm.trans hnext
    | cons c text =>
      obtain ⟨n, l', rest', later, hfirst, -, rfl⟩ := lexemes_cons h
      cases hfirst.symm.trans hnext
      exact List.mem_cons_self
  | @head text rest' hstep _ ih =>
    obtain ⟨l', hstep⟩ := hstep
    cases text with
    | nil => cases nextLexeme_nil.symm.trans hstep
    | cons c text =>
      obtain ⟨n, l'', rest'', later, hfirst, hlater, rfl⟩ := lexemes_cons h
      cases hfirst.symm.trans hstep
      exact List.mem_cons_of_mem _ (ih hlater)

end Ilic.Formatting.Ili2Lexer
