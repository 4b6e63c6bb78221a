import Ilic.Abi.Json
import Ilic.SourceRanges.Cuts

/-! # The messages of the parser in other words

A message of the generated parser is replaced by one that names the offending token.  The token
stands between apostrophes, and of a long one the first 32 bytes are shown.
-/

namespace Ilic.Parser
open Json SourceRanges

def apostrophe : UInt8 := 0x27

def backslash : UInt8 := 0x5c

def isBlank (c : UInt8) : Bool := c = 0x20 || c = 0x09 || c = 0x0d || c = 0x0a

def trim (value : Bytes) : Bytes := (value.dropWhile isBlank).rdropWhile isBlank

/-- The text without blanks and apostrophes around it. -/
def unquoted (value : Bytes) : Bytes :=
  let value := trim value
  if 2 ≤ value.length ∧ value.head? = some apostrophe ∧ value.getLast? = some apostrophe then
    value.tail.dropLast
  else value

def shorten (value : Bytes) : Bytes :=
  if value.length > 32 then value.take 32 ++ String.utf8EncodeChar '…' else value

def escape (character : UInt8) : Bytes :=
  if character = 0x0a ∨ character = 0x0d then ascii "\\n"
  else if character = backslash ∨ character = apostrophe then [backslash, character]
  else [character]

def quote (value : Bytes) : Bytes :=
  let value := unquoted value
  if value = ascii "<EOF>" then ascii "end of file"
  else apostrophe :: ((shorten value).flatMap escape ++ [apostrophe])

def contains (haystack : Bytes) (needle : String) : Prop := ascii needle <:+: haystack

instance (haystack : Bytes) (needle : String) : Decidable (contains haystack needle) :=
  inferInstanceAs (Decidable (ascii needle <:+: haystack))

/-- `raw.substr(raw.find_last_of(':') + 1)`. -/
def behindColon (raw : Bytes) : Option Bytes :=
  if ':'.toUInt8 ∈ raw then some (raw.rtakeWhile (· ≠ ':'.toUInt8)) else none

def offending (raw token : Bytes) : Bytes :=
  if token ≠ [] then quote token
  else match behindColon raw with
    | none => ascii "the reported token"
    | some text => quote text

structure ParserDiagnosticTranslation where
  code : Bytes
  message : Bytes
deriving DecidableEq

def translateParserDiagnostic (rawMessage offendingText : Bytes) : ParserDiagnosticTranslation :=
  if contains rawMessage "token recognition error" then
    ⟨ascii "ILIC-LEX-UNRECOGNIZED-CHARACTER",
      ascii "Unrecognized character " ++ offending rawMessage offendingText ++ ascii "."⟩
  else if contains rawMessage "missing" then
    ⟨ascii "ILIC-SYN-MISSING-TOKEN",
      ascii "A required token is missing before " ++ offending rawMessage offendingText ++ ascii "."⟩
  else if contains rawMessage "extraneous input" then
    ⟨ascii "ILIC-SYN-EXTRANEOUS-TOKEN",
      ascii "Unexpected extra token " ++ offending rawMessage offendingText ++ ascii "."⟩
  else if contains rawMessage "mismatched input" then
    ⟨ascii "ILIC-SYN-MISMATCHED-INPUT",
      ascii "Unexpected token " ++ offending rawMessage offendingText ++ ascii "."⟩
  else if contains rawMessage "no viable alternative" then
    ⟨ascii "ILIC-SYN-NO-VIABLE-ALTERNATIVE",
      ascii "The input cannot be parsed at this location."⟩
  else if contains rawMessage "<EOF>" ∨ contains rawMessage "EOF" then
    ⟨ascii "ILIC-SYN-UNEXPECTED-EOF",
      ascii "Unexpected end of file; the construct is incomplete."⟩
  else
    ⟨ascii "ILIC-SYN-UNEXPECTED-TOKEN",
      ascii "Unexpected token " ++ offending rawMessage offendingText ++ ascii "."⟩

/-! ## What a message shows of a token -/

/-- The translation of the message names the token. -/
def NamesToken (raw : Bytes) : Prop :=
  contains raw "token recognition error" ∨ contains raw "missing" ∨
    contains raw "extraneous input" ∨ contains raw "mismatched input" ∨
      ¬ contains raw "no viable alternative" ∧ ¬ contains raw "<EOF>" ∧ ¬ contains raw "EOF"

instance (raw : Bytes) : Decidable (NamesToken raw) := by
  unfold NamesToken
  infer_instance

/-- The text of the token, or else what the message of the parser ends with. -/
def tokenText (raw token : Bytes) : Option Bytes :=
  if token ≠ [] then some token else behindColon raw

variable {raw token text value : Bytes}

theorem isAscii_of_all (h : (text.all fun c => decide (c < 0x80)) = true) : IsAscii text :=
  fun c hc => of_decide_eq_true (List.all_eq_true.mp h c hc)

theorem wellFormed_escape : WellFormed (text.flatMap escape) ↔ WellFormed text := by
  apply wellFormed_flatMap
  · intro c hc
    unfold escape
    split_ifs
    · exact ⟨List.cons_ne_nil _ _, isAscii_of_all (by decide)⟩
    · exact ⟨List.cons_ne_nil _ _, by simpa [IsAscii] using ⟨by decide, hc⟩⟩
    · exact ⟨List.cons_ne_nil _ _, by simpa [IsAscii] using hc⟩
  · intro c hc
    have hne : ∀ d : UInt8, d < 0x80 → c ≠ d := by
      rintro d hd rfl
      exact hc hd
    rw [escape, if_neg (not_or.mpr ⟨hne _ (by decide), hne _ (by decide)⟩),
      if_neg (not_or.mpr ⟨hne _ (by decide), hne _ (by decide)⟩)]

theorem wellFormed_shorten : WellFormed (shorten value) ↔ WellFormed (value.take 32) := by
  unfold shorten
  split_ifs with h
  · obtain ⟨lead, others, hshape, hlead, -⟩ := (shaped_utf8EncodeChar '…').exists_cons
    have hdots := wellFormed_utf8EncodeChar '…'
    rw [hshape] at hdots ⊢
    rw [wellFormed_append_cons hlead, and_iff_left hdots]
  · rw [List.take_of_length_le (by omega)]

theorem wellFormed_quote : WellFormed (quote value) ↔ WellFormed ((unquoted value).take 32) := by
  simp only [quote]
  split_ifs with h
  · rw [h]
    exact iff_of_true (wellFormed_ascii (isAscii_of_all (by decide)))
      (wellFormed_ascii (isAscii_of_all (by decide)))
  · have hmark : apostrophe < 0x80 := by decide
    rw [wellFormed_cons hmark, wellFormed_between hmark, and_iff_left wellFormed_nil,
      wellFormed_escape, wellFormed_shorten]

theorem wellFormed_offending : WellFormed (offending raw token) ↔
    ∀ text ∈ tokenText raw token, WellFormed ((unquoted text).take 32) := by
  rw [offending, tokenText]
  split_ifs
  · simp [wellFormed_quote]
  · cases behindColon raw with
    | none => exact iff_of_true (wellFormed_ascii (isAscii_of_all (by decide))) (by simp)
    | some text => simp [wellFormed_quote]

theorem wellFormed_sentence {front : Bytes} (hfront : IsAscii front) (hnames : NamesToken raw) :
    WellFormed (front ++ offending raw token ++ ascii ".") ↔
      (NamesToken raw → WellFormed (offending raw token)) := by
  have hend : IsAscii (ascii ".") := isAscii_of_all (by decide)
  rw [wellFormed_append_ascii hend, wellFormed_ascii_append hfront]
  exact ⟨fun h _ => h, fun h => h hnames⟩

/-- A message is well-formed exactly if the part of the token that it shows is. -/
theorem wellFormed_message : WellFormed (translateParserDiagnostic raw token).message ↔
    (NamesToken raw → ∀ text ∈ tokenText raw token, WellFormed ((unquoted text).take 32)) := by
  rw [← wellFormed_offending, translateParserDiagnostic]
  split_ifs with hunrecognized hmissing hextraneous hmismatched halternative heof
  · exact wellFormed_sentence (isAscii_of_all (by decide)) (Or.inl hunrecognized)
  · exact wellFormed_sentence (isAscii_of_all (by decide)) (by simp [NamesToken, hmissing])
  · exact wellFormed_sentence (isAscii_of_all (by decide)) (by simp [NamesToken, hextraneous])
  · exact wellFormed_sentence (isAscii_of_all (by decide)) (by simp [NamesToken, hmismatched])
  · refine iff_of_true (wellFormed_ascii (isAscii_of_all (by decide))) fun h => ?_
    simp [NamesToken, *] at h
  · refine iff_of_true (wellFormed_ascii (isAscii_of_all (by decide))) fun h => ?_
    rcases heof with heof | heof <;> simp [NamesToken, *] at h
  · exact wellFormed_sentence (isAscii_of_all (by decide))
      (by simp [NamesToken, halternative, not_or.mp heof])

theorem wellFormed_unquoted (h : WellFormed value) : WellFormed (unquoted value) := by
  have htrim : WellFormed (trim value) := by
    refine (wellFormed_trim fun c hc => ?_).mpr h
    simp only [isBlank, Bool.or_eq_true, decide_eq_true_eq] at hc
    rcases hc with ((rfl | rfl) | rfl) | rfl <;> decide
  simp only [unquoted]
  split_ifs with hquoted
  · obtain ⟨hlength, hhead, hlast⟩ := hquoted
    generalize trim value = inner at *
    have hmark : apostrophe < 0x80 := by decide
    obtain ⟨rest, rfl⟩ := List.head?_eq_some_iff.mp hhead
    rw [wellFormed_cons hmark] at htrim
    rw [List.tail_cons]
    rcases List.eq_nil_or_concat' rest with rfl | ⟨shown, last, rfl⟩
    · exact wellFormed_nil
    · rw [List.dropLast_concat]
      have hend : IsAscii [last] := by
        rw [← List.cons_append, List.getLast?_concat, Option.some_inj] at hlast
        simp [IsAscii, hlast, hmark]
      exact (wellFormed_append_ascii hend).mp htrim
  · exact htrim

/-- A well-formed token is shown so exactly if no character lies across its 32nd byte. -/
theorem wellFormed_quote_iff_cut (h : WellFormed value) :
    WellFormed (quote value) ↔ ∀ c ∈ (unquoted value)[32]?, continuation c = false := by
  rw [wellFormed_quote, wellFormed_take_iff (wellFormed_unquoted h)]

end Ilic.Parser
