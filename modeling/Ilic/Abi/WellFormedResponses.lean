import Ilic.MetaModel.MetaComments
import Ilic.Parser.ParserDiagnosticTranslator

/-! # Well-formed responses

What a response says about a source is made of bytes of the source.  It is cut at bytes of the
basic alphabet, which cut no character, but for the token in a message, which is cut behind its
32nd byte.  What is not well-formed in the source stays so, also in the text of the response.
-/

namespace Ilic.MetaComments
open Json SourceRanges

variable {s text value line : Bytes}

/-! ## Documentation -/

theorem ascii_of_isSpace (c : UInt8) (h : isSpace c = true) : c < 0x80 := by
  simp only [isSpace, Bool.or_eq_true, Bool.and_eq_true, decide_eq_true_eq,
    UInt8.le_iff_toNat_le] at h
  rcases h with rfl | ⟨-, h⟩
  · decide
  · exact UInt8.lt_iff_toNat_lt.mpr (Nat.lt_of_le_of_lt h (by decide))

theorem wellFormed_trimCopy {value : Bytes} : WellFormed (trimCopy value) ↔ WellFormed value :=
  wellFormed_trim ascii_of_isSpace

theorem lineFeed_ascii : lineFeed < 0x80 := by decide

theorem wellFormed_getlines : (∀ line ∈ getlines s, WellFormed line) ↔ WellFormed s := by
  have hpieces := wellFormed_intercalate lineFeed_ascii (s.splitOn lineFeed)
  rw [List.intercalate_splitOn] at hpieces
  rw [hpieces]
  simp only [getlines]
  split_ifs with h
  · obtain ⟨pieces, hsplit⟩ := List.getLast?_eq_some_iff.mp h
    rw [hsplit, List.dropLast_concat]
    simp [or_imp, forall_and, wellFormed_nil]
  · rfl

theorem wellFormed_documentationLine : WellFormed (documentationLine line) ↔ WellFormed line := by
  rw [← @wellFormed_trimCopy line]
  simp only [documentationLine]
  split_ifs with h
  · obtain ⟨rest, hrest⟩ := List.head?_eq_some_iff.mp h
    rw [hrest, List.tail_cons, wellFormed_trimCopy, wellFormed_cons (by decide)]
  · rfl

theorem wellFormed_foldl_addLine (lines : List Bytes) (result : Bytes) :
    WellFormed (lines.foldl addLine result) ↔
      WellFormed result ∧ ∀ line ∈ lines, WellFormed line := by
  induction lines generalizing result with
  | nil => simp
  | cons line lines ih =>
    rw [List.foldl_cons, ih, List.forall_mem_cons, ← and_assoc]
    apply and_congr_left'
    rw [addLine]
    split_ifs with h
    · rw [h]
      exact (and_iff_right wellFormed_nil).symm
    · exact wellFormed_between lineFeed_ascii

/-- What is dropped around the others need not be looked at. -/
theorem forall_mem_stripped {P : Bytes → Prop} {dropped : Bytes → Bool}
    (h : ∀ line, dropped line = true → P line) (lines : List Bytes) :
    (∀ line ∈ (lines.dropWhile dropped).rdropWhile dropped, P line) ↔ ∀ line ∈ lines, P line := by
  have hbefore : ∀ line ∈ lines.takeWhile dropped, P line := fun line hline =>
    h line (List.mem_takeWhile_imp hline)
  have hbehind : ∀ line ∈ (lines.dropWhile dropped).rtakeWhile dropped, P line :=
    fun line hline => h line (List.mem_rtakeWhile_imp hline)
  conv_rhs => rw [← List.takeWhile_append_dropWhile (p := dropped) (l := lines),
    ← List.rdropWhile_append_rtakeWhile (p := dropped) (l := lines.dropWhile dropped)]
  simp only [List.forall_mem_append]
  exact ⟨fun hlines => ⟨hbefore, hlines, hbehind⟩, fun hlines => hlines.2.1⟩

theorem wellFormed_normalizeDocumentation :
    WellFormed (normalizeDocumentation value) ↔ WellFormed value := by
  have hempty : ∀ line : Bytes, decide (line = []) = true → WellFormed line := by
    intro line h
    rw [of_decide_eq_true h]
    exact wellFormed_nil
  rw [normalizeDocumentation, wellFormed_foldl_addLine, and_iff_right wellFormed_nil,
    forall_mem_stripped hempty, List.forall_mem_map, ← wellFormed_getlines]
  simp only [wellFormed_documentationLine]

/-- The comments that are recorded, as they stand in the source. -/
def recordedComments (source : Bytes) : ℕ → Option Bytes :=
  (comments 1 source).foldl (record id) fun _ => none

theorem pendingDocumentation_eq (source : Bytes) (lineNumber : ℕ) :
    pendingDocumentation source lineNumber =
      (recordedComments source lineNumber).map normalizeDocumentation := by
  suffices h : ∀ (found : List (Bytes × Option ℕ)) (kept : ℕ → Option Bytes),
      found.foldl (record normalizeDocumentation)
          (fun n => (kept n).map normalizeDocumentation) lineNumber =
        (found.foldl (record id) kept lineNumber).map normalizeDocumentation by
    exact h (comments 1 source) fun _ => none
  intro found
  induction found with
  | nil => exact fun kept => rfl
  | cons comment found ih =>
    intro kept
    have hrecord : record normalizeDocumentation (fun n => (kept n).map normalizeDocumentation)
        comment = fun n => (record id kept comment n).map normalizeDocumentation := by
      obtain ⟨content, _ | line⟩ := comment
      · rfl
      · funext n
        simp only [record]
        split_ifs
        · rfl
        · by_cases hn : n = line
          · rw [hn, Function.update_self, Function.update_self]
            rfl
          · rw [Function.update_of_ne hn, Function.update_of_ne hn]
    rw [List.foldl_cons, List.foldl_cons, hrecord, ih]

/-! ## Meta attributes -/

theorem wellFormed_unescape : WellFormed (unescape s) ↔ WellFormed s := by
  suffices h : ∀ before, WellFormed (before ++ unescape s) ↔ WellFormed (before ++ s) by
    exact h []
  induction s using unescape.induct with
  | case1 c s hc ih =>
    intro before
    have hascii : c < 0x80 := by rcases hc with rfl | rfl <;> decide
    have hrest : WellFormed (unescape s) ↔ WellFormed s := ih []
    rw [unescape, if_pos hc, wellFormed_between hascii, wellFormed_between (by decide),
      wellFormed_cons hascii, hrest]
  | case2 c s hc ih =>
    intro before
    have hrest : WellFormed (unescape (c :: s)) ↔ WellFormed (c :: s) := ih []
    rw [unescape, if_neg hc, wellFormed_between (by decide), wellFormed_between (by decide), hrest]
  | case3 c s hnot ih =>
    intro before
    rw [unescape, ← List.singleton_append, ← List.append_assoc, ih, List.append_assoc]
    · rfl
    · exact hnot
  | case4 => exact fun before => Iff.rfl

theorem wellFormed_decodeMetaValue : WellFormed (decodeMetaValue value) ↔ WellFormed value := by
  rw [← @wellFormed_trimCopy value]
  simp only [decodeMetaValue]
  split_ifs with h
  · rfl
  · rw [not_or, not_or, not_not, not_not] at h
    obtain ⟨hlength, hhead, hlast⟩ := h
    generalize trimCopy value = inner at *
    obtain ⟨rest, rfl⟩ := List.head?_eq_some_iff.mp hhead
    rw [wellFormed_unescape, wellFormed_cons (by decide), List.tail_cons]
    rcases List.eq_nil_or_concat' rest with rfl | ⟨shown, last, rfl⟩
    · rfl
    · rw [← List.cons_append, List.getLast?_concat, Option.some_inj] at hlast
      have hend : IsAscii [last] := by simp [IsAscii, hlast]
      rw [List.dropLast_concat, wellFormed_append_ascii hend]

section
variable {α β : Type} (f : α → β) (make : Bytes → Bytes → Bytes → ℕ → ℕ → α)

def Walk.map (walk : Walk α) : Walk β where
  inBlockComment := walk.inBlockComment
  pending := walk.pending.map f
  collected := walk.collected.map fun entry => (entry.1, entry.2.map f)
  reports := walk.reports

theorem visitOption_map (walk : Walk α) (trimmed : Bytes) (lineNumber column : ℕ) :
    visitOption (fun name value rawText line column => f (make name value rawText line column))
        (walk.map f) trimmed lineNumber column =
      (visitOption make walk trimmed lineNumber column).map f := by
  simp only [visitOption]
  split
  · split_ifs
    · rfl
    · simp [Walk.map]
  · rfl

theorem visitLine_map (walk : Walk α) (line : Bytes) (lineNumber : ℕ) :
    visitLine (fun name value rawText line column => f (make name value rawText line column))
        (walk.map f) line lineNumber =
      (visitLine make walk line lineNumber).map f := by
  have hblock : (walk.map f).inBlockComment = walk.inBlockComment := rfl
  simp only [visitLine, hblock]
  split
  · rfl
  · split
    · rfl
    · split_ifs
      · rfl
      · exact visitOption_map f make { walk with inBlockComment := false } _ _ _
      all_goals simp_all [Walk.map]

/-- What is kept of an attribute does not change the way through the lines. -/
theorem walkLines_map (source : Bytes) :
    walkLines (fun name value rawText line column => f (make name value rawText line column))
      source = (walkLines make source).map f := by
  suffices h : ∀ (lines : List (Bytes × ℕ)) (walk : Walk α),
      lines.foldl (fun walk line => visitLine
          (fun name value rawText line column => f (make name value rawText line column)) walk
            line.1 line.2) (walk.map f) =
        (lines.foldl (fun walk line => visitLine make walk line.1 line.2) walk).map f by
    exact h _ ⟨false, [], [], []⟩
  intro lines
  induction lines with
  | nil => exact fun walk => rfl
  | cons line lines ih =>
    intro walk
    rw [List.foldl_cons, List.foldl_cons, visitLine_map, ih]

end

/-- What stands behind the equals signs of the collected attributes. -/
def rawValues (source : Bytes) : List Bytes :=
  (walkLines (fun _ value _ _ _ => value) source).collected.flatMap Prod.snd

theorem values_eq (source : Bytes) :
    ((prepareMetaAttributes source).pendingMetaAttributes.flatMap Prod.snd).map
        PendingMetaAttribute.value = (rawValues source).map decodeMetaValue := by
  have hvalue := walkLines_map PendingMetaAttribute.value metaAttribute source
  have hraw := walkLines_map decodeMetaValue (fun _ value _ _ _ => value) source
  have hcollected := congrArg Walk.collected (hvalue.symm.trans hraw)
  have hflat := congrArg (List.flatMap Prod.snd) hcollected
  simpa only [Walk.map, List.flatMap_map, List.map_flatMap, rawValues, prepareMetaAttributes]
    using hflat

end Ilic.MetaComments

namespace Ilic.Json
open SourceRanges

variable {value : Bytes}

/-- The printer escapes bytes of the basic alphabet only. -/
theorem wellFormed_quote : WellFormed (quote value) ↔ WellFormed value := by
  have hmark : '"'.toUInt8 < 0x80 := by decide
  rw [quote, wellFormed_cons hmark, wellFormed_between hmark, and_iff_left wellFormed_nil]
  apply wellFormed_flatMap
  · intro c hc
    unfold escape
    have hdigits : IsAscii hexDigits := Parser.isAscii_of_all (by decide)
    have hdigit : ∀ i, hexDigits.getD i 0 < 0x80 := by
      intro i
      rw [List.getD_eq_getElem?_getD]
      cases hi : hexDigits[i]? with
      | none => decide
      | some d => exact hdigits d (List.mem_of_getElem? hi)
    have hnibbles : IsAscii (ascii "\\u00" ++ [hexDigits.getD (c.toNat >>> 4) 0,
        hexDigits.getD (c.toNat &&& 0x0f) 0]) := by
      intro d hd
      rcases List.mem_append.mp hd with hd | hd
      · have hprefixed : IsAscii (ascii "\\u00") := Parser.isAscii_of_all (by decide)
        exact hprefixed d hd
      · simp only [List.mem_cons, List.not_mem_nil, or_false] at hd
        rcases hd with rfl | rfl <;> exact hdigit _
    split_ifs
    all_goals first
      | exact ⟨by decide, Parser.isAscii_of_all (by decide)⟩
      | exact ⟨List.append_ne_nil_of_right_ne_nil _ (List.cons_ne_nil _ _), hnibbles⟩
      | exact ⟨List.cons_ne_nil _ _, by simpa [IsAscii] using hc⟩
  · intro c hc
    have hne : ∀ d : UInt8, d < 0x80 → c ≠ d := by
      rintro d hd rfl
      exact hc hd
    have hcontrol : ¬ c < 0x20 := fun h => hc (UInt8.lt_trans h (by decide))
    rw [escape, if_neg (hne _ (by decide)), if_neg (hne _ (by decide)), if_neg (hne _ (by decide)),
      if_neg (hne _ (by decide)), if_neg (hne _ (by decide)), if_neg (hne _ (by decide)),
      if_neg (hne _ (by decide)), if_neg hcontrol]

/-! ## The responses about a source -/

/-- What `translateParserDiagnostic` and `prepareMetaAttributes` give for the responses. -/
inductive IsResponse (rawMessage token source : Bytes) : Bytes → Prop where
  | message :
      IsResponse rawMessage token source
        (Parser.translateParserDiagnostic rawMessage token).message
  | documentation {lineNumber : ℕ} {text : Bytes}
      (h : (MetaComments.prepareMetaAttributes source).pendingDocumentation lineNumber =
        some text) : IsResponse rawMessage token source text
  | metaAttribute {lineNumber : ℕ} {attributes : List MetaComments.PendingMetaAttribute}
      {found : MetaComments.PendingMetaAttribute}
      (h : (lineNumber, attributes) ∈
        (MetaComments.prepareMetaAttributes source).pendingMetaAttributes)
      (hfound : found ∈ attributes) : IsResponse rawMessage token source found.value

theorem forall_response {rawMessage token source : Bytes} {P : Bytes → Prop} :
    (∀ text, IsResponse rawMessage token source text → P text) ↔
      P (Parser.translateParserDiagnostic rawMessage token).message ∧
        (∀ lineNumber content,
          MetaComments.recordedComments source lineNumber = some content →
            P (MetaComments.normalizeDocumentation content)) ∧
          ∀ value ∈ MetaComments.rawValues source, P (MetaComments.decodeMetaValue value) := by
  have hdocumentation := MetaComments.pendingDocumentation_eq source
  have hvalues := MetaComments.values_eq source
  constructor
  · intro h
    refine ⟨h _ .message, fun lineNumber content hrecorded => ?_, fun value hvalue => ?_⟩
    · have hpending : (MetaComments.prepareMetaAttributes source).pendingDocumentation lineNumber =
          some (MetaComments.normalizeDocumentation content) := by
        show MetaComments.pendingDocumentation source lineNumber = _
        rw [hdocumentation, hrecorded]
        rfl
      exact h _ (.documentation hpending)
    · have hmem := List.mem_map_of_mem (f := MetaComments.decodeMetaValue) hvalue
      rw [← hvalues] at hmem
      obtain ⟨found, hfound, heq⟩ := List.mem_map.mp hmem
      obtain ⟨⟨lineNumber, attributes⟩, hcollected, hattribute⟩ := List.mem_flatMap.mp hfound
      rw [← heq]
      exact h _ (.metaAttribute hcollected hattribute)
  · rintro ⟨hmessage, hcomments, hraw⟩ text hresponse
    cases hresponse with
    | message => exact hmessage
    | @documentation lineNumber text h =>
      have hpending := (hdocumentation lineNumber).symm.trans h
      obtain ⟨content, hrecorded, rfl⟩ := Option.map_eq_some_iff.mp hpending
      exact hcomments lineNumber content hrecorded
    | @metaAttribute lineNumber attributes found h hfound =>
      have hmem := List.mem_map_of_mem (f := MetaComments.PendingMetaAttribute.value)
        (List.mem_flatMap_of_mem (f := Prod.snd) h hfound)
      rw [hvalues] at hmem
      obtain ⟨value, hvalue, heq⟩ := List.mem_map.mp hmem
      rw [← heq]
      exact hraw value hvalue

/-- The responses, and the texts printed of them, are well-formed exactly if what they show is:
the first 32 bytes of the token, the comments that are recorded and the values of the attributes
that are collected. -/
theorem responses_wellFormed_iff (overflowed : ℤ) (rawMessage token source : Bytes) :
    (∀ text, IsResponse rawMessage token source text →
        WellFormed text ∧ WellFormed (stringify overflowed (.string text))) ↔
      (Parser.NamesToken rawMessage → ∀ text ∈ Parser.tokenText rawMessage token,
          WellFormed ((Parser.unquoted text).take 32)) ∧
        (∀ lineNumber content,
          MetaComments.recordedComments source lineNumber = some content → WellFormed content) ∧
          ∀ value ∈ MetaComments.rawValues source, WellFormed value := by
  have hstringify : ∀ text, WellFormed (stringify overflowed (.string text)) ↔ WellFormed text := by
    intro text
    rw [stringify, wellFormed_quote]
  simp only [hstringify, and_self]
  rw [forall_response, Parser.wellFormed_message]
  simp only [MetaComments.wellFormed_normalizeDocumentation,
    MetaComments.wellFormed_decodeMetaValue]

/-- A string of sixteen letters with two bytes each, the last of which begins at the 32nd byte. -/
def umlauts : Bytes := 0x22 :: ((List.replicate 16 [0xc3, 0xa4]).flatten ++ [0x22])

/-- The message shows half of the last letter. -/
theorem letter_cut : ¬ ∀ (overflowed : ℤ) (rawMessage token source text : Bytes),
    IsResponse rawMessage token source text →
      WellFormed text ∧ WellFormed (stringify overflowed (.string text)) := by
  intro hall
  have hmessage := (hall 0 (ascii "mismatched input") umlauts [] _ .message).1
  have hnames : Parser.NamesToken (ascii "mismatched input") := by decide
  have hcut := Parser.wellFormed_message.mp hmessage hnames umlauts rfl
  have hshown : Parser.unquoted umlauts = umlauts := by decide
  have hletters : WellFormed umlauts := ⟨'"' :: (List.replicate 16 'ä' ++ ['"']), by decide⟩
  rw [hshown, wellFormed_take_iff hletters] at hcut
  cases hcut 0xa4 rfl

end Ilic.Json
