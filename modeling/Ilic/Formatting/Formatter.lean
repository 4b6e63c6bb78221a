import Ilic.Diagnostics.Pipeline
import Ilic.Foundation.Lines

/-! # The formatter

`Formatter::format` takes a source for UTF-8 if every lead byte is followed by as many
continuation bytes as it announces, and converts it from ISO-8859-1 otherwise.  It works on the
lines of the source: each one is stripped and indented by the number of blocks that are open,
and a run of blank lines becomes one.  Whether a line opens or closes a block is seen from its
words alone.
-/

namespace Ilic.Formatting
open Foundation
open Foundation Diagnostics

/-! ## The encoding -/

/-- `static_cast<unsigned char>`. -/
def byte (c : Char) : ℕ := c.toNat % 256

/-- The number of continuation bytes that a lead byte announces. -/
def continuations (lead : ℕ) : Option ℕ :=
  if lead &&& 0xe0 = 0xc0 then some 1
  else if lead &&& 0xf0 = 0xe0 then some 2
  else if lead &&& 0xf8 = 0xf0 then some 3
  else none

/-- How many continuation bytes have to follow a byte, when so many had to follow the bytes
before it. -/
def pending (count : ℕ) (c : Char) : Option ℕ :=
  match count with
  | 0 => if byte c < 0x80 then some 0 else continuations (byte c)
  | count + 1 => if byte c &&& 0xc0 = 0x80 then some count else none

def isValidUtf8 (text : Text) : Bool := text.foldlM pending 0 = some 0

def latin1Byte (b : ℕ) : Text :=
  if b < 0x80 then [Char.ofNat b]
  else [Char.ofNat (0xc0 ||| (b >>> 6)), Char.ofNat (0x80 ||| (b &&& 0x3f))]

def latin1ToUtf8 (text : Text) : Text := text.flatMap fun c => latin1Byte (byte c)

/-! ## Bytes of the basic alphabet -/

theorem isValidUtf8_iff {text : Text} : isValidUtf8 text = true ↔ text.foldlM pending 0 = some 0 :=
  decide_eq_true_iff

theorem isValidUtf8_append {a b : Text} (ha : isValidUtf8 a = true) (hb : isValidUtf8 b = true) :
    isValidUtf8 (a ++ b) = true := by
  rw [isValidUtf8_iff] at *
  rw [List.foldlM_append, ha]
  exact hb

/-- A byte of the basic alphabet stands between two characters. -/
theorem isValidUtf8_append_cons {c : Char} (hc : byte c < 0x80) {a b : Text} :
    isValidUtf8 (a ++ c :: b) = true ↔ isValidUtf8 a = true ∧ isValidUtf8 b = true := by
  have hpending : ∀ count, pending count c = if count = 0 then some 0 else none := by
    intro count
    cases count with
    | zero => exact if_pos hc
    | succ count =>
      have hle : byte c &&& 0xc0 ≤ byte c := Nat.and_le_left
      exact if_neg (by omega)
  simp only [isValidUtf8_iff, List.foldlM_append, List.foldlM_cons]
  cases a.foldlM pending 0 with
  | none => simp
  | some count => by_cases hcount : count = 0 <;> simp [hpending, hcount]

theorem isValidUtf8_ascii_append {a b : Text} (ha : ∀ c ∈ a, byte c < 0x80) :
    isValidUtf8 (a ++ b) = true ↔ isValidUtf8 b = true := by
  induction a with
  | nil => rfl
  | cons c a ih =>
    rw [List.forall_mem_cons] at ha
    have hcons := isValidUtf8_append_cons (a := []) (b := a ++ b) ha.1
    exact hcons.trans ((and_iff_right rfl).trans (ih ha.2))

theorem isValidUtf8_ascii {text : Text} (h : ∀ c ∈ text, byte c < 0x80) :
    isValidUtf8 text = true := by
  rw [← List.append_nil text, isValidUtf8_ascii_append h]
  rfl

theorem isValidUtf8_of_append_ascii {a b : Text} (hb : ∀ c ∈ b, byte c < 0x80)
    (h : isValidUtf8 (a ++ b) = true) : isValidUtf8 a = true := by
  cases b with
  | nil => rwa [List.append_nil] at h
  | cons c b => exact ((isValidUtf8_append_cons (hb c List.mem_cons_self)).mp h).1

/-- Every byte becomes one character. -/
theorem isValidUtf8_latin1Byte : ∀ b : Fin 256, isValidUtf8 (latin1Byte b) = true := by
  decide +kernel

theorem isValidUtf8_latin1ToUtf8 (text : Text) : isValidUtf8 (latin1ToUtf8 text) = true := by
  induction text with
  | nil => rfl
  | cons c text ih =>
    have hbyte := isValidUtf8_latin1Byte ⟨byte c, Nat.mod_lt _ (by decide)⟩
    exact isValidUtf8_append hbyte ih

/-! ## Lines -/

theorem isValidUtf8_getlines {s line : Text} (hs : isValidUtf8 s = true)
    (h : line ∈ getlines s) : isValidUtf8 line = true := by
  induction s using lines_induction with
  | nil => cases h
  | last s hne hfeed =>
    rw [getlines_last hne hfeed, List.mem_singleton] at h
    exact h ▸ hs
  | cons first rest hfirst ih =>
    rw [getlines_line_append first rest hfirst] at h
    obtain ⟨hvalid, hrest⟩ := (isValidUtf8_append_cons (by decide)).mp hs
    rcases List.mem_cons.mp h with rfl | h
    · exact hvalid
    · exact ih hrest h

theorem isValidUtf8_endLines {newline : Text} {lines : List Text}
    (hnewline : isValidUtf8 newline = true) (h : ∀ line ∈ lines, isValidUtf8 line = true) :
    isValidUtf8 (endLines newline lines) = true := by
  induction lines with
  | nil => rfl
  | cons line lines ih =>
    rw [List.forall_mem_cons] at h
    exact isValidUtf8_append (isValidUtf8_append h.1 hnewline) (ih h.2)

/-- Stripping a text takes away bytes of the basic alphabet only. -/
theorem isValidUtf8_strip {space : Char → Bool} (hspace : ∀ c, space c = true → byte c < 0x80)
    {s : Text} (hs : isValidUtf8 s = true) : isValidUtf8 (strip space s) = true := by
  obtain ⟨before, behind, hsplit, hbefore, hbehind⟩ := exists_strip space s
  rw [hsplit, List.append_assoc] at hs
  have hdropped := (isValidUtf8_ascii_append fun c hc => hspace c (hbefore c hc)).mp hs
  exact isValidUtf8_of_append_ascii (fun c hc => hspace c (hbehind c hc)) hdropped

/-! ## Words of a line -/

def trim (value : Text) : Text := strip isSpace value

def startsWord (text word : Text) : Bool :=
  Text.startsWith word text && match text[word.length]? with
    | none => true
    | some c => !c.isAlphanum

/-- The words of a declaration that opens a block. -/
def blockWords : List Text :=
  ["MODEL".toList, "TYPE MODEL".toList, "REFSYSTEM MODEL".toList, "SYMBOLOGY MODEL".toList,
    "TOPIC".toList, "VIEW TOPIC".toList, "CLASS".toList, "STRUCTURE".toList,
    "ASSOCIATION".toList, "VIEW".toList, "GRAPHIC".toList, "CONSTRAINTS OF".toList]

def contains (line pat : Text) : Bool := pat <:+: line

def opensNamedBlock (line : Text) : Bool :=
  let declaration := blockWords.any fun word =>
    startsWord line word || contains line (' ' :: word ++ [' '])
  declaration &&
    (startsWord line "VIEW".toList && line.getLast? != some ';' && !line.contains '=' ||
      line.getLast? == some '=')

def canonicalMetaAttribute (line : Text) : Text :=
  if Text.startsWith "!!@".toList line then
    let value := trim (line.drop 3)
    if '=' ∈ value then
      "!!@ ".toList ++ trim (value.takeWhile (· ≠ '=')) ++
        '=' :: trim ((value.dropWhile (· ≠ '=')).drop 1)
    else "!!@ ".toList ++ value
  else line

/-! ## Lines of a text -/

/-- A carriage return in front of the line feed does not belong to the line. -/
def withoutReturn (line : Text) : Text :=
  if line.getLast? = some '\r' then line.dropLast else line

def splitLines (text : Text) : List Text := (getlines text).map withoutReturn

/-- The line feeds behind a carriage return and the others. -/
def countEndings (previous : Option Char) : Text → ℕ × ℕ
  | [] => (0, 0)
  | c :: rest =>
    let (crlf, lf) := countEndings (some c) rest
    if c = '\n' then if previous = some '\r' then (crlf + 1, lf) else (crlf, lf + 1)
    else (crlf, lf)

def dominantLineEnding (text : Text) : Text :=
  let (crlf, lf) := countEndings none text
  if crlf > lf then ['\r', '\n'] else ['\n']

/-! ## The loop over the lines -/

def closesBlock (line : Text) : Bool := startsWord line "END".toList || line.head? == some ')'

/-- The indentation at a line that closes a block is that of the line which opened it. -/
def indentAt (indent : ℕ) (line : Text) : ℕ :=
  if closesBlock line then indent - 1 else indent

def indentBehind (indent : ℕ) (line : Text) : ℕ :=
  if opensNamedBlock line then indent + 1
  else if line.getLast? = some '(' then indent + 1
  else indent

/-- Whether the line after this one is part of a block comment. -/
def commentBehind (inBlockComment : Bool) (line : Text) : Bool :=
  let opened := !inBlockComment && Text.startsWith "/*".toList line &&
    !contains (line.drop 2) "*/".toList
  (inBlockComment || opened) && !contains line "*/".toList

structure Printer where
  output : Text := []
  indent : ℕ := 0
  inBlockComment : Bool := false
  previousBlank : Bool := false

/-- One turn of the loop. -/
def Printer.print (indentUnit newline : Text) (p : Printer) (original : Text) : Printer :=
  let line := trim original
  if line = [] then
    { p with
      output := if p.previousBlank then p.output else p.output ++ newline
      previousBlank := true }
  else
    let commentContinuation := p.inBlockComment && line.head? == some '*'
    let indent := indentAt p.indent line
    { output := p.output ++ (List.replicate indent indentUnit).flatten ++
        (if commentContinuation then [' '] else []) ++ canonicalMetaAttribute line ++ newline
      indent := indentBehind indent line
      inBlockComment := commentBehind p.inBlockComment line
      previousBlank := false }

/-! ## The formatter -/

structure FormatOptions where
  indentSize : ℕ := 2
  requireValidSyntax : Bool := true

structure FormatResult where
  success : Bool := false
  applicable : Bool := false
  changed : Bool := false
  text : Text := []
  diagnostics : List Diagnostic := []

def encodingDiagnostic : Diagnostic :=
  { severity := .warning
    code := "ILIC-FORMAT-ENCODING".toList
    message := "input was converted from ISO-8859-1 to UTF-8".toList }

def versionDiagnostic : Diagnostic :=
  { code := "ILIC-FORMAT-VERSION".toList
    message := "Ili2cStyle formatting currently supports INTERLIS 2.3 and 2.4".toList }

def parseDiagnostic (what : Text) : Diagnostic :=
  { code := "ILIC-PARSE-ENCODING".toList
    message := "unable to decode source as UTF-8: ".toList ++ what }

/-- What the parser reports, or the text of the exception that it throws. -/
abbrev Validate := Text → Text → Except Text (List Diagnostic)

/-- The source as UTF-8, and the warning if it had to be converted. -/
def decodeSource (utf8 : Text) : Text × List Diagnostic :=
  if isValidUtf8 utf8 then (utf8, []) else (latin1ToUtf8 utf8, [encodingDiagnostic])

def supportedVersion (source : Text) : Bool :=
  contains source "INTERLIS 2.3".toList || contains source "INTERLIS 2.4".toList

def layout (options : FormatOptions) (source : Text) : Text :=
  let newline := dominantLineEnding source
  let indentUnit := List.replicate options.indentSize ' '
  ((splitLines source).foldl (Printer.print indentUnit newline) {}).output

def format (validate : Validate) (uri utf8 : Text) (options : FormatOptions) : FormatResult :=
  let (source, encoding) := decodeSource utf8
  if !supportedVersion source then
    { text := source, diagnostics := encoding ++ [versionDiagnostic] }
  else
    let syntaxErrors :=
      if options.requireValidSyntax then
        match validate uri source with
        | .ok diagnostics => diagnostics
        | .error what => [parseDiagnostic what]
      else []
    let diagnostics := encoding ++ syntaxErrors
    if options.requireValidSyntax && diagnostics.any fun d => d.severity = .error then
      { text := source, diagnostics }
    else
      let text := layout options source
      { success := true, applicable := true, changed := text ≠ utf8, text, diagnostics }

end Ilic.Formatting
