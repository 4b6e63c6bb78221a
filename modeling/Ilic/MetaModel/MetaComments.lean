import Mathlib.Logic.Function.Basic
import Ilic.Abi.Json
import Ilic.SourceRanges.Cuts

/-! # Documentation and meta attributes of a source

A comment that begins with `/**` documents the next line with an element, and the lines that
begin with `!!@` give meta attributes to it.  Both are taken from the bytes of the source.
-/

namespace Ilic.MetaComments
open Json SourceRanges

def trimCopy (value : Bytes) : Bytes := (value.dropWhile isSpace).rdropWhile isSpace

/-- What `find_first_not_of` passes over at the front of a line. -/
def isMargin (c : UInt8) : Bool := c = 0x20 || c = 0x09 || c = 0x0d

/-- The lines that `getline` reads. -/
def getlines (s : Bytes) : List Bytes :=
  let pieces := s.splitOn lineFeed
  if pieces.getLast? = some [] then pieces.dropLast else pieces

/-- `find`: the text before the first place of a pattern, and the text behind it. -/
def cutAt (pat : Bytes) : Bytes → Option (Bytes × Bytes)
  | [] => if pat = [] then some ([], []) else none
  | c :: s =>
    if pat <+: c :: s then some ([], (c :: s).drop pat.length)
    else (cutAt pat s).map fun (before, behind) => (c :: before, behind)

theorem length_of_cutAt {pat s before behind : Bytes} (h : cutAt pat s = some (before, behind)) :
    pat.length + behind.length ≤ s.length := by
  induction s generalizing before with
  | nil =>
    rw [cutAt] at h
    split_ifs at h with hpat
    cases h
    rw [hpat]
    exact Nat.le_refl _
  | cons c s ih =>
    rw [cutAt] at h
    split_ifs at h with hpat
    · cases h
      have hle := hpat.length_le
      rw [List.length_drop]
      omega
    · obtain ⟨⟨before', behind'⟩, hcut, heq⟩ := Option.map_eq_some_iff.mp h
      cases heq
      exact (ih hcut).trans (Nat.le_succ _)

theorem length_trimCopy (value : Bytes) : (trimCopy value).length ≤ value.length :=
  (List.rdropWhile_prefix isSpace _).length_le.trans (List.dropWhile_suffix isSpace).length_le

/-! ## Documentation -/

def documentationLine (line : Bytes) : Bytes :=
  let line := trimCopy line
  if line.head? = some '*'.toUInt8 then trimCopy line.tail else line

def addLine (result line : Bytes) : Bytes :=
  if result = [] then line else result ++ lineFeed :: line

def normalizeDocumentation (value : Bytes) : Bytes :=
  let normalized := (getlines value).map documentationLine
  ((normalized.dropWhile (· = [])).rdropWhile (· = [])).foldl addLine []

/-- Lines between a comment and the element that it documents. -/
def isSkipped (line : Bytes) : Bool :=
  let trimmed := line.dropWhile isMargin
  trimmed = [] || ascii "!!" <+: trimmed

/-- The number of the line with the element, if the source does not end before it. -/
def elementLine (lineNumber : ℕ) : List Bytes → Option ℕ
  | [] => none
  | [line] => if line = [] then none else some lineNumber
  | line :: lines => if isSkipped line then elementLine (lineNumber + 1) lines else some lineNumber

/-- The content of each comment, and the line of the element behind it. -/
def comments (lineNumber : ℕ) (source : Bytes) : List (Bytes × Option ℕ) :=
  match _hopen : cutAt (ascii "/**") source with
  | none => []
  | some (before, behind) =>
    match _hclose : cutAt (ascii "*/") behind with
    | none => []
    | some (content, after) =>
      let next := lineNumber + before.count lineFeed + content.count lineFeed
      (content, elementLine next (after.splitOn lineFeed)) :: comments next after
termination_by source.length
decreasing_by
  have hbehind := length_of_cutAt _hopen
  have hafter := length_of_cutAt _hclose
  have hlength : (ascii "*/").length = 2 := rfl
  omega

/-- What is kept of a comment replaces what was kept for the same line. -/
def record {α : Type} (make : Bytes → α) (kept : ℕ → Option α) :
    Bytes × Option ℕ → ℕ → Option α
  | (content, some line) =>
    if normalizeDocumentation content = [] then kept
    else Function.update kept line (some (make content))
  | (_, none) => kept

def pendingDocumentation (source : Bytes) : ℕ → Option Bytes :=
  (comments 1 source).foldl (record normalizeDocumentation) fun _ => none

/-! ## Meta attributes -/

structure PendingMetaAttribute where
  name : Bytes
  value : Bytes
  rawText : Bytes
  line : ℕ
  column : ℕ
deriving DecidableEq

/-- The loop of `decode_meta_value` between the quotes. -/
def unescape : Bytes → Bytes
  | 0x5c :: c :: s => if c = 0x5c ∨ c = 0x22 then c :: unescape s else 0x5c :: unescape (c :: s)
  | c :: s => c :: unescape s
  | [] => []

def decodeMetaValue (value : Bytes) : Bytes :=
  let value := trimCopy value
  if value.length < 2 ∨ value.head? ≠ some 0x22 ∨ value.getLast? ≠ some 0x22 then value
  else unescape value.tail.dropLast

inductive DiagnosticId where
  | metaSyntax
  | metaDangling
deriving DecidableEq

structure Report where
  id : DiagnosticId
  message : Bytes
  line : ℕ
  column : ℕ
deriving DecidableEq

/-- The lines up to one; of each attribute it is kept what `make` makes of it. -/
structure Walk (α : Type) where
  inBlockComment : Bool
  pending : List α
  collected : List (ℕ × List α)
  reports : List Report

/-- What follows the comments at the front of a line, unless one of them goes on behind it. -/
def skipComments (trimmed : Bytes) : Option Bytes :=
  if ascii "/*" <+: trimmed then
    match _hclose : cutAt (ascii "*/") (trimmed.drop 2) with
    | none => none
    | some (_, behind) => skipComments (trimCopy behind)
  else some trimmed
termination_by trimmed.length
decreasing_by
  have hbehind := length_of_cutAt _hclose
  have htrim := length_trimCopy behind
  have hlength : (ascii "*/").length = 2 := rfl
  rw [List.length_drop] at hbehind
  omega

section
variable {α : Type} (make : Bytes → Bytes → Bytes → ℕ → ℕ → α)

/-- A line that begins with `!!@`. -/
def visitOption (walk : Walk α) (trimmed : Bytes) (lineNumber column : ℕ) : Walk α :=
  match cutAt (ascii "=") (trimCopy (trimmed.drop 3)) with
  | some (name, value) =>
    if trimCopy name = [] then
      { walk with
        reports := walk.reports ++ [⟨.metaSyntax,
          ascii "invalid meta attribute; expected !!@ name=value", lineNumber, column⟩] }
    else
      { walk with
        pending := walk.pending ++ [make (trimCopy name) value trimmed lineNumber column] }
  | none =>
    { walk with
      reports := walk.reports ++ [⟨.metaSyntax,
        ascii "invalid meta attribute; expected !!@ name=value", lineNumber, column⟩] }

def visitLine (walk : Walk α) (line : Bytes) (lineNumber : ℕ) : Walk α :=
  let trimmed := line.dropWhile isMargin
  let column := (line.takeWhile isMargin).length
  let behind :=
    if walk.inBlockComment then (cutAt (ascii "*/") trimmed).map fun cut => trimCopy cut.2
    else some trimmed
  match behind with
  | none => walk
  | some trimmed =>
    match skipComments trimmed with
    | none => { walk with inBlockComment := true }
    | some trimmed =>
      let walk := { walk with inBlockComment := false }
      if trimmed = [] then walk
      else if ascii "!!@" <+: trimmed then visitOption make walk trimmed lineNumber column
      else if ascii "!!" <+: trimmed ∨ walk.pending = [] then walk
      else
        { walk with
          collected := walk.collected ++ [(lineNumber, walk.pending)]
          pending := [] }

def walkLines (source : Bytes) : Walk α :=
  ((getlines source).zipIdx 1).foldl (fun walk line => visitLine make walk line.1 line.2)
    ⟨false, [], [], []⟩

end

structure Prepared where
  pendingDocumentation : ℕ → Option Bytes
  pendingMetaAttributes : List (ℕ × List PendingMetaAttribute)
  reports : List Report

def metaAttribute (name value rawText : Bytes) (line column : ℕ) : PendingMetaAttribute :=
  ⟨name, decodeMetaValue value, rawText, line, column⟩

def prepareMetaAttributes (source : Bytes) : Prepared where
  pendingDocumentation := pendingDocumentation source
  pendingMetaAttributes := (walkLines metaAttribute source).collected
  reports :=
    let walk := walkLines metaAttribute source
    walk.reports ++ (walk.pending.head?.map fun first => ⟨.metaDangling,
      ascii "meta attribute is not followed by a model element", first.line, first.column⟩).toList

end Ilic.MetaComments
