import Ilic.Foundation.Text
import Ilic.Repository.Parse

/-! # Repository URIs of the JavaScript package

The functions of `repository-uri.js`.  An exception is an error that carries the message.
`normalizePath` reads the same root and the same parts as the native `normalizeSlashes`, and
differs only in how it writes a path without parts.  The accepted texts are the native ones
as well.
-/

namespace Ilic.RepositoryCore
open Ilic.Text
open Ilic.Text Repository Foundation Foundation.PosixPath

def windowsDrive : Text → Bool
  | c :: d :: _ => c.isAlpha && d == ':'
  | _ => false

def isSchemeChar (c : Char) : Bool := c.isAlphanum || c = '+' || c = '.' || c = '-'

/-- `/^[A-Za-z][A-Za-z0-9+.-]*:/`, and not a drive. -/
def hasScheme (value : Text) : Bool :=
  (match value with
    | [] => false
    | c :: rest => c.isAlpha && ((rest.dropWhile isSchemeChar).head? == some ':'))
    && !windowsDrive value

/-- The items of a percent-encoded text: a character, or an escaped byte.  A
percent sign without two hexadecimal digits has no reading. -/
def escapeItems : Text → Option (List (Char ⊕ ℕ))
  | [] => some []
  | c :: rest =>
    if c ≠ '%' then (escapeItems rest).map (.inl c :: ·)
    else match rest with
      | high :: low :: rest' =>
        match hexDigit high, hexDigit low with
        | some a, some b => (escapeItems rest').map (.inr (a * 16 + b) :: ·)
        | _, _ => none
      | _ => none

/-- The value of a continuation byte. -/
def continuation (b : ℕ) : Option ℕ := if 128 ≤ b ∧ b < 192 then some (b - 128) else none

/-- A code point that UTF-8 may encode in this number of bytes. -/
def codePoint (least value : ℕ) : Option Char :=
  if least ≤ value ∧ value.isValidChar then some (Char.ofNat value) else none

/-- Runs of escaped bytes are read as UTF-8. -/
def decodeItems : List (Char ⊕ ℕ) → Option Text
  | [] => some []
  | .inl c :: rest => (decodeItems rest).map (c :: ·)
  | .inr b :: rest =>
    if b < 128 then (decodeItems rest).map (Char.ofNat b :: ·)
    else if 192 ≤ b ∧ b < 224 then
      match rest with
      | .inr b₁ :: rest => do
        let c ← codePoint 128 ((b - 192) * 64 + (← continuation b₁))
        (decodeItems rest).map (c :: ·)
      | _ => none
    else if 224 ≤ b ∧ b < 240 then
      match rest with
      | .inr b₁ :: .inr b₂ :: rest => do
        let c ← codePoint 2048
          (((b - 224) * 64 + (← continuation b₁)) * 64 + (← continuation b₂))
        (decodeItems rest).map (c :: ·)
      | _ => none
    else if 240 ≤ b ∧ b < 248 then
      match rest with
      | .inr b₁ :: .inr b₂ :: .inr b₃ :: rest => do
        let c ← codePoint 65536
          ((((b - 240) * 64 + (← continuation b₁)) * 64 + (← continuation b₂)) * 64
            + (← continuation b₃))
        (decodeItems rest).map (c :: ·)
      | _ => none
    else none

/-- `none` stands for a thrown `URIError`. -/
def decodeURIComponent (value : Text) : Option Text := (escapeItems value).bind decodeItems

def nul : Char := Char.ofNat 0

def decodeFilePath (value : Text) : Except Text Text :=
  match decodeURIComponent value with
  | none => .error "invalid percent escape in file URI".toList
  | some decoded =>
    if nul ∈ decoded then .error "NUL is not permitted in a file URI".toList
    else .ok decoded

def pathStep (rooted : Bool) (parts : List Text) (part : Text) : List Text :=
  if part = [] ∨ part = ['.'] then parts
  else if part = ['.', '.'] ∧ parts ≠ [] ∧ parts.getLast? ≠ some ['.', '.'] then parts.dropLast
  else if part ≠ ['.', '.'] ∨ rooted = false then parts ++ [part]
  else parts

/-- `.replace(/\/$/, "")`: one trailing slash goes. -/
def dropTrailingSlash (s : Text) : Text := if s.getLast? = some '/' then s.dropLast else s

/-- The root that `normalizePath` writes, and the text it splits. -/
def splitRoot (replaced : Text) : Text × Text :=
  if startsWith ['/', '/'] replaced then (['/', '/'], replaced.drop 2)
  else if startsWith ['/'] replaced then (['/'], replaced.drop 1)
  else if windowsDrive replaced then
    let rest := replaced.drop 2
    (replaced.take 2 ++ ['/'], if startsWith ['/'] rest then rest.drop 1 else rest)
  else ([], replaced)

def normalizePath (value : Text) : Text :=
  let (root, rest) := splitRoot (forwardSlashes value)
  let parts := (rest.splitOn '/').foldl (pathStep (root ≠ [])) []
  let joined := dropTrailingSlash (root ++ ['/'].intercalate parts)
  if joined = [] then ['.'] else joined

def isSuffixStart (c : Char) : Bool := c = '?' || c = '#'

def remoteStep (parts : List Text) (part : Text) : List Text :=
  if part = [] ∨ part = ['.'] then parts
  else if part = ['.', '.'] then (if parts ≠ [] then parts.dropLast else parts)
  else parts ++ [part]

def schemeSeparator : Text := [':', '/', '/']

/-- A remote text up to its path, and the path from its first slash on. -/
def splitAuthority (base : Text) : Text × Text :=
  let cut := cutAfter schemeSeparator base
  (cut.1 ++ cut.2.takeWhile (· ≠ '/'), cut.2.dropWhile (· ≠ '/'))

def normalizeRemote (value : Text) : Text :=
  let base := value.takeWhile (!isSuffixStart ·)
  let suffix := value.dropWhile (!isSuffixStart ·)
  match splitAuthority base with
  | (_, []) => base ++ suffix
  | (authority, _ :: path) =>
    let parts := (path.splitOn '/').foldl remoteStep []
    authority ++ (if parts ≠ [] then '/' :: ['/'].intercalate parts else []) ++ suffix

/-- `/^https?:\/\//i`. -/
def isHttp (value : Text) : Bool :=
  startsWith "http://".toList (lower (value.take 7))
    || startsWith "https://".toList (lower (value.take 8))

/-- `/^file:\/\//i`. -/
def isFile (value : Text) : Bool := startsWith "file://".toList (lower (value.take 7))

def normalizeRepositoryUri (value : Text) : Except Text Text :=
  if value = [] then .error "repository URI is empty".toList
  else if isHttp value then
    if nul ∈ value then .error "NUL is not permitted in a repository URI".toList
    else .ok (normalizeRemote value)
  else if isFile value then
    match decodeFilePath (cutAfter schemeSeparator value).2 with
    | .error message => .error message
    | .ok raw =>
      let path := normalizePath (if startsWith ['/'] raw then raw else ['/', '/'] ++ raw)
      .ok (if startsWith ['/', '/'] path then "file:".toList ++ path
        else "file://".toList ++ path)
  else if hasScheme value then
    .error ("unsupported repository URI scheme in ".toList ++ value)
  else if nul ∈ value then .error "NUL is not permitted in a repository URI".toList
  else .ok (normalizePath value)

/-- Resolution against a normalised remote base. -/
def resolveRemote (normalizedBase clean : Text) : Except Text Text :=
  let root := normalizedBase.takeWhile (!isSuffixStart ·)
  let suffix := normalizedBase.dropWhile (!isSuffixStart ·)
  if startsWith ['/', '/'] clean then
    normalizeRepositoryUri (root.takeWhile (· ≠ ':') ++ ':' :: clean)
  else if startsWith ['?'] clean ∨ startsWith ['#'] clean then
    normalizeRepositoryUri (root ++ clean)
  else if startsWith ['/'] clean then
    normalizeRepositoryUri ((splitAuthority root).1 ++ clean)
  else normalizeRepositoryUri (root ++ '/' :: clean ++ suffix)

def resolveRepositoryUri (base relative : Text) : Except Text Text :=
  if nul ∈ relative then .error "repository link is invalid".toList
  else if hasScheme relative ∨ windowsDrive relative ∨ startsWith ['\\', '\\'] relative then
    normalizeRepositoryUri relative
  else
    match normalizeRepositoryUri base with
    | .error message => .error message
    | .ok normalizedBase =>
      let clean := forwardSlashes relative
      if isHttp normalizedBase then resolveRemote normalizedBase clean
      else if startsWith ['/'] relative then normalizeRepositoryUri relative
      else if isFile normalizedBase then
        let raw := (cutAfter schemeSeparator normalizedBase).2
        normalizeRepositoryUri ("file://".toList ++ normalizePath (raw ++ '/' :: clean))
      else .ok (normalizePath (normalizedBase ++ '/' :: clean))

/-! ## The file of an index entry -/

/-- The parts of a relative path that name something. -/
def namedParts (normalized : Text) : List Text :=
  (normalized.splitOn '/').filter fun part => part ≠ [] ∧ part ≠ ['.']

/-- `/(^|\/)\.\.(\/|$)/`: one part of the path leads up. -/
def leadsUp (path : Text) : Prop := ['.', '.'] ∈ path.splitOn '/'

instance (path : Text) : Decidable (leadsUp path) :=
  inferInstanceAs (Decidable (['.', '.'] ∈ path.splitOn '/'))

/-- The path that a file of an index entry has below its repository. -/
def validateRepositoryRelativePath (value : Text) : Except Text Text :=
  if value = [] then .error "repository path is empty".toList
  else if nul ∈ value then .error "repository path contains NUL".toList
  else
    let normalized := forwardSlashes value
    match decodeURIComponent normalized with
    | none => .error "repository path has invalid percent escape".toList
    | some decoded =>
      -- a traversal may be written with escapes, which the transport decodes
      if decoded ≠ normalized ∧ leadsUp decoded then
        .error "repository path must not contain parent traversal".toList
      else if startsWith ['/'] normalized ∨ startsWith ['/', '/'] normalized
          ∨ windowsDrive normalized ∨ hasScheme normalized then
        .error "repository path must be relative".toList
      else if leadsUp normalized then
        .error "repository path must not contain parent traversal".toList
      else if namedParts normalized = [] then .error "repository path is empty".toList
      else .ok (['/'].intercalate (namedParts normalized))

theorem windowsDrive_eq : windowsDrive = isWindowsDrivePath := rfl

theorem schemeChar_eq (c : Char) : RepositoryCore.isSchemeChar c = Repository.isSchemeChar c := by
  unfold RepositoryCore.isSchemeChar Repository.isSchemeChar
  rw [Bool.or_assoc (c.isAlphanum || decide (c = '+')), Bool.or_comm (decide (c = '.')),
    ← Bool.or_assoc]

theorem schemeRest_eq (v : Text) :
    ((v.dropWhile RepositoryCore.isSchemeChar).head? == some ':') = schemeRest v := by
  induction v with
  | nil => rfl
  | cons c v ih =>
    rw [schemeRest, List.dropWhile_cons, schemeChar_eq]
    by_cases hcolon : c = ':'
    · subst hcolon
      rfl
    · by_cases hchar : Repository.isSchemeChar c = true
      · rw [if_pos hchar, ih, if_neg hcolon, if_neg]
        simpa [Repository.isSchemeChar, or_assoc, or_iff_not_imp_left] using hchar
      · rw [if_neg hchar, if_neg hcolon, if_pos]
        · simp [hcolon]
        · simpa [Repository.isSchemeChar, and_assoc] using hchar

/-- The pattern of the package excludes drives, the native test does not. -/
theorem hasScheme_eq (v : Text) :
    RepositoryCore.hasScheme v = (Repository.hasScheme v && !isWindowsDrivePath v) := by
  unfold RepositoryCore.hasScheme
  cases v with
  | nil => rfl
  | cons c v =>
    simp only [schemeRest_eq, windowsDrive_eq]
    rfl

/-! ## Paths -/

/-- What `normalizePath` writes: a root without parts loses its slash. -/
def scriptRender : LocalRoot → List Text → Text
  | .absolute, [] => ['.']
  | .drive letter true, [] => [letter, ':']
  | root, parts => root.render parts

def scriptText (p : LocalPath) : Text := scriptRender p.root p.parts

/-- A path that is only a root with a slash is written in two ways. -/
def RootOnlyPath (p : LocalPath) : Prop :=
  p.parts = [] ∧ (p.root = .absolute ∨ ∃ letter, p.root = .drive letter true)

theorem scriptRender_cons (root : LocalRoot) (s : Text) (parts : List Text) :
    scriptRender root (s :: parts) = root.render (s :: parts) := by
  cases root with
  | drive letter slash => cases slash <;> rfl
  | _ => rfl

theorem text_eq_scriptText_iff (p : LocalPath) : p.text = scriptText p ↔ ¬ RootOnlyPath p := by
  obtain ⟨root, parts, hwf, hparts⟩ := p
  cases parts with
  | cons s parts => simp [LocalPath.text, scriptText, scriptRender_cons, RootOnlyPath]
  | nil =>
    cases root with
    | drive letter slash =>
      cases slash <;>
        simp [LocalPath.text, scriptText, scriptRender, LocalRoot.render, RootOnlyPath]
    | _ => simp [LocalPath.text, scriptText, scriptRender, LocalRoot.render, RootOnlyPath]

/-- The root that the package writes in front of the parts. -/
def scriptRoot : LocalRoot → Text
  | .relative => []
  | .absolute => ['/']
  | .unc => ['/', '/']
  | .drive letter _ => [letter, ':', '/']

theorem scriptSplitRoot_eq (v : Text) :
    RepositoryCore.splitRoot v = (scriptRoot (readRoot v).1, (readRoot v).2) := by
  rcases readRoot_cases v with ⟨r, rfl⟩ | ⟨r, rfl, h⟩ | ⟨c, r, rfl, h⟩ | ⟨c, r, rfl, h, h'⟩ | ⟨h, h'⟩
  · rfl
  · rw [readRoot_absolute h]
    simp [RepositoryCore.splitRoot, h, scriptRoot]
  · have hne : '/' ≠ c := by rintro rfl; exact absurd h (by decide)
    rw [readRoot_drive h]
    simp [RepositoryCore.splitRoot, windowsDrive, h, hne, scriptRoot]
  · have hne : '/' ≠ c := by rintro rfl; exact absurd h (by decide)
    rw [readRoot_drive_relative h h']
    simp [RepositoryCore.splitRoot, windowsDrive, h, h', hne, scriptRoot]
  · have hunc : startsWith ['/', '/'] v = false := by
      cases v with
      | nil => rfl
      | cons c v => simp_all
    rw [readRoot_relative h h', RepositoryCore.splitRoot, windowsDrive_eq]
    simp [hunc, h, h', scriptRoot]

theorem scriptPathStep_eq (rooted : Bool) :
    RepositoryCore.pathStep rooted = Segments.push isDot dotDot (!rooted) := by
  funext parts part
  unfold RepositoryCore.pathStep Segments.push
  by_cases hdot : isDot part = true
  · rw [if_pos hdot, if_pos (by simpa [isDot] using hdot)]
  · have hname : ¬ (part = [] ∨ part = ['.']) := by simpa [isDot] using hdot
    rw [if_neg hname, if_neg hdot]
    cases rooted <;> simp [dotDot]

theorem scriptRoot_rooted (root : LocalRoot) :
    (!decide (scriptRoot root ≠ [])) = decide (root = .relative) := by
  cases root <;> rfl

theorem dropTrailingSlash_scriptRoot {root : LocalRoot} {parts : List Text}
    (h : PartsOf root parts) :
    (if dropTrailingSlash (scriptRoot root ++ join parts) = [] then ['.']
      else dropTrailingSlash (scriptRoot root ++ join parts)) = scriptRender root parts := by
  cases parts with
  | nil =>
    cases root with
    | drive letter slash =>
      cases slash <;> simp [scriptRoot, scriptRender, dropTrailingSlash, LocalRoot.render]
    | _ => rfl
  | cons s parts =>
    have hne : join (s :: parts) ≠ [] := by simp [join_eq_nil h]
    have hlast : (scriptRoot root ++ join (s :: parts)).getLast? ≠ some '/' := by
      rw [List.getLast?_append_of_ne_nil _ hne]
      exact join_getLast h
    rw [dropTrailingSlash, if_neg hlast, if_neg (by simp [hne]), scriptRender_cons]
    cases root with
    | drive letter slash => cases slash <;> rfl
    | _ => rfl

/-- `normalizePath` writes the path that `normalizeSlashes` reads. -/
theorem normalizePath_eq (v : Text) : normalizePath v = scriptText (LocalPath.read v) := by
  have hparts := (LocalPath.read v).partsOf
  have hfold : (((readRoot (forwardSlashes v)).2.splitOn '/').foldl
      (RepositoryCore.pathStep (decide (scriptRoot (readRoot (forwardSlashes v)).1 ≠ []))) []) =
      (LocalPath.read v).parts := by
    rw [scriptPathStep_eq, scriptRoot_rooted]
    rfl
  unfold normalizePath
  simp only [scriptSplitRoot_eq]
  rw [hfold]
  exact dropTrailingSlash_scriptRoot hparts

/-! ## Remote texts -/

theorem scriptRemoteStep_eq (parts : List Text) (part : Text) :
    RepositoryCore.remoteStep parts part = Repository.remoteStep parts part := by
  unfold RepositoryCore.remoteStep Repository.remoteStep
  by_cases h : part = [] ∨ part = ['.']
  · have hname : ¬ (part ≠ [] ∧ part ≠ ['.']) := by tauto
    rw [if_pos h, if_neg hname]
  · have hname : part ≠ [] ∧ part ≠ ['.'] := not_or.mp h
    rw [if_neg h, if_pos hname]

theorem normalizeRemote_eq (v : Text) :
    RepositoryCore.normalizeRemote v = Repository.normalizeRemote v := by
  have hstep : RepositoryCore.remoteStep = Repository.remoteStep := by
    funext parts part
    exact scriptRemoteStep_eq parts part
  have hrender : ∀ parts : List Text,
      (if parts ≠ [] then '/' :: ['/'].intercalate parts else []) = parts.flatMap ('/' :: ·) := by
    intro parts
    cases parts with
    | nil => rfl
    | cons s parts => exact (renderRemote_eq_join s parts).symm
  unfold RepositoryCore.normalizeRemote Repository.normalizeRemote
  simp only [hstep, hrender]
  rfl

end Ilic.RepositoryCore
