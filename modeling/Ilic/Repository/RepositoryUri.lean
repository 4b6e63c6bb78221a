import Ilic.Foundation.Segments

/-! # Repository URIs of the native implementation

The functions of the class `RepositoryUri`, in a build for a POSIX system, and the
check that an index entry names a file relative to its repository.  A returned
`std::nullopt` with its message, and a thrown `std::invalid_argument`, are errors
that carry the text.
-/

namespace Ilic.Repository
open Ilic.Text Foundation

inductive RepositoryUriKind where
  | localPath
  | fileUri
  | http
  | https
  deriving DecidableEq, Repr

structure RepositoryUri where
  kind : RepositoryUriKind
  original : Text
  normalized : Text
  localPath : Text := []
  deriving DecidableEq, Repr

structure RelativePathValidation where
  valid : Bool := false
  normalized : Text := []
  error : Text := []
  deriving DecidableEq, Repr

/-- The loop of `hasScheme` from the second character on. -/
def schemeRest : Text → Bool
  | [] => false
  | c :: rest =>
    if c = ':' then true
    else if !c.isAlphanum && c != '+' && c != '-' && c != '.' then false
    else schemeRest rest

def hasScheme : Text → Bool
  | [] => false
  | c :: rest => c.isAlpha && schemeRest rest

def isWindowsDrivePath : Text → Bool
  | c :: d :: _ => c.isAlpha && d == ':'
  | _ => false

def percentDecode : Text → Except Text Text
  | [] => .ok []
  | c :: rest =>
    if c ≠ '%' then (percentDecode rest).map (c :: ·)
    else match rest with
      | high :: low :: rest' =>
        match hexDigit high, hexDigit low with
        | some a, some b =>
          if a * 16 + b = 0 then .error "NUL is not permitted in a file URI".toList
          else (percentDecode rest').map (Char.ofNat (a * 16 + b) :: ·)
        | _, _ => .error "invalid percent escape in file URI".toList
      | _ => .error "invalid percent escape in file URI".toList

/-- One segment of a path below `root`; without a root a leading `..` is kept. -/
def pathStep (root : Text) (parts : List Text) (part : Text) : List Text :=
  if part ≠ [] ∧ part ≠ ['.'] then
    if part = ['.', '.'] ∧ parts ≠ [] ∧ parts.getLast? ≠ some ['.', '.'] then parts.dropLast
    else if part ≠ ['.', '.'] ∨ root = [] then parts ++ [part]
    else parts
  else parts

/-- Trailing slashes go, but one slash alone and the slash of a drive root stay.
The text is read from its end. -/
def popSlashes (drive : Bool) : Text → Text
  | [] => []
  | c :: rest =>
    if rest ≠ [] ∧ c = '/' ∧ ¬ (rest.length = 2 ∧ drive = true) then popSlashes drive rest
    else c :: rest

/-- The root of a path with forward slashes, and what follows it. -/
def splitRoot (value : Text) : Text × Text :=
  if startsWith ['/', '/'] value then (['/', '/'], value.drop 2)
  else if startsWith ['/'] value then (['/'], value.drop 1)
  else if isWindowsDrivePath value then
    if (value.drop 2).head? = some '/' then (value.take 3, value.drop 3)
    else (value.take 2, value.drop 2)
  else ([], value)

/-- Appending the parts to the root, with a slash where the text does not end in one. -/
def appendParts (root : Text) (parts : List Text) : Text :=
  parts.foldl (fun normalized part =>
    (if normalized ≠ [] ∧ normalized.getLast? ≠ some '/' then normalized ++ ['/']
      else normalized) ++ part) root

def normalizeSlashes (value : Text) : Text :=
  let value := forwardSlashes value
  let root := (splitRoot value).1
  let parts := ((splitRoot value).2.splitOn '/').foldl (pathStep root) []
  let normalized := appendParts root parts
  let normalized := if normalized = [] then ['.'] else normalized
  (popSlashes (isWindowsDrivePath value) normalized.reverse).reverse

def isSuffixStart (c : Char) : Bool := c = '?' || c = '#'

/-- The part before a query or fragment, and the query or fragment. -/
def splitUriSuffix (value : Text) : Text × Text :=
  (value.takeWhile (!isSuffixStart ·), value.dropWhile (!isSuffixStart ·))

/-- One segment of a remote path: a `..` with nothing to cancel is dropped. -/
def remoteStep (parts : List Text) (part : Text) : List Text :=
  if part ≠ [] ∧ part ≠ ['.'] then
    if part = ['.', '.'] then (if parts ≠ [] then parts.dropLast else parts)
    else parts ++ [part]
  else parts

def schemeSeparator : Text := [':', '/', '/']

/-- A remote base without its path, and the path from its first slash on. -/
def splitAuthority (base : Text) : Text × Text :=
  let cut := cutAfter schemeSeparator base
  (cut.1 ++ cut.2.takeWhile (· ≠ '/'), cut.2.dropWhile (· ≠ '/'))

def normalizeRemote (value : Text) : Text :=
  let (base, tail) := splitUriSuffix value
  match splitAuthority base with
  | (_, []) => base ++ tail
  | (authority, _ :: path) =>
    authority ++ ((path.splitOn '/').foldl remoteStep []).flatMap ('/' :: ·) ++ tail

namespace RepositoryUri

/-- The text before the first colon, in lower case. -/
def schemeOf (input : Text) : Text :=
  if ':' ∈ input then lower (input.takeWhile (· ≠ ':')) else []

/-- The normal form of a `file` URI for a normalised local path. -/
def fileForm (path : Text) : Text :=
  if startsWith ['/', '/'] path then "file:".toList ++ path else "file://".toList ++ path

def parse (input : Text) : Except Text RepositoryUri :=
  if input = [] then .error "repository URI is empty".toList
  else
    let scheme := schemeOf input
    let rest := input.dropWhile (· ≠ ':')
    if scheme = "http".toList ∨ scheme = "https".toList then
      if startsWith schemeSeparator rest then
        .ok {
          kind := if scheme = "http".toList then .http else .https
          original := input
          normalized := normalizeRemote input }
      else .error "HTTP repository URI requires //".toList
    else if scheme = "file".toList then
      if startsWith schemeSeparator rest then
        match percentDecode (rest.drop 3) with
        | .error message => .error message
        | .ok decoded =>
          let path := normalizeSlashes
            (if startsWith ['/'] decoded then decoded else ['/', '/'] ++ decoded)
          .ok {
            kind := .fileUri
            original := input
            normalized := fileForm path
            localPath := path }
      else .error "file repository URI requires //".toList
    else if hasScheme input && !isWindowsDrivePath input then
      .error "unsupported repository URI scheme".toList
    else
      .ok {
        kind := .localPath
        original := input
        normalized := normalizeSlashes input
        localPath := normalizeSlashes input }

def isRemote (u : RepositoryUri) : Bool := u.kind = .http || u.kind = .https

def isLocal (u : RepositoryUri) : Bool := !u.isRemote

/-- `while (!base.empty() && base.back() == '/') base.pop_back()`, read from the end. -/
def stripSlashes : Text → Text
  | [] => []
  | c :: rest => if c = '/' then stripSlashes rest else c :: rest

/-- Resolution against a remote base. -/
def resolveRemote (u : RepositoryUri) (clean : Text) : Except Text RepositoryUri :=
  let (base, suffix) := splitUriSuffix u.normalized
  if startsWith ['/', '/'] clean then parse (base.takeWhile (· ≠ ':') ++ ':' :: clean)
  else if startsWith ['?'] clean ∨ startsWith ['#'] clean then parse (base ++ clean)
  else if startsWith ['/'] clean then parse ((splitAuthority base).1 ++ clean)
  else parse ((stripSlashes base.reverse).reverse ++ '/' :: clean ++ suffix)

/-- Resolution of a reference without a leading slash against a local base. -/
def resolveLocal (u : RepositoryUri) (clean : Text) : Except Text RepositoryUri :=
  match parse (PosixPath.lexicallyNormal (PosixPath.append u.localPath clean)) with
  | .error message => .error message
  | .ok joined =>
    if u.kind = .fileUri then
      .ok {
        kind := .fileUri
        original := fileForm joined.normalized
        normalized := fileForm joined.normalized
        localPath := joined.normalized }
    else .ok joined

def resolve (u : RepositoryUri) (relative : Text) : Except Text RepositoryUri :=
  if hasScheme relative ∨ isWindowsDrivePath relative ∨ startsWith ['\\', '\\'] relative then
    parse relative
  else if u.isRemote then u.resolveRemote (forwardSlashes relative)
  else if startsWith ['/'] relative then parse relative
  else u.resolveLocal (forwardSlashes relative)

end RepositoryUri

/-- The parts of a relative path, or `none` at the first parent segment. -/
def relativeParts : List Text → Option (List Text)
  | [] => some []
  | part :: rest =>
    if part = ['.', '.'] then none
    else if part ≠ [] ∧ part ≠ ['.'] then (relativeParts rest).map (part :: ·)
    else relativeParts rest

def validateRepositoryRelativePath (input : Text) : RelativePathValidation :=
  if input = [] then { error := "repository path is empty".toList }
  else
    let value := forwardSlashes input
    if startsWith ['/'] value ∨ startsWith ['/', '/'] value ∨ isWindowsDrivePath value
        ∨ hasScheme value then
      { error := "repository path must be relative".toList }
    else match relativeParts (value.splitOn '/') with
      | none => { error := "repository path must not contain parent traversal".toList }
      | some [] => { error := "repository path is empty".toList }
      | some parts => { valid := true, normalized := ['/'].intercalate parts }

/-- Component-wise containment of local paths in the working directory `cwd`. -/
def isPathWithin (cwd root target : Text) : Bool :=
  let normal p := PosixPath.components
    (PosixPath.lexicallyNormal (PosixPath.absolute cwd p))
  (normal root).isPrefixOf (normal target)

end Ilic.Repository
