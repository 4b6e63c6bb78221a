import Mathlib.Data.Int.Notation
import Mathlib.Data.List.DropRight
import Ilic.Foundation.Machine
import Ilic.Foundation.Scanner
import Ilic.RepositoryCore.ResourceCoordinator

/-! # The XML of a repository

`parseXml` reads the documents `ilimodels.xml` and `ilisite.xml` with a stack of the elements that
are not closed yet, and `SafeRepositoryMetadataDecoder` takes the metadata of models and the links
of sites out of the elements.  The values of attributes are decoded and forgotten.  The document
node is the last one of the stack, and an element is put into its parent when it is closed.
-/

namespace Ilic.RepositoryCore
open Foundation Foundation.Scanner

/-- A string is a list of units of sixteen bits. -/
abbrev JsString := List UInt16

def unit (c : Char) : UInt16 := UInt16.ofNat c.toNat

/-- `String.fromCodePoint` for the number of a code point. -/
def fromCodePoint (n : ℕ) : JsString :=
  if n < 0x10000 then [UInt16.ofNat n]
  else [UInt16.ofNat (0xd800 + (n - 0x10000) / 0x400), UInt16.ofNat (0xdc00 + (n - 0x10000) % 0x400)]

def js (s : String) : JsString := s.toList.flatMap fun c => fromCodePoint c.toNat

/-! ## Exceptions -/

/-- The exceptions that come from the engine, with texts of its own. -/
inductive EngineError where
  | invalidCodePoint
  | invalidEncoding
deriving DecidableEq

inductive XmlError where
  | thrown (message : JsString)
  | engine (error : EngineError)
deriving DecidableEq

def failWith {α : Type} (message : String) : Except XmlError α := .error (.thrown (js message))

/-! ## Characters -/

/-- The units that `\s` matches and that `trim` takes off. -/
def isSpace (c : UInt16) : Bool :=
  (9 ≤ c && c ≤ 13) || c = 0x20 || c = 0xa0 || c = 0x1680 || (0x2000 ≤ c && c ≤ 0x200a) ||
    c = 0x2028 || c = 0x2029 || c = 0x202f || c = 0x205f || c = 0x3000 || c = 0xfeff

def isLetter (c : UInt16) : Bool :=
  (unit 'A' ≤ c && c ≤ unit 'Z') || (unit 'a' ≤ c && c ≤ unit 'z')

def isDigit (c : UInt16) : Bool := unit '0' ≤ c && c ≤ unit '9'

def isNameStart (c : UInt16) : Bool := isLetter c || c = unit '_' || c = unit ':'

def isNamePart (c : UInt16) : Bool :=
  isNameStart c || isDigit c || c = unit '.' || c = unit '-'

def trim (s : JsString) : JsString := (s.dropWhile isSpace).rdropWhile isSpace

/-! ## Entities -/

/-- The digit that `parseInt` reads. -/
def digitValue (c : UInt16) : Option ℕ :=
  if isDigit c then some (c.toNat - '0'.toNat)
  else if unit 'a' ≤ c && c ≤ unit 'z' then some (c.toNat - 'a'.toNat + 10)
  else if unit 'A' ≤ c && c ≤ unit 'Z' then some (c.toNat - 'A'.toNat + 10)
  else none

def digitsOf (base : ℕ) : JsString → List ℕ
  | [] => []
  | c :: s =>
    match digitValue c with
    | some d => if d < base then d :: digitsOf base s else []
    | none => []

/-- `Number.parseInt` with base 10 or 16, where none is NaN. -/
def parseInt (base : ℕ) (s : JsString) : Option ℤ :=
  let s := s.dropWhile isSpace
  let negative := s.head? = some (unit '-')
  let s := if negative ∨ s.head? = some (unit '+') then s.drop 1 else s
  let s := if base = 16 ∧ ((js "0x").isPrefixOf s ∨ (js "0X").isPrefixOf s) then s.drop 2 else s
  match digitsOf base s with
  | [] => none
  | d :: ds =>
    let magnitude : ℤ := ((d :: ds).foldl (fun n d => n * base + d) 0 : ℕ)
    some (if negative then -magnitude else magnitude)

def characterReference (number : Option ℤ) : Except XmlError JsString :=
  match number with
  | none => .error (.engine .invalidCodePoint)
  | some n =>
    if 0 ≤ n ∧ n ≤ 0x10ffff then .ok (fromCodePoint n.toNat)
    else .error (.engine .invalidCodePoint)

def entityValue (entity : JsString) : Except XmlError JsString :=
  if entity = js "amp" then .ok [unit '&']
  else if entity = js "lt" then .ok [unit '<']
  else if entity = js "gt" then .ok [unit '>']
  else if entity = js "quot" then .ok [unit '"']
  else if entity = js "apos" then .ok [unit '\'']
  else if (js "#x").isPrefixOf entity then characterReference (parseInt 16 (entity.drop 2))
  else if (js "#").isPrefixOf entity then characterReference (parseInt 10 (entity.drop 1))
  else .error (.thrown (js "unsupported XML entity &" ++ entity ++ js ";"))

/-- The loop of `decodeEntities`, between the entities or inside of one that has begun. -/
def decodeFrom : Option JsString → JsString → Except XmlError JsString
  | none, [] => .ok []
  | none, c :: s =>
    if c = unit '&' then decodeFrom (some []) s
    else
      match decodeFrom none s with
      | .error e => .error e
      | .ok output => .ok (c :: output)
  | some _, [] => failWith "unterminated XML entity"
  | some entity, c :: s =>
    if c = unit ';' then
      match entityValue entity with
      | .error e => .error e
      | .ok value =>
        match decodeFrom none s with
        | .error e => .error e
        | .ok output => .ok (value ++ output)
    else decodeFrom (some (entity ++ [c])) s

def decodeEntities (value : JsString) : Except XmlError JsString := decodeFrom none value

/-! ## Elements -/

/-- An element, or the document. -/
structure Node where
  name : JsString
  text : JsString := []
  children : List Node := []

/-- What stands behind the last colon. -/
def localName (name : JsString) : JsString := name.rtakeWhile (· ≠ unit ':')

def Node.addText (node : Node) (text : JsString) : Node := { node with text := node.text ++ text }

def Node.addChild (node child : Node) : Node :=
  { node with children := node.children ++ [child] }

def skipSpace (xml : JsString) : JsString := xml.dropWhile isSpace

def parseName : JsString → Except XmlError (JsString × JsString)
  | [] => failWith "invalid XML element name"
  | c :: rest =>
    if isNameStart c then .ok (c :: rest.takeWhile isNamePart, rest.dropWhile isNamePart)
    else failWith "invalid XML element name"

def isQuote (c : UInt16) : Bool := c = unit '"' || c = unit '\''

/-- The quoted value of an attribute, and what stands behind it. -/
def readValue : JsString → Except XmlError JsString
  | [] => failWith "XML attributes must be quoted"
  | quote :: rest =>
    if isQuote quote = false then failWith "XML attributes must be quoted"
    else
      match cutAt [quote] rest with
      | none => failWith "unterminated XML attribute"
      | some (value, rest) =>
        match decodeEntities value with
        | .error e => .error e
        | .ok _ => .ok (skipSpace rest)

def readAttribute (xml : JsString) : Except XmlError JsString :=
  match parseName xml with
  | .error e => .error e
  | .ok (_, rest) =>
    match skipSpace rest with
    | [] => failWith "invalid XML attribute"
    | c :: rest =>
      if c = unit '=' then readValue (skipSpace rest) else failWith "invalid XML attribute"

/-- The loop over the attributes of a start tag, with at most this many of them. -/
def readAttributes : ℕ → JsString → Except XmlError JsString
  | 0, xml => .ok xml
  | n + 1, xml =>
    if xml = [] ∨ xml.head? = some (unit '>') ∨ (js "/>").isPrefixOf xml then .ok xml
    else
      match readAttribute xml with
      | .error e => .error e
      | .ok rest => readAttributes n rest

/-! ## The loop -/

structure XmlState where
  top : Node
  below : List Node := []
  rest : JsString
  sawRoot : Bool := false

def documentNode : Node := { name := js "#document" }

namespace XmlState
variable (s : XmlState)

def readText : Except XmlError XmlState :=
  match decodeEntities (s.rest.takeWhile (· ≠ unit '<')) with
  | .error e => .error e
  | .ok text => .ok { s with top := s.top.addText text, rest := s.rest.dropWhile (· ≠ unit '<') }

/-- What is closed by this text is skipped, but for what is added to the text of the element. -/
def readClosed (opened close : JsString) (message : String) (text : JsString → JsString) :
    Except XmlError XmlState :=
  match cutAt close (s.rest.drop opened.length) with
  | none => failWith message
  | some (body, rest) => .ok { s with top := s.top.addText (text body), rest }

def closeTag : Except XmlError XmlState :=
  match parseName (s.rest.drop 2) with
  | .error e => .error e
  | .ok (name, rest) =>
    match skipSpace rest with
    | [] => failWith "invalid XML closing tag"
    | c :: rest =>
      if c ≠ unit '>' then failWith "invalid XML closing tag"
      else
        match s.below with
        | [] => failWith "mismatched XML closing tag"
        | parent :: below =>
          if s.top.name ≠ name then failWith "mismatched XML closing tag"
          else .ok { s with top := parent.addChild s.top, below, rest }

def openTag (maxDepth : ℕ) : Except XmlError XmlState :=
  match parseName (s.rest.drop 1) with
  | .error e => .error e
  | .ok (name, rest) =>
    match readAttributes rest.length (skipSpace rest) with
    | .error e => .error e
    | .ok rest =>
      let sawRoot := s.sawRoot || s.below.isEmpty
      if (js "/>").isPrefixOf rest then
        .ok { s with top := s.top.addChild { name }, rest := rest.drop 2, sawRoot }
      else if rest.head? ≠ some (unit '>') then failWith "unterminated XML start tag"
      else if maxDepth ≤ s.below.length + 1 then failWith "XML nesting limit exceeded"
      else .ok { top := { name }, below := s.top :: s.below, rest := rest.drop 1, sawRoot }

def turn (maxDepth : ℕ) : Except XmlError XmlState :=
  if s.rest.head? ≠ some (unit '<') then s.readText
  else if (js "<!--").isPrefixOf s.rest then
    s.readClosed (js "<!--") (js "-->") "unterminated XML comment" fun _ => []
  else if (js "<![CDATA[").isPrefixOf s.rest then
    s.readClosed (js "<![CDATA[") (js "]]>") "unterminated CDATA section" id
  else if (js "<?").isPrefixOf s.rest then
    s.readClosed (js "<?") (js "?>") "unterminated processing instruction" fun _ => []
  else if (js "<!DOCTYPE").isPrefixOf s.rest ∨ (js "<!ENTITY").isPrefixOf s.rest then
    failWith "DTD and external entities are disabled"
  else if (js "<!").isPrefixOf s.rest then failWith "unsupported XML declaration"
  else if (js "</").isPrefixOf s.rest then s.closeTag
  else s.openTag maxDepth

/-- What comes behind the loop. -/
def finish : Except XmlError Node :=
  if s.below ≠ [] ∨ s.sawRoot = false then failWith "incomplete XML document"
  else
    match s.top.children with
    | [root] => .ok root
    | _ => failWith "XML document must have one root element"

def step (maxDepth : ℕ) : XmlState ⊕ Except XmlError Node :=
  if s.rest = [] then .inr s.finish
  else
    match s.turn maxDepth with
    | .error e => .inr (.error e)
    | .ok s => .inl s

end XmlState

/-- Every turn takes something off the text, so the length of the text is enough. -/
def parseXml (maxDepth : ℕ) (xml : JsString) : Except XmlError Node :=
  match Machine.run (XmlState.step · maxDepth) (xml.length + 1) { top := documentNode, rest := xml } with
  | .inr ending => ending
  | .inl s => s.finish

/-! ## Metadata -/

def directText (node : Node) (name : String) : JsString :=
  match node.children.find? (localName ·.name = js name) with
  | some child => trim child.text
  | none => []

mutual

def collectValues : Node → List JsString
  | ⟨_, _, children⟩ => collectAll children

/-- The values below these children. -/
def collectAll : List Node → List JsString
  | [] => []
  | ⟨name, text, children⟩ :: rest =>
    (if localName name = js "value" then (if trim text = [] then [] else [trim text])
      else collectAll children) ++ collectAll rest

end

mutual

/-- The elements whose names end so, from the outside to the inside. -/
def metadataNodes : Node → List Node
  | ⟨name, text, children⟩ =>
    (if (js "ModelMetadata").isSuffixOf (localName name) then [⟨name, text, children⟩] else []) ++
      metadataAll children

def metadataAll : List Node → List Node
  | [] => []
  | node :: rest => metadataNodes node ++ metadataAll rest

end

/-- A model of an index. -/
structure IndexedModel where
  name : JsString
  schemaLanguage : JsString
  file : JsString
  version : JsString
  publishingDate : JsString
  precursorVersion : JsString
  md5 : JsString
  repository : JsString
  dependencies : List JsString
  browseOnly : Bool
deriving DecidableEq

/-- `toLowerCase`, as far as it matters for the letters of `true`. -/
def toLowerCase (s : JsString) : JsString :=
  s.map fun c => if unit 'A' ≤ c && c ≤ unit 'Z' then c + 32 else c

def readModel (repository : JsString) (node : Node) : IndexedModel where
  name := directText node "Name"
  schemaLanguage := directText node "SchemaLanguage"
  file := directText node "File"
  version := directText node "Version"
  publishingDate := directText node "publishingDate"
  precursorVersion := directText node "precursorVersion"
  md5 := directText node "md5"
  repository
  dependencies := (node.children.filter (localName ·.name = js "dependsOnModel")).flatMap collectValues
  browseOnly := [js "true", js "1"].contains (toLowerCase (directText node "browseOnly"))

def IndexedModel.isValid (model : IndexedModel) : Bool :=
  model.name ≠ [] && model.schemaLanguage ≠ [] && model.file ≠ []

/-- The models of the metadata elements that have a name, a language and a file. -/
def readModels (repository : JsString) (root : Node) : List IndexedModel :=
  ((metadataNodes root).map (readModel repository)).filter (·.isValid)

mutual

/-- The values of all elements of this name, of elements inside of each other once for each. -/
def linksBelow (name : String) : Node → List JsString
  | ⟨_, _, children⟩ => linksOf name children

def linksOf (name : String) : List Node → List JsString
  | [] => []
  | ⟨childName, text, children⟩ :: rest =>
    (if localName childName = js name then collectValues ⟨childName, text, children⟩ else []) ++
      linksBelow name ⟨childName, text, children⟩ ++ linksOf name rest

end

/-! ## The decoder -/

/-- A resource is given as a text or as bytes. -/
inductive XmlSource where
  | text (xml : JsString)
  | bytes (content : Bytes)

/-- `TextDecoder.decode` with `fatal`, which drops a mark of the byte order. -/
def decodeUtf8 (content : Bytes) : Option JsString :=
  (String.fromUTF8? content.toByteArray).map fun s =>
    let text := js (String.ofList s.toList)
    if text.head? = some 0xfeff then text.drop 1 else text

def bytesToXml (maxBytes : ℕ) : XmlSource → Except XmlError JsString
  | .text xml => .ok xml
  | .bytes content =>
    if maxBytes < content.length then
      failWith ("XML resource exceeds " ++ toString maxBytes ++ " byte limit")
    else
      match decodeUtf8 content with
      | none => .error (.engine .invalidEncoding)
      | some xml => .ok xml

structure XmlDiagnostic where
  severity : Severity
  code : String
  message : JsString
  operation : Operation

structure DecodedIndex where
  success : Bool
  models : List IndexedModel
  diagnostics : List XmlDiagnostic

structure DecodedSite where
  success : Bool
  parentSites : List JsString
  subsidiarySites : List JsString
  diagnostics : List XmlDiagnostic

/-- `SafeRepositoryMetadataDecoder` with its limits, and the texts of the exceptions that come
from the engine. -/
structure XmlDecoder where
  maxBytes : ℕ := 32 * 1024 * 1024
  maxDepth : ℕ := 128
  engineMessage : EngineError → JsString

namespace XmlDecoder
variable (decoder : XmlDecoder)

def message : XmlError → JsString
  | .thrown message => message
  | .engine error => decoder.engineMessage error

def readRoot (source : XmlSource) : Except XmlError Node :=
  match bytesToXml decoder.maxBytes source with
  | .error e => .error e
  | .ok xml => parseXml decoder.maxDepth xml

def decodeModelIndex (source : XmlSource) (repository : JsString) : DecodedIndex :=
  match decoder.readRoot source with
  | .error e =>
    { success := false, models := []
      diagnostics := [{ severity := .error, code := "ILIC-REPO-XML", operation := .metadata
                        message := js "invalid ilimodels.xml in " ++ repository ++ js ": " ++
                          decoder.message e }] }
  | .ok root =>
    let models := readModels repository root
    { success := !models.isEmpty, models
      diagnostics := if models = [] then
          [{ severity := .error, code := "ILIC-REPO-INDEX", operation := .metadata
             message := js "no valid ModelMetadata entries in ilimodels.xml from " ++ repository }]
        else [] }

def decodeSite (source : XmlSource) (repository : JsString) : DecodedSite :=
  match decoder.readRoot source with
  | .error e =>
    { success := false, parentSites := [], subsidiarySites := []
      diagnostics := [{ severity := .warning, code := "ILIC-REPO-SITE", operation := .site
                        message := js "invalid ilisite.xml in " ++ repository ++ js ": " ++
                          decoder.message e }] }
  | .ok root =>
    { success := true
      parentSites := linksBelow "parentSite" root
      subsidiarySites := linksBelow "subsidiarySite" root
      diagnostics := [] }

end XmlDecoder

end Ilic.RepositoryCore
