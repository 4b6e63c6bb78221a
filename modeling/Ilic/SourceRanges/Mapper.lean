import Ilic.SourceRanges.Decoding

/-! # The mapper of source ranges

The mapper walks over a source once and keeps a position for every byte and the byte offset
of every code point.  The lexer reads a normalized copy of the source, in which every byte
that begins no code point is replaced and the last line is ended.
-/

namespace Ilic.SourceRanges

structure SourcePosition where
  line : ℕ := 0
  utf16Column : ℕ := 0
  offset : ℕ := 0
deriving DecidableEq

structure SourceBuffer where
  uri : List Char
  text : List UInt8

structure SourceRange where
  uri : List Char
  start : SourcePosition
  finish : SourcePosition
  valid : Bool
deriving DecidableEq

/-! ## The walk over the source -/

/-- The position behind a code point of `width` bytes. -/
def SourcePosition.behind (current : SourcePosition) (value : DecodedCodepoint) (width : ℕ) :
    SourcePosition :=
  if value.value = 10 then
    { line := current.line + 1, utf16Column := 0, offset := current.offset + width }
  else
    { current with
      utf16Column := current.utf16Column + value.utf16Width, offset := current.offset + width }

/-- `positions_` from the current position on. -/
def positionsFrom (current : SourcePosition) : List UInt8 → List SourcePosition
  | [] => [current]
  | b :: rest =>
    let value := decode (b :: rest)
    let width := min value.width (b :: rest).length
    (List.range width).map (fun index => { current with offset := current.offset + index }) ++
      positionsFrom (current.behind value width) (rest.drop (width - 1))
termination_by text => text.length

/-- What is pushed to `codepointToByte_` from an offset on. -/
def codepointsFrom (offset : ℕ) : List UInt8 → List ℕ
  | [] => []
  | b :: rest =>
    let width := min (decode (b :: rest)).width (b :: rest).length
    (offset + width) :: codepointsFrom (offset + width) (rest.drop (width - 1))
termination_by text => text.length

variable (source : SourceBuffer)

def positions : List SourcePosition := positionsFrom {} source.text

def codepointToByte : List ℕ := 0 :: codepointsFrom 0 source.text

def positionFromByteOffset (offset : ℕ) : SourcePosition :=
  (positions source)[min offset source.text.length]?.getD {}

def byteOffsetFromCodepointOffset (offset : ℕ) : ℕ :=
  (codepointToByte source)[min offset ((codepointToByte source).length - 1)]?.getD 0

def range (uri : List Char) (first last : ℕ) : SourceRange :=
  let start := min first source.text.length
  let finish := min (max last start) source.text.length
  { uri := uri
    start := positionFromByteOffset source start
    finish := positionFromByteOffset source finish
    valid := true }

def codepointRange (first last : ℕ) : SourceRange :=
  range source source.uri (byteOffsetFromCodepointOffset source first)
    (byteOffsetFromCodepointOffset source last)

/-! ## The normalized copy -/

/-- U+FFFD in UTF-8. -/
def replacement : List UInt8 := [0xef, 0xbf, 0xbd]

def lineFeed : UInt8 := 10

def normalizedFrom : List UInt8 → List UInt8
  | [] => []
  | b :: rest =>
    let value := decode (b :: rest)
    if value.width = 1 ∧ 0x80 ≤ b then replacement ++ normalizedFrom rest
    else (b :: rest).take value.width ++ normalizedFrom (rest.drop (value.width - 1))
termination_by text => text.length

def normalizedUtf8 (text : List UInt8) : List UInt8 :=
  let normalized := normalizedFrom text
  if normalized ≠ [] ∧ normalized.getLast? ≠ some lineFeed then normalized ++ [lineFeed]
  else normalized

/-! ## Where the bytes of the copy come from -/

/-- The offset in the source that each byte of the copy was made at. -/
def originsFrom (offset : ℕ) : List UInt8 → List ℕ
  | [] => []
  | b :: rest =>
    let value := decode (b :: rest)
    if value.width = 1 ∧ 0x80 ≤ b then
      replacement.map (fun _ => offset) ++ originsFrom (offset + 1) rest
    else
      List.range' offset ((b :: rest).take value.width).length ++
        originsFrom (offset + value.width) (rest.drop (value.width - 1))
termination_by text => text.length

/-- The offsets of all bytes of the copy; the added line feed is made at the end. -/
def origins (text : List UInt8) : List ℕ :=
  let normalized := normalizedFrom text
  if normalized ≠ [] ∧ normalized.getLast? ≠ some lineFeed then
    originsFrom 0 text ++ [text.length]
  else originsFrom 0 text

/-! ## The character stream -/

def byteOrderMark : List UInt8 := [0xef, 0xbb, 0xbf]

/-- `utf8_to_utf32`; nothing is returned for bytes that are not UTF-8. -/
def utf8ToUtf32 (bytes : List UInt8) : Option (List Char) :=
  bytes.toByteArray.utf8Decode?.map Array.toList

/-- `ANTLRInputStream::load`, which drops one leading byte order mark. -/
def inputStream (input : List UInt8) : Option (List Char) :=
  if input.take 3 = byteOrderMark then utf8ToUtf32 (input.drop 3) else utf8ToUtf32 input

/-- The byte of the copy at which the code point with the index begins. -/
def streamOffset (input : List UInt8) (stream : List Char) (k : ℕ) : ℕ :=
  (if input.take 3 = byteOrderMark then 3 else 0) +
    ((stream.take k).flatMap String.utf8EncodeChar).length

/-- The offset in the source at which the code point with the index was decoded; behind the
last one it is the end of the source. -/
def decodedAt (text : List UInt8) (stream : List Char) (k : ℕ) : Option ℕ :=
  (origins text ++ [text.length])[streamOffset (normalizedUtf8 text) stream k]?

end Ilic.SourceRanges
