import Mathlib.Data.List.DropRight
import Ilic.Foundation.Binary64
import Ilic.Foundation.Text

/-! # JSON

The parser and the printer of the C interface.  A text is a list of bytes, and the parser goes
through it from its front: what is left of the text stands for the position.
-/

namespace Ilic.Json
open Foundation

abbrev Bytes := List UInt8

/-- The bytes of a text in the basic alphabet. -/
def ascii (s : String) : Bytes := s.toList.map Char.toUInt8

inductive Double where
  | finite (d : Binary64.Finite)
  | infinity (negative : Bool)
  | nan
deriving DecidableEq

/-- `Value`; the members of an object are in the order of their names. -/
inductive Value where
  | null
  | bool (value : Bool)
  | number (value : Double)
  | string (value : Bytes)
  | array (value : List Value)
  | object (value : List (Bytes × Value))

/-- `std::map::operator[]` with an assignment. -/
def assign (key : Bytes) (value : Value) : List (Bytes × Value) → List (Bytes × Value)
  | [] => [(key, value)]
  | entry :: entries =>
    if entry.1 < key then entry :: assign key value entries
    else if entry.1 = key then (key, value) :: entries
    else (key, value) :: entry :: entries

/-- The exceptions; the last one says that a run was cut off. -/
inductive Failure where
  | runtimeError (message : Text) (position : ℕ)
  | invalidArgument
  | outOfRange
  | unfinished
deriving DecidableEq

/-- `what` of the exception. -/
def Failure.what : Failure → Text
  | runtimeError message position => message ++ " at byte ".toList ++ (toString position).toList
  | invalidArgument => "stod".toList
  | outOfRange => "stod".toList
  | unfinished => []

/-! ## Numbers -/

def isSpace (c : UInt8) : Bool := c = 32 || (9 ≤ c && c ≤ 13)

def isDigit (c : UInt8) : Bool := '0'.toUInt8 ≤ c && c ≤ '9'.toUInt8

def isExponentMark (c : UInt8) : Bool := c = 'e'.toUInt8 || c = 'E'.toUInt8

def isSign (c : UInt8) : Bool := c = '+'.toUInt8 || c = '-'.toUInt8

/-- The number that decimal digits denote. -/
def digitsValue (digits : Bytes) : ℕ :=
  digits.foldl (fun n c => 10 * n + (c.toNat - '0'.toUInt8.toNat)) 0

/-- A byte in front, if it passes, and the rest. -/
def optional (test : UInt8 → Bool) : Bytes → Bytes × Bytes
  | [] => ([], [])
  | c :: s => if test c then ([c], s) else ([], c :: s)

/-- A point with the digits behind it, and the rest. -/
def fraction : Bytes → Bytes × Bytes
  | [] => ([], [])
  | c :: s =>
    if c = '.'.toUInt8 then (c :: s.takeWhile isDigit, s.dropWhile isDigit) else ([], c :: s)

/-- A mark with a sign and the digits behind it, and the rest. -/
def exponent : Bytes → Bytes × Bytes
  | [] => ([], [])
  | c :: s =>
    if isExponentMark c then
      let (sign, s) := optional isSign s
      (c :: (sign ++ s.takeWhile isDigit), s.dropWhile isDigit)
    else ([], c :: s)

/-- What `number` passes to `std::stod`, and the rest. -/
def numberText (s : Bytes) : Bytes × Bytes :=
  let (sign, s) := optional (· = '-'.toUInt8) s
  let whole := s.takeWhile isDigit
  let (fraction, s) := fraction (s.dropWhile isDigit)
  let (exponent, s) := exponent s
  (sign ++ whole ++ fraction ++ exponent, s)

/-- The exponent that `strtod` reads, which has digits. -/
def exponentValue : Bytes → ℤ
  | [] => 0
  | c :: s =>
    if isExponentMark c then
      let (sign, s) := optional isSign s
      let value : ℤ := digitsValue (s.takeWhile isDigit)
      if sign = ['-'.toUInt8] then -value else value
    else 0

/-- The number that `strtod` reads at the front of digits, points, marks and signs. -/
def decimalValue (s : Bytes) : Option ℚ :=
  let (sign, s) := optional isSign s
  let whole := s.takeWhile isDigit
  let (fraction, s) := fraction (s.dropWhile isDigit)
  let digits := whole ++ fraction.tail
  if digits = [] then none
  else
    let magnitude : ℚ := digitsValue digits * 10 ^ (exponentValue s - fraction.tail.length)
    some (if sign = ['-'.toUInt8] then -magnitude else magnitude)

def stod (s : Bytes) : Except Failure Double :=
  match decimalValue s with
  | none => .error .invalidArgument
  | some value =>
    match Binary64.ofRat? value with
    | none => .error .outOfRange
    | some d => .ok (.finite d)

/-! ## The parser -/

section
variable (size : ℕ)

/-- `fail`, where this is left of the text. -/
def fail {α : Type} (message : String) (s : Bytes) : Except Failure α :=
  .error (.runtimeError message.toList (size - s.length))

def whitespace (s : Bytes) : Bytes := s.dropWhile isSpace

def consume (value : UInt8) (s : Bytes) : Bool × Bytes :=
  match whitespace s with
  | [] => (false, [])
  | c :: s => if c = value then (true, s) else (false, c :: s)

def hexDigit (digit : UInt8) : Option ℕ :=
  if '0'.toUInt8 ≤ digit ∧ digit ≤ '9'.toUInt8 then some (digit.toNat - '0'.toUInt8.toNat)
  else if 'a'.toUInt8 ≤ digit ∧ digit ≤ 'f'.toUInt8 then
    some (digit.toNat - 'a'.toUInt8.toNat + 10)
  else if 'A'.toUInt8 ≤ digit ∧ digit ≤ 'F'.toUInt8 then
    some (digit.toNat - 'A'.toUInt8.toNat + 10)
  else none

/-- The loop over the digits of a unicode escape, in front of the rest. -/
def readCodepoint (rest : Bytes) (codepoint : ℕ) : Bytes → Except Failure ℕ
  | [] => .ok codepoint
  | digit :: digits =>
    match hexDigit digit with
    | none => fail size "invalid unicode escape" (digits ++ rest)
    | some value => readCodepoint rest (codepoint * 16 + value) digits

/-- The bytes that a codepoint of four hexadecimal digits becomes. -/
def encode (codepoint : ℕ) : Bytes :=
  if codepoint ≤ 0x7f then [UInt8.ofNat codepoint]
  else if codepoint ≤ 0x7ff then
    [UInt8.ofNat (0xc0 ||| (codepoint >>> 6)), UInt8.ofNat (0x80 ||| (codepoint &&& 0x3f))]
  else
    [UInt8.ofNat (0xe0 ||| (codepoint >>> 12)),
      UInt8.ofNat (0x80 ||| ((codepoint >>> 6) &&& 0x3f)),
      UInt8.ofNat (0x80 ||| (codepoint &&& 0x3f))]

/-- The escapes of one letter. -/
def simpleEscape (escaped : UInt8) : Option UInt8 :=
  if escaped = '"'.toUInt8 then some '"'.toUInt8
  else if escaped = '\\'.toUInt8 then some '\\'.toUInt8
  else if escaped = '/'.toUInt8 then some '/'.toUInt8
  else if escaped = 'b'.toUInt8 then some 0x08
  else if escaped = 'f'.toUInt8 then some 0x0c
  else if escaped = 'n'.toUInt8 then some 0x0a
  else if escaped = 'r'.toUInt8 then some 0x0d
  else if escaped = 't'.toUInt8 then some 0x09
  else none

/-- The loop of `string`, behind the opening quote. -/
def stringLoop (result : Bytes) : Bytes → Except Failure (Bytes × Bytes)
  | [] => fail size "unterminated string" []
  | c :: s =>
    if c = '"'.toUInt8 then .ok (result, s)
    else if c ≠ '\\'.toUInt8 then stringLoop (result ++ [c]) s
    else
      match s with
      | [] => fail size "incomplete escape" []
      | escaped :: s =>
        match simpleEscape escaped with
        | some value => stringLoop (result ++ [value]) s
        | none =>
          if escaped = 'u'.toUInt8 then
            match s with
            | a :: b :: c :: d :: s =>
              match readCodepoint size s 0 [a, b, c, d] with
              | .error failure => .error failure
              | .ok codepoint => stringLoop (result ++ encode codepoint) s
            | s => fail size "incomplete unicode escape" s
          else fail size "invalid escape" s

def string (s : Bytes) : Except Failure (Bytes × Bytes) :=
  match s with
  | [] => .error (.runtimeError "expected string".toList (size + 1))
  | c :: s => if c ≠ '"'.toUInt8 then fail size "expected string" s else stringLoop size [] s

def number (s : Bytes) : Except Failure (Value × Bytes) :=
  match stod (numberText s).1 with
  | .error failure => .error failure
  | .ok d => .ok (.number d, (numberText s).2)

def literal (expected : Bytes) (value : Value) (s : Bytes) : Except Failure (Value × Bytes) :=
  if s.take expected.length ≠ expected then fail size "invalid literal" s
  else .ok (value, s.drop expected.length)

mutual

/-- `parseValue`, with `object` and `array` up to their loops. -/
def parseValue : ℕ → Bytes → Except Failure (Value × Bytes)
  | 0, _ => .error .unfinished
  | fuel + 1, s =>
    match whitespace s with
    | [] => fail size "unexpected end of JSON" []
    | c :: s =>
      if c = '{'.toUInt8 then
        match consume '}'.toUInt8 s with
        | (true, s) => .ok (.object [], s)
        | (false, s) => objectLoop fuel [] s
      else if c = '['.toUInt8 then
        match consume ']'.toUInt8 s with
        | (true, s) => .ok (.array [], s)
        | (false, s) => arrayLoop fuel [] s
      else if c = '"'.toUInt8 then
        match string size (c :: s) with
        | .error failure => .error failure
        | .ok (value, s) => .ok (.string value, s)
      else if c = 't'.toUInt8 then literal size (ascii "true") (.bool true) (c :: s)
      else if c = 'f'.toUInt8 then literal size (ascii "false") (.bool false) (c :: s)
      else if c = 'n'.toUInt8 then literal size (ascii "null") .null (c :: s)
      else if c = '-'.toUInt8 ∨ isDigit c then number (c :: s)
      else fail size "unexpected character" (c :: s)

/-- The loop of `object`. -/
def objectLoop : ℕ → List (Bytes × Value) → Bytes → Except Failure (Value × Bytes)
  | 0, _, _ => .error .unfinished
  | fuel + 1, result, s =>
    match whitespace s with
    | [] => fail size "expected object key" []
    | c :: s =>
      if c ≠ '"'.toUInt8 then fail size "expected object key" (c :: s)
      else
        match string size (c :: s) with
        | .error failure => .error failure
        | .ok (key, s) =>
          match consume ':'.toUInt8 s with
          | (false, s) => fail size "expected ':'" s
          | (true, s) =>
            match parseValue fuel s with
            | .error failure => .error failure
            | .ok (value, s) =>
              match consume '}'.toUInt8 s with
              | (true, s) => .ok (.object (assign key value result), s)
              | (false, s) =>
                match consume ','.toUInt8 s with
                | (false, s) => fail size "expected ','" s
                | (true, s) => objectLoop fuel (assign key value result) s

/-- The loop of `array`. -/
def arrayLoop : ℕ → List Value → Bytes → Except Failure (Value × Bytes)
  | 0, _, _ => .error .unfinished
  | fuel + 1, result, s =>
    match parseValue fuel s with
    | .error failure => .error failure
    | .ok (value, s) =>
      match consume ']'.toUInt8 s with
      | (true, s) => .ok (.array (result ++ [value]), s)
      | (false, s) =>
        match consume ','.toUInt8 s with
        | (false, s) => fail size "expected ','" s
        | (true, s) => arrayLoop fuel (result ++ [value]) s

end

def finish (s : Bytes) : Except Failure Unit :=
  match whitespace s with
  | [] => .ok ()
  | c :: s => fail size "trailing JSON content" (c :: s)

end

/-- The calls of `parseValue` and of the loops are nested less deeply than twice the length. -/
def parse (text : Bytes) : Except Failure Value :=
  match parseValue text.length (2 * text.length + 1) text with
  | .error failure => .error failure
  | .ok (result, s) =>
    match finish text.length s with
    | .error failure => .error failure
    | .ok () => .ok result

/-! ## The printer -/

def hexDigits : Bytes := ascii "0123456789abcdef"

/-- What `appendEscaped` appends for one character. -/
def escape (character : UInt8) : Bytes :=
  if character = '"'.toUInt8 then ascii "\\\""
  else if character = '\\'.toUInt8 then ascii "\\\\"
  else if character = 0x08 then ascii "\\b"
  else if character = 0x0c then ascii "\\f"
  else if character = 0x0a then ascii "\\n"
  else if character = 0x0d then ascii "\\r"
  else if character = 0x09 then ascii "\\t"
  else if character < 0x20 then
    ascii "\\u00" ++ [hexDigits.getD (character.toNat >>> 4) 0,
      hexDigits.getD (character.toNat &&& 0x0f) 0]
  else [character]

def quote (value : Bytes) : Bytes := '"'.toUInt8 :: (value.flatMap escape ++ ['"'.toUInt8])

def decimal (n : ℕ) : Bytes := (Nat.toDigits 10 n).map Char.toUInt8

/-- `std::to_string` of a `long long`. -/
def integerText (n : ℤ) : Bytes :=
  if n < 0 then '-'.toUInt8 :: decimal n.natAbs else decimal n.natAbs

/-- The digits of a number as a stream prints it with `precision` digits, without the zeros behind
the point: as they are, or with an exponent if that is small or has no digits left for it. -/
def generalText (precision : ℕ) (value : ℚ) : Bytes :=
  let log := Int.log 10 |value|
  let rounded := (Binary64.roundHalfEven (|value| / 10 ^ (log - precision + 1))).natAbs
  let (rounded, log) :=
    if rounded = 10 ^ precision then (10 ^ (precision - 1), log + 1) else (rounded, log)
  let digits := decimal rounded
  let stripped (s : Bytes) : Bytes := s.rdropWhile (· = '0'.toUInt8)
  let pointed (whole rest : Bytes) : Bytes :=
    if stripped rest = [] then whole else whole ++ '.'.toUInt8 :: stripped rest
  let sign := if value < 0 then ['-'.toUInt8] else []
  sign ++
    if log < -4 ∨ precision ≤ log then
      let exponentDigits := decimal log.natAbs
      pointed (digits.take 1) (digits.drop 1) ++ ['e'.toUInt8,
        if log < 0 then '-'.toUInt8 else '+'.toUInt8] ++
          (if exponentDigits.length < 2 then '0'.toUInt8 :: exponentDigits else exponentDigits)
    else if log < 0 then
      pointed (ascii "0") (List.replicate (log.natAbs - 1) '0'.toUInt8 ++ digits)
    else pointed (digits.take (log.toNat + 1)) (digits.drop (log.toNat + 1))

section
-- what the conversion of `2 ^ 63` to a `long long` gives, which is undefined
variable (overflowed : ℤ)

def numberString : Double → Bytes
  | .finite d =>
    if d.value = ⌊d.value⌋ ∧ -2 ^ 63 ≤ d.value ∧ d.value ≤ 2 ^ 63 then
      integerText (if d.value = 2 ^ 63 then overflowed else ⌊d.value⌋)
    else generalText 15 d.value
  | .infinity negative => if negative then ascii "-inf" else ascii "inf"
  | .nan => ascii "nan"

mutual

def stringify : Value → Bytes
  | .null => ascii "null"
  | .bool value => if value then ascii "true" else ascii "false"
  | .number value => numberString overflowed value
  | .string value => quote value
  | .array value => '['.toUInt8 :: (stringifyItems value ++ [']'.toUInt8])
  | .object value => '{'.toUInt8 :: (stringifyMembers value ++ ['}'.toUInt8])

def stringifyItems : List Value → Bytes
  | [] => []
  | [item] => stringify item
  | item :: items => stringify item ++ ','.toUInt8 :: stringifyItems items

def stringifyMembers : List (Bytes × Value) → Bytes
  | [] => []
  | [(key, value)] => quote key ++ ':'.toUInt8 :: stringify value
  | (key, value) :: members =>
    quote key ++ ':'.toUInt8 :: (stringify value ++ ','.toUInt8 :: stringifyMembers members)

end

end

end Ilic.Json
