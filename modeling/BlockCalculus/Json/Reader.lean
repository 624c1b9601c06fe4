import BlockCalculus.Json
import BlockCalculus.Nesting
import BlockCalculus.Text.Numeral

/-!
# Reading JSON text

The reader accepts the JSON grammar, and `NaN`, `Infinity` and `-Infinity` besides. A key that
appears again keeps its place and takes the new value. Integers may have at most
`Text.digitLimit` digits, and arrays and objects may nest at most `nestingLimit` levels.

Every reader below takes the characters not yet read and returns what it read with the characters
after it. A refusal carries the characters from the offending one on, and `read` turns that into
a position: a line, a column and an offset, all counted in characters.

Strings are sequences of characters, and half of a surrogate pair is none. A text that escapes one
is refused, unless it is malformed.
-/

namespace BlockCalculus.Json.Reader

/-- Why a text is not JSON. -/
inductive Reason where
  | value
  | propertyName
  | colon
  | comma
  | unterminated
  | control
  | escape
  | codeEscape
  | extra
  | byteOrderMark
  deriving DecidableEq, Repr

/-- The words for a reason. -/
def Reason.message : Reason → String
  | value => "Expecting value"
  | propertyName => "Expecting property name enclosed in double quotes"
  | colon => "Expecting ':' delimiter"
  | comma => "Expecting ',' delimiter"
  | unterminated => "Unterminated string starting at"
  | control => "Invalid control character at"
  | escape => "Invalid \\escape"
  | codeEscape => "Invalid \\uXXXX escape"
  | extra => "Extra data"
  | byteOrderMark => "Unexpected UTF-8 BOM (decode using utf-8-sig)"

/-- What stops a reader: a malformed text, with the characters from the offending one on, an
integer with too many digits, too many levels, or half of a surrogate pair. -/
inductive Stop where
  | malformed (reason : Reason) (rest : List Char)
  | digits (count : Nat)
  | nesting
  | loneSurrogate
  deriving DecidableEq, Repr

/-- A reader's answer: what it read, and the characters after it. -/
abbrev Reading (α : Type) := Except Stop (α × List Char)

/-- Reads on after a first part. -/
def Reading.andThen {α β : Type} (r : Reading α) (next : α → List Char → Reading β) :
    Reading β :=
  match r with
  | .ok (a, rest) => next a rest
  | .error stop => .error stop

/-! ## Characters -/

/-- The blanks that may stand between the parts of a value. -/
def isGap (c : Char) : Bool :=
  c == ' ' || c == '\t' || c == '\n' || c == '\r'

/-- The characters after any blanks. -/
def skip (cs : List Char) : List Char :=
  cs.dropWhile isGap

/-- The value of a hexadecimal digit. -/
def hexValue? (c : Char) : Option Nat :=
  if '0' ≤ c ∧ c ≤ '9' then some (c.toNat - '0'.toNat)
  else if 'a' ≤ c ∧ c ≤ 'f' then some (c.toNat - 'a'.toNat + 10)
  else if 'A' ≤ c ∧ c ≤ 'F' then some (c.toNat - 'A'.toNat + 10)
  else none

/-- The code unit written by four hexadecimal digits, if they are and something follows them. -/
def codeUnit? : List Char → Option (Nat × List Char)
  | a :: b :: c :: d :: rest =>
    match rest, hexValue? a, hexValue? b, hexValue? c, hexValue? d with
    | _ :: _, some a, some b, some c, some d => some (((a * 16 + b) * 16 + c) * 16 + d, rest)
    | _, _, _, _, _ => none
  | _ => none

/-- The character of a code unit. Half of a surrogate pair is no character. -/
def ofCode? (n : Nat) : Option Char :=
  if 0xD800 ≤ n ∧ n < 0xE000 then none else some (Char.ofNat n)

/-- The character after `\u`, which two escapes write together if they form a pair. There is none
if it is half of a pair. -/
def codePoint (cs : List Char) : Reading (Option Char) :=
  match codeUnit? cs with
  | none => .error (.malformed .codeEscape ('u' :: cs))
  | some (high, rest) =>
    if 0xD800 ≤ high ∧ high < 0xDC00 then
      match rest with
      | '\\' :: 'u' :: after =>
        -- the second escape counts only if something follows it
        if after.length ≤ 4 then .ok (none, rest)
        else
          match codeUnit? after with
          | none => .error (.malformed .codeEscape ('u' :: after))
          | some (low, rest') =>
            if 0xDC00 ≤ low ∧ low < 0xE000 then
              .ok (some (Char.ofNat (0x10000 + (high - 0xD800) * 0x400 + (low - 0xDC00))), rest')
            else .ok (none, rest)
      | _ => .ok (none, rest)
    else .ok (ofCode? high, rest)

/-- Whether a text escapes half of a surrogate pair. A text that can be read has escapes in its
strings only. `fuel` is a bound on the characters left. -/
def holdsHalf : (fuel : Nat) → List Char → Bool
  | 0, _ | _ + 1, [] => false
  | fuel + 1, c :: rest =>
    if c = '\\' then
      match rest with
      | 'u' :: after =>
        match codePoint after with
        | .ok (some _, rest') => holdsHalf fuel rest'
        | .ok (none, _) => true
        | .error _ => false
      | _ => holdsHalf fuel (rest.drop 1)
    else holdsHalf fuel rest

/-- The character that a letter after a backslash stands for. -/
def escaped? : Char → Option Char
  | '"' => some '"'
  | '\\' => some '\\'
  | '/' => some '/'
  | 'b' => some '\x08'
  | 'f' => some '\x0c'
  | 'n' => some '\n'
  | 'r' => some '\r'
  | 't' => some '\t'
  | _ => none

/-- The rest of a string after its opening quote, which `opening` starts with. The characters
read so far are in `acc`, last one first. `fuel` is a bound on the characters left. -/
def string (opening : List Char) : (fuel : Nat) → List Char → List Char → Reading String
  | 0, _, _ => .error (.malformed .unterminated opening)
  | _ + 1, _, [] => .error (.malformed .unterminated opening)
  | fuel + 1, acc, c :: rest =>
    if c = '"' then .ok (String.ofList acc.reverse, rest)
    else if c = '\\' then
      match rest with
      | [] => .error (.malformed .unterminated opening)
      | 'u' :: after =>
        -- half of a pair is refused when all of the text was read, so any character does for it
        (codePoint after).andThen fun x rest' => string opening fuel (x.getD ' ' :: acc) rest'
      | e :: after =>
        match escaped? e with
        | some x => string opening fuel (x :: acc) after
        | none => .error (.malformed .escape (c :: rest))
    else if c.toNat < 0x20 then .error (.malformed .control (c :: rest))
    else string opening fuel (c :: acc) rest

/-! ## Numbers -/

/-- Whether a character is an ASCII digit. -/
def isDigit (c : Char) : Bool :=
  '0' ≤ c && c ≤ '9'

/-- The number that digits write. -/
def ofDigits (ds : List Char) : Nat :=
  ds.foldl (fun n d => 10 * n + (d.toNat - '0'.toNat)) 0

/-- The longest start of digits, and what follows it. -/
def spanDigits (cs : List Char) : List Char × List Char :=
  (cs.takeWhile isDigit, cs.dropWhile isDigit)

/-- The digits of a fraction, if a point with a digit after it comes next. -/
def fraction : List Char → List Char × List Char
  | '.' :: c :: rest => if isDigit c then spanDigits (c :: rest) else ([], '.' :: c :: rest)
  | cs => ([], cs)

/-- The exponent, if a mark, perhaps a sign, and a digit come next. -/
def exponent? (cs : List Char) : Option (Int × List Char) :=
  match cs with
  | [] => none
  | c :: rest =>
    if c = 'e' ∨ c = 'E' then
      let (negative, body) := match rest with
        | '-' :: body => (true, body)
        | '+' :: body => (false, body)
        | body => (false, body)
      let (ds, after) := spanDigits body
      if ds.isEmpty then none
      else some (if negative then -(ofDigits ds : Int) else ofDigits ds, after)
    else none

/-- The number whose whole part `whole` has been read. -/
def numberFrom (negative : Bool) (whole cs : List Char) : Reading Json :=
  let (part, afterPart) := fraction cs
  let power := exponent? afterPart
  if part.isEmpty && power.isNone then
    if Text.digitLimit < whole.length then .error (.digits whole.length)
    else
      let n : Int := ofDigits whole
      .ok (.int (if negative then -n else n), cs)
  else
    let ds := whole ++ part
    let (e, rest) := power.getD (0, afterPart)
    .ok (.number (.ofDecimal negative (ofDigits ds) ds.length (e - part.length)), rest)

/-- A number: a sign, then a zero or digits that do not start with one, then a fraction and an
exponent if they are there. `start` is where the value starts. -/
def number (start : List Char) : Reading Json :=
  let (negative, body) := match start with
    | '-' :: body => (true, body)
    | body => (false, body)
  match body with
  | '0' :: rest => numberFrom negative ['0'] rest
  | c :: rest =>
    if isDigit c then
      let (ds, after) := spanDigits (c :: rest)
      numberFrom negative ds after
    else .error (.malformed .value start)
  | [] => .error (.malformed .value start)

/-! ## Arrays and objects -/

/-- The items of an array after the opening bracket or a comma. -/
def items (item : List Char → Reading Json) : (fuel : Nat) → List Char → Reading (List Json)
  | 0, cs => .error (.malformed .value cs)
  | fuel + 1, cs =>
    (item cs).andThen fun v rest =>
      match skip rest with
      | ']' :: after => .ok ([v], after)
      | ',' :: after =>
        (items item fuel (skip after)).andThen fun vs rest' => .ok (v :: vs, rest')
      | other => .error (.malformed .comma other)

/-- The members of an object after the opening brace or a comma, added to those read before. -/
def members (item : List Char → Reading Json) :
    (fuel : Nat) → Members → List Char → Reading Members
  | 0, _, cs => .error (.malformed .propertyName cs)
  | fuel + 1, acc, cs =>
    match cs with
    | '"' :: body =>
      (string cs (fuel + 1) [] body).andThen fun key rest =>
        match skip rest with
        | ':' :: after =>
          (item (skip after)).andThen fun v rest' =>
            match skip rest' with
            | '}' :: done => .ok (acc.put key v, done)
            | ',' :: next => members item fuel (acc.put key v) (skip next)
            | other => .error (.malformed .comma other)
        | other => .error (.malformed .colon other)
    | _ => .error (.malformed .propertyName cs)

/-- The characters after `word`, if it comes next. -/
def after? (word : String) (cs : List Char) : Option (List Char) :=
  if word.toList.isPrefixOf cs then some (cs.drop word.length) else none

/-- The words that are values of their own. -/
def words : List (String × Json) :=
  [("null", .null), ("true", .bool true), ("false", .bool false), ("NaN", .number .nan),
   ("Infinity", .number (.infinite false)), ("-Infinity", .number (.infinite true))]

/-- A word that is a value, or a number. -/
def scalar (cs : List Char) : Reading Json :=
  match words.findSome? fun w => (after? w.1 cs).map fun rest => (w.2, rest) with
  | some r => .ok r
  | none => number cs

/-- An array after its opening bracket. -/
def array (item : List Char → Reading Json) (fuel : Nat) (body : List Char) : Reading Json :=
  match skip body with
  | ']' :: rest => .ok (.arr [], rest)
  | cs => (items item fuel cs).andThen fun vs rest => .ok (.arr vs, rest)

/-- An object after its opening brace. -/
def object (item : List Char → Reading Json) (fuel : Nat) (body : List Char) : Reading Json :=
  match skip body with
  | '}' :: rest => .ok (.obj [], rest)
  | cs => (members item fuel [] cs).andThen fun ms rest => .ok (.obj ms, rest)

/-- A value that is neither array nor object. -/
def leaf (fuel : Nat) (cs : List Char) : Reading Json :=
  match cs with
  | '"' :: body => (string cs fuel [] body).andThen fun s rest => .ok (.str s, rest)
  | _ => scalar cs

/-- A value that nests at most `levels` deep; `fuel` exceeds the number of characters. -/
def value (fuel : Nat) : (levels : Nat) → List Char → Reading Json
  | 0, cs =>
    match cs with
    | '[' :: _ | '{' :: _ => .error .nesting
    | _ => leaf fuel cs
  | levels + 1, cs =>
    match cs with
    | '[' :: body => array (value fuel levels) fuel body
    | '{' :: body => object (value fuel levels) fuel body
    | _ => leaf fuel cs

/-! ## Whole texts -/

/-- Where and why a text is malformed. -/
structure Complaint where
  reason : Reason
  line : Nat
  column : Nat
  offset : Nat
  deriving DecidableEq, Repr

/-- A complaint in words. -/
def Complaint.message (c : Complaint) : String :=
  c.reason.message ++ ": line " ++ toString c.line ++ " column " ++ toString c.column ++
    " (char " ++ toString c.offset ++ ")"

/-- Why a text could not be read. -/
inductive ReadError where
  | malformed (complaint : Complaint)
  | digits (count : Nat)
  | nesting
  | loneSurrogate
  deriving DecidableEq, Repr

/-- The line and the column of an offset; both count from one. -/
def place (cs : List Char) (offset : Nat) : Nat × Nat :=
  let before := cs.take offset
  (before.count '\n' + 1, (before.reverse.takeWhile (· != '\n')).length + 1)

/-- The error of a reader on the text `cs`. -/
def Stop.toError (cs : List Char) : Stop → ReadError
  | malformed reason rest =>
    let offset := cs.length - rest.length
    let (line, column) := place cs offset
    .malformed ⟨reason, line, column, offset⟩
  | digits count => .digits count
  | nesting => .nesting
  | loneSurrogate => .loneSurrogate

/-- Reads a text that holds one value and nothing else but blanks. -/
def readChars (cs : List Char) : Except Stop Json :=
  match cs with
  | '\uFEFF' :: _ => .error (.malformed .byteOrderMark cs)
  | _ =>
    match value (cs.length + 1) nestingLimit (skip cs) with
    | .error stop => .error stop
    | .ok (v, rest) =>
      match skip rest with
      | [] => if holdsHalf cs.length cs then .error .loneSurrogate else .ok v
      | other => .error (.malformed .extra other)

end BlockCalculus.Json.Reader

namespace BlockCalculus.Json

/-- Reads the value that a text holds. -/
def read (text : String) : Except Reader.ReadError Json :=
  (Reader.readChars text.toList).mapError (Reader.Stop.toError text.toList)

end BlockCalculus.Json
