/-!
# UTF-8

Bytes are decoded strictly. The first sequence that is not UTF-8 is refused with the bytes that
rule it out: a byte that starts no sequence, a byte that cannot continue one, or the end of the
data inside one.

Line breaks written `\r\n` or `\r` are read as `\n`.
-/

namespace BlockCalculus.Text

/-- Why bytes are not UTF-8. -/
inductive Utf8Reason where
  | start
  | continuation
  | ending
  deriving DecidableEq, Repr

/-- The words for a reason. -/
def Utf8Reason.message : Utf8Reason → String
  | start => "invalid start byte"
  | continuation => "invalid continuation byte"
  | ending => "unexpected end of data"

/-- A refused sequence: its first byte, its offset, and how many bytes are at fault. -/
structure Utf8Error where
  reason : Utf8Reason
  byte : UInt8
  offset : Nat
  length : Nat
  deriving DecidableEq, Repr

/-- Whether a byte can continue a sequence. -/
def isContinuation (b : UInt8) : Bool :=
  0x80 ≤ b && b < 0xC0

/-- Whether `b` can follow the first byte `a` of a sequence of three or four bytes. The limits
keep out overlong forms, surrogates and what lies beyond U+10FFFF. -/
def isSecond (a b : UInt8) : Bool :=
  isContinuation b &&
    (if a == 0xE0 then 0xA0 ≤ b
     else if a == 0xED then b < 0xA0
     else if a == 0xF0 then 0x90 ≤ b
     else if a == 0xF4 then b < 0x90
     else true)

/-- The six low bits that a continuation byte carries. -/
def tailBits (b : UInt8) : Nat :=
  b.toNat % 0x40

/-- Decodes bytes, the next one at `offset`. The characters so far are in `acc`, last first. -/
def decodeUtf8From (offset : Nat) (acc : List Char) : List UInt8 → Except Utf8Error (List Char)
  | [] => .ok acc.reverse
  | a :: rest =>
    let refuse (reason : Utf8Reason) (length : Nat) : Except Utf8Error (List Char) :=
      .error ⟨reason, a, offset, length⟩
    if a < 0x80 then decodeUtf8From (offset + 1) (Char.ofNat a.toNat :: acc) rest
    else if a < 0xC2 then refuse .start 1
    else if a < 0xE0 then
      match rest with
      | [] => refuse .ending 1
      | b :: after =>
        if isContinuation b then
          decodeUtf8From (offset + 2)
            (Char.ofNat (a.toNat % 0x20 * 0x40 + tailBits b) :: acc) after
        else refuse .continuation 1
    else if a < 0xF0 then
      match rest with
      | [] => refuse .ending 1
      | b :: rest =>
        if !isSecond a b then refuse .continuation 1
        else
          match rest with
          | [] => refuse .ending 2
          | c :: after =>
            if isContinuation c then
              decodeUtf8From (offset + 3)
                (Char.ofNat ((a.toNat % 0x10 * 0x40 + tailBits b) * 0x40 + tailBits c) :: acc)
                after
            else refuse .continuation 2
    else if a < 0xF5 then
      match rest with
      | [] => refuse .ending 1
      | b :: rest =>
        if !isSecond a b then refuse .continuation 1
        else
          match rest with
          | [] => refuse .ending 2
          | c :: rest =>
            if !isContinuation c then refuse .continuation 2
            else
              match rest with
              | [] => refuse .ending 3
              | d :: after =>
                if isContinuation d then
                  decodeUtf8From (offset + 4)
                    (Char.ofNat (((a.toNat % 8 * 0x40 + tailBits b) * 0x40 + tailBits c) * 0x40 +
                      tailBits d) :: acc)
                    after
                else refuse .continuation 3
    else refuse .start 1

/-- Decodes bytes. -/
def decodeUtf8 (bytes : List UInt8) : Except Utf8Error (List Char) :=
  decodeUtf8From 0 [] bytes

/-- Reads every line break as `\n`; the characters so far are in `acc`, last one first. -/
def plainLinesFrom (acc : List Char) : List Char → List Char
  | [] => acc.reverse
  | '\r' :: '\n' :: rest => plainLinesFrom ('\n' :: acc) rest
  | '\r' :: rest => plainLinesFrom ('\n' :: acc) rest
  | c :: rest => plainLinesFrom (c :: acc) rest

/-- The text with every line break read as `\n`. -/
def plainLines (cs : List Char) : List Char :=
  plainLinesFrom [] cs

end BlockCalculus.Text
