import RuleChain.Text.Blank
import RuleChain.Word

/-! # Hexadecimal text

  Bytes are written with two digits each, the high half first.

  - `encode` writes in lower case.
  - `decode` reads either case and refuses an odd number of digits before it looks at any
    digit. Positions count bytes of the UTF-8 form of the text, and a bad byte is reported as the
    character of that number.
  - `readField` is the reader for a field of a rule: blanks around the digits and one leading `0x`
    or `0X` are allowed.
  - `readDump` is the reader for a whole packet: the digits may also be separated by blanks and
    colons anywhere.
-/

namespace RuleChain

namespace Hex

/-! ### Writing -/

/-- The digit for a number below sixteen. -/
def digit (n : Nat) : Char :=
  if n < 10 then Char.ofNat ('0'.toNat + n) else Char.ofNat ('a'.toNat + (n - 10))

def encodeByte (byte : UInt8) : List Char :=
  [digit (byte.toNat / 16), digit (byte.toNat % 16)]

def encode (bytes : Bytes) : String :=
  String.ofList (bytes.flatMap encodeByte)

/-! ### Reading -/

/-- Why a text is not hexadecimal. -/
inductive Error where
  | oddLength
  | badDigit (byte : UInt8) (position : Nat)
deriving DecidableEq, Repr

/-- A byte of a refused text as a quoted character: what cannot be shown is given by its number. -/
def quote (byte : UInt8) : String :=
  let n := byte.toNat
  let body :=
    if n = 0 then "\\0"
    else if n = 9 then "\\t"
    else if n = 10 then "\\n"
    else if n = 13 then "\\r"
    else if n = 39 then "\\'"
    else if n = 92 then "\\\\"
    else if (32 ≤ n ∧ n ≤ 126) ∨ (161 ≤ n ∧ n ≠ 173) then (Char.ofNat n).toString
    else "\\u\x7b" ++ String.ofList (Nat.toDigits 16 n) ++ "\x7d"
  "'" ++ body ++ "'"

def Error.message : Error → String
  | .oddLength => "Odd number of digits"
  | .badDigit byte position =>
    "Invalid character " ++ quote byte ++ " at position " ++ toString position

/-- The value of a digit, given as a byte of the text. -/
def value? (byte : UInt8) : Option Nat :=
  let n := byte.toNat
  if '0'.toNat ≤ n ∧ n ≤ '9'.toNat then some (n - '0'.toNat)
  else if 'a'.toNat ≤ n ∧ n ≤ 'f'.toNat then some (n - 'a'.toNat + 10)
  else if 'A'.toNat ≤ n ∧ n ≤ 'F'.toNat then some (n - 'A'.toNat + 10)
  else none

/-- The digit at `position`, or a complaint about it. -/
def digitAt (byte : UInt8) (position : Nat) : Except Error Nat :=
  match value? byte with
  | some n => .ok n
  | none => .error (.badDigit byte position)

/-- Reads pairs of digits; `position` is that of the first byte. -/
def decodePairs (position : Nat) : List UInt8 → Except Error Bytes
  | high :: low :: rest => do
    let h ← digitAt high position
    let l ← digitAt low (position + 1)
    let bytes ← decodePairs (position + 2) rest
    return UInt8.ofNat (h * 16 + l) :: bytes
  | _ => .ok []

/-- Reads the digits of a text given by its UTF-8 bytes. -/
def decodeUtf8 (text : List UInt8) : Except Error Bytes :=
  if text.length % 2 = 1 then .error .oddLength else decodePairs 0 text

def decode (text : String) : Except Error Bytes :=
  decodeUtf8 text.toUTF8.data.toList

/-- Removes one leading `0x`, or else one leading `0X`. -/
def stripMarker : List Char → List Char
  | '0' :: 'x' :: rest => rest
  | '0' :: 'X' :: rest => rest
  | text => text

/-! ### The two readers -/

/-- A character that may stand between the digits of a packet. -/
def isSeparator (c : Char) : Bool := Text.isBlank c || c == ':'

/-- Reads a field of a rule. -/
def readField (text : String) : Except Error Bytes :=
  decode (String.ofList (stripMarker (Text.trim text.toList)))

/-- Reads a packet. -/
def readDump (text : String) : Except Error Bytes :=
  decode (String.ofList ((stripMarker (Text.trim text.toList)).filter (!isSeparator ·)))

end Hex

end RuleChain
