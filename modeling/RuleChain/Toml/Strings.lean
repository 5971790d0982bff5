import RuleChain.Toml.Reader

/-! # Strings

  The four kinds of string: basic strings know escapes, literal strings do not, and each kind has a
  form that may run over several lines. A line end directly behind the opening quotes of such a
  string does not count, and up to two quotes may stand before the closing ones.
-/

namespace RuleChain.Toml

/-! ### Escapes -/

/-- The value of a hexadecimal digit. -/
def hexValue? (c : Char) : Option Nat :=
  if '0' ≤ c ∧ c ≤ '9' then some (c.toNat - '0'.toNat)
  else if 'a' ≤ c ∧ c ≤ 'f' then some (c.toNat - 'a'.toNat + 10)
  else if 'A' ≤ c ∧ c ≤ 'F' then some (c.toNat - 'A'.toNat + 10)
  else none

/-- The character whose number is written with the given digits. -/
def charOfHex? (digits : List Char) : Option Char := do
  let n ← digits.foldlM (fun n c => (hexValue? c).map (n * 16 + ·)) 0
  if h : n.isValidChar then some (Char.ofNatAux n h) else none

/-- Reads an escape from behind its backslash. -/
def readEscape : Reader Char
  | 'b' :: rest => some (.next '\x08' rest)
  | 't' :: rest => some (.next '\t' rest)
  | 'n' :: rest => some (.next '\n' rest)
  | 'f' :: rest => some (.next '\x0c' rest)
  | 'r' :: rest => some (.next '\r' rest)
  | 'e' :: rest => some (.next '\x1b' rest)
  | '"' :: rest => some (.next '"' rest)
  | '\\' :: rest => some (.next '\\' rest)
  | 'x' :: a :: b :: rest => (charOfHex? [a, b]).map fun c => (Found.next c rest).push.push
  | 'u' :: a :: b :: c :: d :: rest =>
    (charOfHex? [a, b, c, d]).map fun c => (Found.next c rest).push.push.push.push
  | 'U' :: a :: b :: c :: d :: e :: f :: g :: h :: rest =>
    (charOfHex? [a, b, c, d, e, f, g, h]).map fun c =>
      (Found.next c rest).push.push.push.push.push.push.push.push
  | _ => none

/-- Reads an escape with its backslash as a piece of a string. -/
def readEscapePiece {c : Char} (rest : List Char) : Option (Found (Piece Char) (c :: rest)) :=
  (readEscape rest).map fun found => (found.map fun c => .more [c]).push

/-! ### Strings on one line -/

/-- Reads a piece of a basic string. -/
def basicPiece : Reader (Piece Char)
  | [] => none
  | '"' :: rest => some (.next (.last []) rest)
  | '\\' :: rest => readEscapePiece rest
  | c :: rest => if isPlain c then some (.next (.more [c]) rest) else none

/-- Reads a piece of a literal string. -/
def literalPiece : Reader (Piece Char)
  | [] => none
  | '\'' :: rest => some (.next (.last []) rest)
  | c :: rest => if isPlain c then some (.next (.more [c]) rest) else none

/-! ### Strings on several lines -/

/-- Skips the line end behind the opening quotes. -/
def skipFirstLineEnd (s : List Char) : Rest s :=
  match newline? s with
  | none => .whole s
  | some found => found.after

/-- Skips blanks and line ends. -/
def skipBlankLines (s : List Char) : Rest s :=
  match newline? (skipGaps s).val with
  | none => skipGaps s
  | some found =>
    have : found.rest.length < s.length := Nat.lt_of_lt_of_le found.shorter (skipGaps s).property
    ((skipGaps s).andThen found.after).andThen (skipBlankLines found.rest)
termination_by s.length

/-- Skips a line end that is escaped by a backslash, with all blank lines behind it. -/
def skipEscapedLineEnd? (s : List Char) : Option (Rest s) :=
  match newline? (skipGaps s).val with
  | none => none
  | some _ => some (skipBlankLines s)

/-- Reads a character or a line end of a string of several lines. -/
def longPiece : Reader (Piece Char)
  | '\r' :: '\n' :: rest => some (Found.next (.more ['\r', '\n']) rest).push
  | c :: rest => if isPlain c || c == '\n' then some (.next (.more [c]) rest) else none
  | [] => none

/-- Reads a piece of a basic string of several lines. -/
def longBasicPiece : Reader (Piece Char)
  | '"' :: '"' :: '"' :: '"' :: '"' :: rest =>
    some (Found.next (.last ['"', '"']) rest).push.push.push.push
  | '"' :: '"' :: '"' :: '"' :: rest => some (Found.next (.last ['"']) rest).push.push.push
  | '"' :: '"' :: '"' :: rest => some (Found.next (.last []) rest).push.push
  | '\\' :: rest =>
    match skipEscapedLineEnd? rest with
    | some after => some (.behind (.more []) after)
    | none => readEscapePiece rest
  | s => longPiece s

/-- Reads a piece of a literal string of several lines. -/
def longLiteralPiece : Reader (Piece Char)
  | '\'' :: '\'' :: '\'' :: '\'' :: '\'' :: rest =>
    some (Found.next (.last ['\'', '\'']) rest).push.push.push.push
  | '\'' :: '\'' :: '\'' :: '\'' :: rest => some (Found.next (.last ['\'']) rest).push.push.push
  | '\'' :: '\'' :: '\'' :: rest => some (Found.next (.last []) rest).push.push
  | s => longPiece s

/-! ### Any string -/

/-- Reads the pieces of a string from behind its opening quotes. -/
def readPieces (piece : Reader (Piece Char)) : Reader String :=
  fun s => (collect piece s).map (·.map String.ofList)

/-- Reads the pieces of a string of several lines from behind its opening quotes. -/
def readLongPieces (piece : Reader (Piece Char)) : Reader String :=
  fun s => (readPieces piece (skipFirstLineEnd s).val).map (.within (skipFirstLineEnd s))

/-- Reads a string of one line, as a key may be written. -/
def readShortString : Reader String
  | '"' :: rest => (readPieces basicPiece rest).map (·.push)
  | '\'' :: rest => (readPieces literalPiece rest).map (·.push)
  | _ => none

/-- Reads a string of any kind. -/
def readString : Reader String
  | '"' :: '"' :: '"' :: rest => (readLongPieces longBasicPiece rest).map (·.push.push.push)
  | '\'' :: '\'' :: '\'' :: rest => (readLongPieces longLiteralPiece rest).map (·.push.push.push)
  | s => readShortString s

end RuleChain.Toml
