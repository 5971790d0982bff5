/-! # Reading from a text

  A reader takes what it looks for from the start of a text and hands back the rest. What it
  returns carries the fact that the rest has not grown, so that readers can call each other in
  loops that are seen to end.

  - `Rest` is the end of a text from some place on, as it is left when something is skipped.
  - `Found` is a value together with the text behind it, which is shorter than the text before.
  - `collect` repeats a reader until it has found the last item.

  The module also holds the smallest readers: gaps, comments and line ends.
-/

namespace RuleChain.Toml

/-! ### The end of a text -/

/-- The end of a text from some place on. -/
abbrev Rest (s : List Char) := { rest : List Char // rest.length ≤ s.length }

namespace Rest

/-- All of a text. -/
def whole (s : List Char) : Rest s := ⟨s, Nat.le_refl _⟩

/-- The end of a text behind all characters of a kind. -/
def dropWhile (p : Char → Bool) (s : List Char) : Rest s :=
  ⟨s.dropWhile p, (List.dropWhile_sublist p).length_le⟩

/-- The end of an end. -/
@[inline] def andThen {s : List Char} (r : Rest s) (r' : Rest r.val) : Rest s :=
  ⟨r'.val, Nat.le_trans r'.property r.property⟩

end Rest

/-! ### Values and what is behind them -/

/-- What was read from the start of a text, and the text behind it. -/
structure Found (α : Type) (s : List Char) where
  value : α
  rest : List Char
  shorter : rest.length < s.length

/-- What looks for a value at the start of a text. -/
abbrev Reader (α : Type) := (s : List Char) → Option (Found α s)

namespace Found

variable {α β : Type} {s : List Char}

/-- A value that took one character, and then something that was skipped. -/
def behind {c : Char} (value : α) (after : Rest s) : Found α (c :: s) :=
  ⟨value, after.val, Nat.lt_succ_of_le after.property⟩

/-- A value that took one character. -/
def next {c : Char} (value : α) (rest : List Char) : Found α (c :: rest) :=
  behind value (.whole rest)

/-- The same with another value. -/
def map (f : α → β) (found : Found α s) : Found β s := ⟨f found.value, found.rest, found.shorter⟩

/-- The same in a text with one more character in front. -/
def push {c : Char} (found : Found α s) : Found α (c :: s) :=
  ⟨found.value, found.rest, Nat.lt_succ_of_lt found.shorter⟩

/-- The same in a text of which something was skipped first. -/
def within (r : Rest s) (found : Found α r.val) : Found α s :=
  ⟨found.value, found.rest, Nat.lt_of_lt_of_le found.shorter r.property⟩

/-- The text behind the value. -/
def after (found : Found α s) : Rest s := ⟨found.rest, Nat.le_of_lt found.shorter⟩

/-- Skips something behind the value. -/
def skip (found : Found α s) (skipper : (t : List Char) → Rest t) : Found α s :=
  ⟨found.value, (skipper found.rest).val,
    Nat.lt_of_le_of_lt (skipper found.rest).property found.shorter⟩

/-- Reads another value behind the first. -/
def followedBy (found : Found α s) (read : Reader β) : Option (Found (α × β) s) :=
  (read found.rest).map fun second =>
    ⟨(found.value, second.value), second.rest, Nat.lt_trans second.shorter found.shorter⟩

end Found

/-- Reads a fixed character. -/
def readChar (c : Char) : Reader Unit
  | [] => none
  | d :: rest => if d = c then some (.next () rest) else none

/-- Takes a fixed character behind a value. -/
def Found.takeChar? {α : Type} {s : List Char} (found : Found α s) (c : Char) :
    Option (Found α s) :=
  (found.followedBy (readChar c)).map (·.map (·.1))

/-! ### Repetition -/

/-- What one round of a repetition finds. -/
inductive Piece (α : Type) where
  /-- Items, and there may be more of them. -/
  | more (items : List α)
  /-- The last items. -/
  | last (items : List α)

/-- Repeats a reader on the end `s` of a text; `done` holds the earlier items backwards. -/
def collectFrom {α : Type} (read : Reader (Piece α)) (text : List Char) (done : List α)
    (s : List Char) (h : s.length ≤ text.length) : Option (Found (List α) text) :=
  match read s with
  | none => none
  | some ⟨.last items, rest, shorter⟩ =>
    some ⟨done.reverse ++ items, rest, Nat.lt_of_lt_of_le shorter h⟩
  | some ⟨.more items, rest, shorter⟩ =>
    collectFrom read text (items.reverse ++ done) rest
      (Nat.le_of_lt (Nat.lt_of_lt_of_le shorter h))
termination_by s.length

/-- Repeats a reader until it has found the last item. -/
def collect {α : Type} (read : Reader (Piece α)) : Reader (List α) :=
  fun s => collectFrom read s [] s (Nat.le_refl _)

/-! ### Gaps, comments and line ends -/

/-- Blanks within a line. -/
def isGap (c : Char) : Bool := c == ' ' || c == '\t'

/-- Characters that may stand in comments and in strings: no control character but the tab. -/
def isPlain (c : Char) : Bool := c == '\t' || (0x20 ≤ c.toNat && c.toNat != 0x7F)

def skipGaps (s : List Char) : Rest s := .dropWhile isGap s

/-- Skips a comment, without the end of its line. -/
def skipComment : (s : List Char) → Rest s
  | '#' :: rest => (Found.behind () (.dropWhile isPlain rest)).after
  | s => .whole s

/-- Skips blanks and a comment. -/
def skipRemark (s : List Char) : Rest s := (skipGaps s).andThen (skipComment (skipGaps s).val)

/-- Skips one line end. -/
def newline? : Reader Unit
  | '\n' :: rest => some (.next () rest)
  | '\r' :: '\n' :: rest => some (Found.next () rest).push
  | _ => none

/-- Skips blanks and a comment at the end of a line, and the line end unless the text ends. -/
def endLine? (s : List Char) : Option (Rest s) :=
  let r := skipRemark s
  if r.val.isEmpty then some r else (newline? r.val).map fun found => r.andThen found.after

/-- Skips blanks, comments and line ends. -/
def skipLines (s : List Char) : Rest s :=
  let r := skipRemark s
  match newline? r.val with
  | none => r
  | some found =>
    have : found.rest.length < s.length := Nat.lt_of_lt_of_le found.shorter r.property
    (r.andThen found.after).andThen (skipLines found.rest)
termination_by s.length

end RuleChain.Toml
