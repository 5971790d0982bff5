import RuleChain.Datum
import RuleChain.Toml.Strings

/-! # Numbers, truth values and dates

  A scalar that is not a string is a run of letters, digits and a few signs. The run is read as a
  whole and then has to be one of: a truth value, an integer in one of four bases, a
  floating-point number, a date, a time, or a date with a time. Digits may be grouped by single
  underscores.

  - An integer may have up to 128 bits.
  - A floating-point number must not round to infinity.
  - A minute may have a sixty-first second, and seconds may be left out.
-/

namespace RuleChain.Toml

/-! ### Digits -/

def isDecimal (c : Char) : Bool := '0' ≤ c && c ≤ '9'

def isBinary (c : Char) : Bool := c == '0' || c == '1'

def isOctal (c : Char) : Bool := '0' ≤ c && c ≤ '7'

def isHexadecimal (c : Char) : Bool := (hexValue? c).isSome

/-- The digits of a run in which single underscores may stand between digits. -/
def digits? (isDigit : Char → Bool) : List Char → Option (List Char)
  | [] => none
  | [c] => if isDigit c then some [c] else none
  | c :: '_' :: rest => if isDigit c then (digits? isDigit rest).map (c :: ·) else none
  | c :: rest => if isDigit c then (digits? isDigit rest).map (c :: ·) else none

/-- The number written with digits of a base. -/
def numberOf (base : Nat) (digits : List Char) : Nat :=
  digits.foldl (fun n c => n * base + (hexValue? c).getD 0) 0

/-- Digits of a decimal integer: no zero stands before others. -/
def decimalDigits? (s : List Char) : Option (List Char) :=
  (digits? isDecimal s).filter fun digits => digits.length = 1 || digits.head? != some '0'

/-- Takes a sign; tells whether it is a minus. -/
def splitSign : List Char → Bool × List Char
  | '+' :: rest => (false, rest)
  | '-' :: rest => (true, rest)
  | s => (false, s)

/-! ### Integers -/

/-- The integers that can be written. -/
def isWritable (n : Int) : Bool :=
  -0x80000000000000000000000000000000 ≤ n && n < 0x100000000000000000000000000000000

def integer? (s : List Char) : Option Int :=
  let n? : Option Int :=
    match s with
    | '0' :: 'x' :: rest => (digits? isHexadecimal rest).map fun ds => (numberOf 16 ds : Int)
    | '0' :: 'o' :: rest => (digits? isOctal rest).map fun ds => (numberOf 8 ds : Int)
    | '0' :: 'b' :: rest => (digits? isBinary rest).map fun ds => (numberOf 2 ds : Int)
    | s =>
      let (negative, s) := splitSign s
      (decimalDigits? s).map fun ds =>
        if negative then -(numberOf 10 ds : Int) else (numberOf 10 ds : Int)
  n?.filter isWritable

/-! ### Floating-point numbers -/

/-- The least number that rounds to infinity in double precision. -/
def overflowBound : Nat := Nat.pow 2 1024 - Nat.pow 2 970

/-- Whether `m · 10^e` rounds to infinity. -/
def overflows (m : Nat) (e : Int) : Bool :=
  let magnitude : Int := (Nat.toDigits 10 m).length + e
  if m = 0 ∨ magnitude < 300 then false
  else if 320 < magnitude then true
  else if 0 ≤ e then overflowBound ≤ m * Nat.pow 10 e.toNat
  else overflowBound * Nat.pow 10 (-e).toNat ≤ m

/-- The exponent at the end of a number; nothing is the exponent zero. -/
def exponent? : List Char → Option Int
  | [] => some 0
  | 'e' :: rest | 'E' :: rest =>
    let (negative, s) := splitSign rest
    (digits? isDecimal s).map fun ds =>
      if negative then -(numberOf 10 ds : Int) else (numberOf 10 ds : Int)
  | _ => none

/-- Whether a run is a floating-point number that does not round to infinity. -/
def isFloat (s : List Char) : Bool :=
  let (_, s) := splitSign s
  let inNumber := fun c => isDecimal c || c == '_'
  if s = "inf".toList || s = "nan".toList then true
  else
    let finite := fun (ds fraction : List Char) (s : List Char) =>
      match exponent? s with
      | none => false
      | some e => !overflows (numberOf 10 (ds ++ fraction)) (e - fraction.length)
    match decimalDigits? (s.takeWhile inNumber), s.dropWhile inNumber with
    | some ds, '.' :: rest =>
      match digits? isDecimal (rest.takeWhile inNumber) with
      | none => false
      | some fraction => finite ds fraction (rest.dropWhile inNumber)
    | some ds, c :: rest => finite ds [] (c :: rest)
    | _, _ => false

/-! ### Dates and times -/

/-- Reads two decimal digits. -/
def twoDigits? : List Char → Option (Nat × List Char)
  | a :: b :: rest => if isDecimal a && isDecimal b then some (numberOf 10 [a, b], rest) else none
  | _ => none

/-- Reads a fixed character. -/
def sign? (sign : Char) : List Char → Option (List Char)
  | c :: rest => if c = sign then some rest else none
  | [] => none

def isLeapYear (year : Nat) : Bool := year % 4 = 0 && (year % 100 != 0 || year % 400 = 0)

def daysIn (year month : Nat) : Nat :=
  if month = 2 then (if isLeapYear year then 29 else 28)
  else if month = 4 ∨ month = 6 ∨ month = 9 ∨ month = 11 then 30
  else 31

/-- Skips a date. -/
def date? (s : List Char) : Option (List Char) := do
  let (century, s) ← twoDigits? s
  let (year, s) ← twoDigits? s
  let (month, s) ← twoDigits? (← sign? '-' s)
  let (day, s) ← twoDigits? (← sign? '-' s)
  if 1 ≤ month ∧ month ≤ 12 ∧ 1 ≤ day ∧ day ≤ daysIn (century * 100 + year) month then some s
  else none

/-- Skips hours and minutes. -/
def hourMinute? (s : List Char) : Option (List Char) := do
  let (hour, s) ← twoDigits? s
  let (minute, s) ← twoDigits? (← sign? ':' s)
  if hour ≤ 23 ∧ minute ≤ 59 then some s else none

/-- Skips a fraction of a second. -/
def fraction? : List Char → Option (List Char)
  | '.' :: c :: rest => if isDecimal c then some (rest.dropWhile isDecimal) else none
  | '.' :: [] => none
  | s => some s

/-- Skips a time of day. -/
def time? (s : List Char) : Option (List Char) := do
  match ← hourMinute? s with
  | ':' :: s =>
    let (second, s) ← twoDigits? s
    if second ≤ 60 then fraction? s else none
  | s => some s

/-- Whether what follows a date and time is a distance from Greenwich, or nothing. -/
def isOffset : List Char → Bool
  | [] => true
  | [c] => c == 'Z' || c == 'z'
  | c :: rest => (c == '+' || c == '-') && hourMinute? rest == some []

/-- Whether a run is a date, a time, or both. -/
def isDateTime (s : List Char) : Bool :=
  match date? s with
  | none => time? s == some []
  | some [] => true
  | some (c :: rest) =>
    (c == 'T' || c == 't' || c == ' ')
      && match time? rest with
        | none => false
        | some s => isOffset s

/-! ### Reading -/

/-- The meaning of a run of scalar characters. -/
def scalarOf? (s : List Char) : Option Datum :=
  if s = "true".toList then some (.bool true)
  else if s = "false".toList then some (.bool false)
  else
    match integer? s with
    | some n => some (.integer n)
    | none =>
      if isFloat s then some .float
      else if isDateTime s then some .dateTime
      else none

/-- The characters that scalars other than strings are written with. -/
def isScalarChar (c : Char) : Bool :=
  isDecimal c || ('a' ≤ c && c ≤ 'z') || ('A' ≤ c && c ≤ 'Z') || "+-._:".toList.contains c

/-- Reads a run of scalar characters. A time may follow a date behind one blank. -/
def readRun (s : List Char) : List Char × List Char :=
  let run := s.takeWhile isScalarChar
  match s.dropWhile isScalarChar with
  | ' ' :: c :: rest =>
    if date? run == some [] && isDecimal c then
      (run ++ ' ' :: (c :: rest).takeWhile isScalarChar, (c :: rest).dropWhile isScalarChar)
    else (run, ' ' :: c :: rest)
  | rest => (run, rest)

theorem length_readRun_lt {c : Char} {rest : List Char} (hc : isScalarChar c = true) :
    (readRun (c :: rest)).2.length < (c :: rest).length := by
  have h : ((c :: rest).dropWhile isScalarChar).length ≤ rest.length := by
    rw [List.dropWhile_cons_of_pos hc]
    exact (List.dropWhile_sublist _).length_le
  unfold readRun
  dsimp only
  split
  · rename_i c' rest' heq
    have h' := (List.dropWhile_sublist (l := c' :: rest') isScalarChar).length_le
    rw [heq] at h
    split <;> simp only [List.length_cons] at h h' ⊢ <;> omega
  · simp only [List.length_cons]
    omega

/-- Reads a scalar other than a string. -/
def readScalar : Reader Datum
  | [] => none
  | c :: rest =>
    if h : isScalarChar c = true then
      (scalarOf? (readRun (c :: rest)).1).map fun d =>
        ⟨d, (readRun (c :: rest)).2, length_readRun_lt h⟩
    else none

end RuleChain.Toml
