/-! # Decimal numbers

  Whole numbers as they are given on the command line and in environment variables: ASCII digits,
  perhaps behind one sign. Neither blanks nor separators are allowed.
-/

namespace RuleChain

namespace Text

/-- The number that a run of digits stands for; there has to be at least one digit. -/
def digits? (text : List Char) : Option Nat :=
  if text.isEmpty || !text.all Char.isDigit then none
  else some (text.foldl (fun n c => n * 10 + (c.toNat - '0'.toNat)) 0)

/-- A number below `bound`, perhaps behind a plus sign. -/
def natural? (bound : Nat) (text : String) : Option Nat :=
  let digits :=
    match text.toList with
    | '+' :: rest => rest
    | all => all
  (digits? digits).filter (· < bound)

/-- A number below `bound`, perhaps behind a sign: minus zero is zero. -/
def signedNatural? (bound : Nat) (text : String) : Option Nat :=
  match text.toList with
  | '-' :: rest => (digits? rest).filter (· = 0)
  | _ => natural? bound text

end Text

end RuleChain
