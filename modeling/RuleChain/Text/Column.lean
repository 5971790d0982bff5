/-! # Columns

  Text in columns: every cell is filled up with blanks to a width that counts characters. A cell
  that is too long is kept whole.
-/

namespace RuleChain

namespace Text

/-- Fills a cell up on its right. -/
def padRight (width : Nat) (cell : String) : String :=
  cell ++ String.ofList (List.replicate (width - cell.length) ' ')

/-- A row of cells with their widths, and a last cell that is not filled up. -/
def row (cells : List (Nat × String)) (last : String) : String :=
  String.join (cells.map fun (width, cell) => padRight width cell ++ " ") ++ last

/-- Ends every line. -/
def unlines (lines : List String) : String := String.join (lines.map (· ++ "\n"))

end Text

end RuleChain
