import RuleChain.Files
import RuleChain.Ruleset.Decode

/-! # Ruleset files

  A ruleset file is looked at before it is read, so that a file that is far too large is refused
  by its size.
-/

namespace RuleChain

namespace Ruleset

/-- The size that a ruleset file may have, in bytes. -/
def maxFileSize : Nat := 10 * 1024 * 1024

/-- Reads the ruleset file at a path. -/
def load (files : Files) (path : String) : Except EngineError Ruleset := do
  let file := files path
  let complain := fun (complaint reason : String) =>
    EngineError.rulesetLoad path (complaint ++ ": " ++ reason)
  let size ← file.size.mapError (complain "failed to read file metadata")
  if maxFileSize < size then
    throw (.rulesetLoad path s!"file too large: {size} bytes (max: {maxFileSize})")
  let text ← file.text.mapError (complain "failed to read file")
  parse text path

end Ruleset

end RuleChain
