import RuleChain.Toml.Value

/-! # Documents

  A document is a list of lines: pairs of keys and values, headers of tables, and headers of
  elements of arrays of tables. Every pair belongs to the table of the header before it.
-/

namespace RuleChain.Toml

/-- One line of a document that is not blank. -/
inductive Statement where
  | pair (path : List String) (key : String) (value : Datum)
  | table (path : List String) (key : String)
  | element (path : List String) (key : String)

/-- Reads a header from behind its opening brackets. -/
def readHeader (closing : List Char) (make : List String → String → Statement) :
    Reader Statement := fun s => do
  let key ← readKey (skipGaps s).val
  let closed ← closing.foldlM Found.takeChar? (key.within (skipGaps s))
  return closed.map fun (path, key) => make path key

/-- Reads a statement. -/
def readStatement : Reader Statement
  | '[' :: '[' :: rest => (readHeader [']', ']'] .element rest).map (·.push.push)
  | '[' :: rest => (readHeader [']'] .table rest).map (·.push)
  | s =>
    (readPair (readValue maxNesting) s).map (·.map fun ((path, key), value) =>
      .pair path key value)

/-- Reads a statement and the end of its line. -/
def readLine : Reader Statement := fun s => do
  let found ← readStatement s
  let after ← endLine? found.rest
  return ⟨found.value, after.val, Nat.lt_of_le_of_lt after.property found.shorter⟩

/-- A document as far as it has been read. -/
structure Draft where
  entries : Entries
  /-- The header that pairs belong to. -/
  header : List String

namespace Draft

def empty : Draft := ⟨[], []⟩

/-- Adds a statement. -/
def add (draft : Draft) : Statement → Option Draft
  | .pair path key value =>
    (Entries.modifyAt .implied (fun own entries => entries.addValue path key value own)
      draft.header .named draft.entries).map fun entries => { draft with entries }
  | .table path key =>
    (draft.entries.openTable path key).map fun entries => ⟨entries, path ++ [key]⟩
  | .element path key =>
    (draft.entries.openElement path key).map fun entries => ⟨entries, path ++ [key]⟩

end Draft

/-- Reads the statements of a text and adds them to a draft. -/
def readStatements (draft : Draft) (s : List Char) : Option Draft :=
  let body := skipLines s
  if body.val.isEmpty then some draft
  else
    match readLine body.val with
    | none => none
    | some found =>
      match draft.add found.value with
      | none => none
      | some draft =>
        have : found.rest.length < s.length := Nat.lt_of_lt_of_le found.shorter body.property
        readStatements draft found.rest
termination_by s.length

/-- Skips a byte order mark. -/
def skipMark : List Char → List Char
  | '\uFEFF' :: rest => rest
  | s => s

/-- Reads a document: the entries of its root table. -/
def parse (text : String) : Option (List (String × Datum)) :=
  (readStatements .empty (skipMark text.toList)).map fun draft => toData draft.entries

end RuleChain.Toml
