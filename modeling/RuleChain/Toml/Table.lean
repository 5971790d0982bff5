import RuleChain.Datum

/-! # Tables under construction

  While a document is read, its tables grow from several places: headers, keys with dots, and
  elements added to arrays of tables. What may still be added to a table depends on how it came
  about, which its kind tells:

  - a table that a header names may not be named by another one, nor grow by dotted keys of other
    tables;
  - a table that only exists because a longer header needed it may be named later, once;
  - a table that dotted keys made may grow by more of them, but may not be named by a header.

  Values, inline tables among them, are closed.
-/

namespace RuleChain.Toml

/-- How a table came about. -/
inductive TableKind where
  /-- A header names it. -/
  | named
  /-- A longer header goes through it. -/
  | implied
  /-- Keys with dots go through it. -/
  | dotted
deriving DecidableEq, Repr

/-- What a key stands for while a document is read. -/
inductive Node where
  | value (value : Datum)
  | table (kind : TableKind) (entries : List (String × Node))
  /-- An array of tables, the last one first. -/
  | tables (elements : List Node)
deriving Inhabited

/-- The keys of a table, in the order of their first appearance. -/
abbrev Entries := List (String × Node)

namespace Entries

/-- Replaces what a key stands for, or adds the key at the end. -/
def update (key : String) (f : Option Node → Option Node) : Entries → Option Entries
  | [] => (f none).map fun node => [(key, node)]
  | (k, node) :: rest =>
    if k = key then (f (some node)).map fun node => (k, node) :: rest
    else (update key f rest).map fun rest => (k, node) :: rest

/-- Changes the table at the end of a path. Tables that are missing on the way are made, of the
given kind. A path of dotted keys may not go through a table that a header names; a path into an
array of tables goes into its last element. -/
def modifyAt (kind : TableKind) (f : TableKind → Entries → Option Entries) :
    List String → TableKind → Entries → Option Entries
  | [], own, entries => f own entries
  | key :: path, _, entries =>
    entries.update key fun
      | none => (modifyAt kind f path kind []).map (Node.table kind)
      | some (.table own inner) =>
        if kind = .dotted ∧ own = .named then none
        else (modifyAt kind f path own inner).map (Node.table own)
      | some (.tables (.table own inner :: earlier)) =>
        (modifyAt kind f path own inner).map fun inner => .tables (.table own inner :: earlier)
      | some _ => none

/-- Adds a value under a dotted key, given by its path and its last part. -/
def addValue (path : List String) (key : String) (value : Datum) (own : TableKind)
    (entries : Entries) : Option Entries :=
  modifyAt .dotted
    (fun own entries =>
      if (own == .dotted) == path.isEmpty then none
      else
        entries.update key fun
          | none => some (.value value)
          | some _ => none)
    path own entries

/-- Opens the table that a header names. -/
def openTable (path : List String) (key : String) (entries : Entries) : Option Entries :=
  modifyAt .implied
    (fun _ entries =>
      entries.update key fun
        | none => some (.table .named [])
        | some (.table .implied inner) => some (.table .named inner)
        | some _ => none)
    path .named entries

/-- Opens the next element of the array of tables that a header names. -/
def openElement (path : List String) (key : String) (entries : Entries) : Option Entries :=
  modifyAt .implied
    (fun _ entries =>
      entries.update key fun
        | none => some (.tables [.table .named []])
        | some (.tables elements) => some (.tables (.table .named [] :: elements))
        | some _ => none)
    path .named entries

end Entries

/-! ### The finished document -/

mutual

def Node.toDatum : Node → Datum
  | .value value => value
  | .table _ entries => .table (toData entries)
  | .tables elements => .array (reverseData [] elements)

/-- The entries of a finished table. -/
def toData : List (String × Node) → List (String × Datum)
  | [] => []
  | (key, node) :: rest => (key, node.toDatum) :: toData rest

/-- Finished elements in reverse order, before those that are given. -/
def reverseData (done : List Datum) : List Node → List Datum
  | [] => done
  | node :: rest => reverseData (node.toDatum :: done) rest

end

end RuleChain.Toml
