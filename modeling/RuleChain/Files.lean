import RuleChain.Error

/-! # Files

  What the program finds at the paths that it is given. A path may lead to nothing, to something
  that cannot be looked at or read, or to the bytes of a file.
-/

namespace RuleChain

/-- What is found at a path. -/
inductive FileState where
  /-- There is nothing. -/
  | missing
  /-- It cannot be found out what there is. -/
  | unreachable (reason : String)
  /-- There is something, but its content cannot be read; a directory, for instance. -/
  | unreadable (reason : String)
  | file (content : ByteArray)
deriving Inhabited

/-- The files that the program can see. -/
abbrev Files := String → FileState

namespace FileState

/-! ### Complaints of the system -/

def missingReason : String := "No such file or directory (os error 2)"

def directoryReason : String := "Is a directory (os error 21)"

def notTextReason : String := "stream did not contain valid UTF-8"

/-- A directory, which exists but cannot be read like a file. -/
def directory : FileState := .unreadable directoryReason

/-! ### Looking at a file -/

/-- Whether there is known to be something. -/
def isPresent : FileState → Bool
  | .missing => false
  | .unreachable _ => false
  | _ => true

/-- The size of a file in bytes; for anything else it does not matter here. -/
def size : FileState → Except String Nat
  | .missing => .error missingReason
  | .unreachable reason => .error reason
  | .unreadable _ => .ok 0
  | .file content => .ok content.size

/-- The text of a file. -/
def text : FileState → Except String String
  | .missing => .error missingReason
  | .unreachable reason => .error reason
  | .unreadable reason => .error reason
  | .file content =>
    match String.fromUTF8? content with
    | some text => .ok text
    | none => .error notTextReason

end FileState

end RuleChain
