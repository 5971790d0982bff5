import RuleChain.Error

/-! # Command errors

  Why a command did not succeed, and the exit code that says so: 2 for the configuration, 3 for
  the ruleset, 4 for the packet, 10 for input and output, and 1 for everything else.
-/

namespace RuleChain

/-- Why a command did not succeed. -/
inductive CommandError where
  | config (reason : String)
  /-- The command cannot be carried out as it was asked for. -/
  | command (reason : String)
  | ruleset (error : EngineError)
  | packet (reason : String)
  /-- The JSON form of a report could not be written. -/
  | json (reason : String)
  | io (reason : String)
  /-- A failure of some part of the program. -/
  | core (failure : Failure)
deriving DecidableEq, Repr

namespace CommandError

def message : CommandError → String
  | .config reason => "configuration error: " ++ reason
  | .command reason => reason
  | .ruleset error => "ruleset error: " ++ error.message
  | .packet reason => "invalid packet: " ++ reason
  | .json reason => "json output error: " ++ reason
  | .io reason => "io error: " ++ reason
  | .core failure => failure.message

def exitCode : CommandError → UInt8
  | .config _ => 2
  | .core (.config _) => 2
  | .ruleset _ => 3
  | .core (.ruleset _) => 3
  | .packet _ => 4
  | .io _ => 10
  | .core (.io _) => 10
  | _ => 1

end CommandError

end RuleChain
