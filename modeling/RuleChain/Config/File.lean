import RuleChain.Config.Document
import RuleChain.Files

/-! # Configuration files

  A configuration file that is asked for by name has to be there. The program as a whole can do
  without one: then the environment and the defaults make up the configuration.
-/

namespace RuleChain

namespace Config

/-- Takes a configuration from the file at a path and from the environment. -/
def loadFile (files : Files) (path : String) (env : Environment) : Except Failure Config :=
  match files path with
  | .missing => .error (.config (.fileNotFound path))
  | file =>
    match file.text with
    | .error reason => .error (.io reason)
    | .ok text => (load text env).mapError .config

/-- Takes a configuration from the file at a path if there is one, and from the environment. -/
def loadOrDefault (files : Files) (path : String) (env : Environment) : Except Failure Config :=
  if (files path).isPresent then loadFile files path env
  else (ofEnvironment env).mapError .config

end Config

end RuleChain
