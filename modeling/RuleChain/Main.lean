import RuleChain.Command.Run

/-! # The program

  Finds out what a run depends on, runs, prints, and ends with the exit code. All decisions are
  made in `Outcome.ofArguments`.
-/

namespace RuleChain

/-- Looks at a file. -/
def readFile (path : String) : IO FileState := do
  try
    return .file (← IO.FS.readBinFile path)
  catch
    | .noFileOrDirectory .. => return .missing
    | .inappropriateType .. => return .directory
    | e => return .unreachable e.toString

/-- The variables of the environment that are set. -/
def readEnvironment : IO Environment := do
  let found ← Config.variableNames.mapM fun name => do
    return (← IO.getEnv name).map fun value => (name, value)
  return found.filterMap id

/-- The files that a command line is about. -/
def readFiles (args : List String) : IO Files := do
  match Invocation.parse args with
  | .error _ => return fun _ => .missing
  | .ok invocation =>
    let found ← invocation.paths.mapM fun path => do return (path, ← readFile path)
    return fun path => ((found.find? (·.1 == path)).map (·.2)).getD .missing

/-- Prints what a run leaves behind; if nothing can be printed the run ends differently. -/
def runProgram (args : List String) : IO UInt8 := do
  let files ← readFiles args
  let env ← readEnvironment
  let outcomeWith := fun (outputFault : Option String) =>
    Outcome.ofArguments { files, env, parallelism := 1, outputFault } args
  let printed : IO Outcome := do
    let outcome := outcomeWith none
    let out ← IO.getStdout
    out.putStr outcome.stdout
    out.flush
    return outcome
  let outcome ← try printed catch e => pure (outcomeWith (some e.toString))
  (← IO.getStderr).putStr outcome.stderr
  return outcome.exitCode

end RuleChain

def main (args : List String) : IO UInt32 := do
  return (← RuleChain.runProgram args).toUInt32
