import DotLambda.Command.CaseFile
import DotLambda.Command.Interactive
import DotLambda.Command.Reduce

namespace DotLambda

/-!
# Command line

The commands as programs.  The name under which the program is called says which command it is:
one that ends in `-repl` is the interactive session, one that ends in `-fixtures` makes fixtures,
and any other reduces a file.
-/

namespace CommandLine

/-- The environment variables that matter. -/
def settingNames : List String :=
  ["BLIS_MAX_STEPS", "BLIS_ARG_STEPS", "BLIS_INDENT", "BLIS_STATS", "BLIS_DEBUG"]

/-- The environment that the program is called in. -/
def environment : IO Environment := do
  let values ← settingNames.mapM fun key => do
    return (key, (← IO.getEnv key).getD "")
  return fun key => (values.lookup key).getD ""

/-- Writes what a command has to say. -/
def write (t : Transcript) : IO Unit := do
  IO.print t.out
  (← IO.getStdout).flush
  IO.eprint t.err

/-- Writes what a command has to say at its end, and gives its exit code. -/
def finish (f : Finish) : IO UInt32 := do
  write f.toTranscript
  return f.exit.toUInt32

/-- Reduces a file. -/
def reduce (args : List String) (env : Environment) : IO UInt32 := do
  match ReduceCommand.plan args env with
  | .finish f => finish f
  | .reduce path options watched counted =>
    match ← (IO.FS.readFile path).toBaseIO with
    | .error _ => finish ReduceCommand.unreadable
    | .ok source =>
      let journal := if watched then Journal.blank else .off
      let before ← IO.monoNanosNow
      let outcome ← IO.lazyPure fun _ => runLogged journal source.toList options
      let after ← IO.monoNanosNow
      let timing := Timing.ofDuration ⟨after - before⟩
      finish (ReduceCommand.written options counted timing outcome)

/-- Answers lines that have been read together, with a prompt before each but the first. -/
def answerEach (i : Interactive) : List String → IO Interactive
  | [] => return i
  | line :: lines => do
    let (i, answer) := i.feed line
    write answer
    if i.left || lines.isEmpty then return i
    write { out := i.prompt }
    answerEach i lines

/-- Takes lines from standard input until they end or the session is left. -/
partial def converse (i : Interactive) : IO Interactive := do
  write { out := i.prompt }
  let line ← (← IO.getStdin).getLine
  match linesOf line.toList with
  | [] =>
    write { out := "\n" }
    return i
  | first :: _ =>
    let i ← answerEach i ((first.readings lineBuffer).map String.ofList)
    if i.left then return i else converse i

/-- Runs an interactive session. -/
def interact (env : Environment) : IO UInt32 := do
  let home := (← IO.getEnv "HOME").getD ""
  let historyPath := (if home.isEmpty then "" else home ++ "/") ++ ".blis_history"
  let historyFile := ((← (IO.FS.readFile historyPath).toBaseIO).toOption).getD ""
  match Interactive.start env (.ofFile historyFile) with
  | .error f => finish f
  | .ok i =>
    write { out := Interactive.banner }
    let i ← converse i
    discard (IO.FS.writeFile historyPath i.history.toFile).toBaseIO
    return 0

/-- The wording of what the system says about a file. -/
def reason : IO.Error → String
  | .noFileOrDirectory .. => FileFault.missing.message
  | .noSuchThing .. => FileFault.missing.message
  | .inappropriateType .. => FileFault.isFolder.message
  | e => toString e

/-- The files of the system. -/
def files : FileAccess IO where
  read path := do
    return (← (IO.FS.readFile path).toBaseIO).mapError fun e => ⟨.openFile, path, reason e⟩
  makeFolders path := do
    return (← (IO.FS.createDirAll path).toBaseIO).mapError fun e => ⟨.makeFolder, path, reason e⟩
  write path content := do
    let done ← (IO.FS.writeFile path content).toBaseIO
    return done.mapError fun e => ⟨.openFile, path, reason e⟩

end CommandLine

end DotLambda

open DotLambda in
/-- Runs the command that the program is called as. -/
def main (args : List String) : IO UInt32 := do
  let env ← CommandLine.environment
  let called := (← IO.appPath).toString
  if called.endsWith "-repl" then CommandLine.interact env
  else if called.endsWith "-fixtures" then
    CommandLine.finish (← FixtureCommand.run CommandLine.files CaseFile.decode args)
  else CommandLine.reduce args env
