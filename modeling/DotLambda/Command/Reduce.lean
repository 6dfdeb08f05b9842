import DotLambda.Command.Finish
import DotLambda.Report
import DotLambda.Settings

namespace DotLambda

/-!
# Commands — reducing a file

The command that reduces the program in a file and shows its normal form.

* `ReduceCommand.plan` — what the arguments and the environment ask for;
* `ReduceCommand.written` — what is written about the run of a program;
* `ReduceCommand.run` — the whole command.
-/

namespace ReduceCommand

/-- What is shown when help is asked for, or nothing. -/
def usage : String :=
  "==================================\n" ++
  "| Blis - Lambda Calculus Reducer |\n" ++
  "==================================\n" ++
  "\n" ++
  "Warning:\n" ++
  "    This is a research project and not meant for general use.\n" ++
  "    Therefore, the parser is not built very defensively and may produce false positives.\n" ++
  "    Proceed at your own risk.\n" ++
  "\n" ++
  "Usage:\n" ++
  "    blis [Options or Args]\n" ++
  "\n" ++
  "Args:\n" ++
  "    \"path/to/file\" - open the file and reduce the contained lambda calculus expression\n" ++
  "\n" ++
  "Options:\n" ++
  "    --help         - show this message\n" ++
  "\n" ++
  "Environment:\n" ++
  "    BLIS_MAX_STEPS - rewrite budget for the whole program (default 10000)\n" ++
  "    BLIS_ARG_STEPS - rewrite budget per substituted argument (default 10)\n" ++
  "    BLIS_INDENT    - print the result over several lines\n" ++
  "    BLIS_STATS     - print reduction statistics to stderr\n" ++
  "    BLIS_DEBUG     - trace desugaring, parsing and reduction to stderr\n"

/-- What the command is asked to do. -/
inductive Plan where
  /-- To end at once. -/
  | finish (f : Finish)
  /-- To reduce the program in the file at `path`, keeping a journal of it if `watched`, and
      showing statistics if `counted`. -/
  | reduce (path : String) (options : Options) (watched counted : Bool)

/-- What the arguments and the environment ask for. -/
def plan (args : List String) (env : Environment) : Plan :=
  match args with
  | [] => .finish (.success { out := usage })
  | path :: _ =>
    if path = "--help" then .finish (.success { out := usage })
    else
      match Options.ofEnvironment env with
      | (_, some e) => .finish (.failure { err := "Configuration error: " ++ e.message ++ "\n" })
      | (options, none) =>
        .reduce path options (env.isSet "BLIS_DEBUG") (env.isSet "BLIS_STATS")

/-- What is written when the file cannot be read. -/
def unreadable : Finish :=
  .failure { err := "Error reading file. Please check your path and try again\n" }

/-- What is written about the run of a program. -/
def written (options : Options) (counted : Bool) (timing : Timing)
    (outcome : Except RunError Result × Journal) : Finish :=
  match outcome with
  | (.error e, journal) => .failure { err := journal.log ++ "Error: " ++ e.message ++ "\n" }
  | (.ok result, journal) =>
    .success {
      out := result.display options.overLines ++ "\n"
      err := journal.log ++ if counted then result.stats.report timing else "" }

/-- The whole command, on files that `read` gives and with times shown as `timing` says. -/
def run (read : String → Option String) (timing : Timing) (args : List String)
    (env : Environment) : Finish :=
  match plan args env with
  | .finish f => f
  | .reduce path options watched counted =>
    match read path with
    | none => unreadable
    | some source =>
      let journal := if watched then Journal.blank else .off
      written options counted timing (runLogged journal source.toList options)

end ReduceCommand

end DotLambda
