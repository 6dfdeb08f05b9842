import DotLambda.Command.Finish
import DotLambda.Session
import DotLambda.Settings
import DotLambda.Text.Lines
import DotLambda.Text.Utf8

namespace DotLambda

/-!
# Commands — an interactive session

The command that reads entries line by line and answers them.  An entry goes on over several
lines while a parenthesis is open.  Entries are kept in a history across sessions.

* `History` — entries, the oldest first;
* `Interactive` — the state between two lines;
* `Interactive.feed` — takes one more line and answers;
* `Interactive.run` — the whole command on a given input.
-/

/-- The bytes that are read at a time, from the input and from a history file. -/
def lineBuffer : Nat := 4096

/-! ### History -/

/-- Entries, the oldest first. -/
abbrev History := List String

namespace History

/-- The number of entries that are kept. -/
def limit : Nat := 1000

/-- The latest entries, as many as are kept. -/
def latest (h : History) : History :=
  h.drop (h.length - limit)

/-- The entries of a history file.  Reading ends at a line that does not fit the
    buffer. -/
def ofFile (text : String) : History :=
  let lines := (linesOf text.toList).takeWhile fun line => byteLength line.raw < lineBuffer
  latest (lines.map fun line => String.ofList line.content)

/-- Adds an entry, unless it repeats the one before. -/
def add (h : History) (entry : String) : History :=
  if h.getLast? = some entry then h else latest (h ++ [entry])

/-- The history as a file, one entry on each line. -/
def toFile (h : History) : String :=
  String.join (h.map (· ++ "\n"))

end History

/-! ### State -/

/-- The state of an interactive session between two lines. -/
structure Interactive where
  session : Session
  /-- Whether a journal is shown. -/
  watched : Bool
  history : History
  /-- What has been read of an entry that is not complete. -/
  entry : String := ""
  /-- Whether the session was left by a command. -/
  left : Bool := false

namespace Interactive

/-- What is shown at the start. -/
def banner : String :=
  "Blis - Lambda Calculus Reducer. Type :help for help.\n"

/-- What is shown before a line is read. -/
def prompt (i : Interactive) : String :=
  if i.entry.isEmpty then "blis> " else "....> "

/-- The journal that is kept of an entry. -/
def journal (i : Interactive) : Journal :=
  if i.watched then .blank else .off

/-- What is shown of a failure. -/
def complaint (journal : Journal) (message : String) : Transcript :=
  { err := journal.log ++ "Error: " ++ message ++ "\n" }

/-- Answers an entry that is not empty: a command, definitions, or an expression. -/
def answer (i : Interactive) (entry : String) : Interactive × Transcript :=
  if entry.startsWith ":" then
    let done := i.session.perform entry
    ({ i with session := done.session, left := done.quit }, { out := done.shown })
  else if opensDefinition entry.toList then
    match i.session.defineLogged i.journal entry with
    | ((.error e, session), journal) => ({ i with session }, complaint journal e.message)
    | ((.ok names, session), journal) =>
      let out := "defined " ++ ", ".intercalate names ++ "\n"
      ({ i with session }, { out, err := journal.log })
  else
    match i.session.evalLogged i.journal entry with
    | (.error e, journal) => (i, complaint journal e.message)
    | (.ok shown, journal) => (i, { out := shown ++ "\n", err := journal.log })

/-- Takes one more line.  A complete entry goes into the history, on one line, and is answered;
    an empty one is passed over. -/
def feed (i : Interactive) (line : String) : Interactive × Transcript :=
  let text := if i.entry.isEmpty then line else i.entry ++ "\n" ++ line
  if awaitsMore text.toList then ({ i with entry := text }, {})
  else
    let i := { i with entry := "" }
    let entry := trimmed text
    if entry.isEmpty then (i, {})
    else
      -- An entry over several lines is one line of the history.
      let flat := String.ofList (entry.toList.map fun c => if c = '\n' then ' ' else c)
      { i with history := i.history.add flat }.answer entry

/-- The session that an environment asks for, or why there is none. -/
def start (env : Environment) (history : History) : Except Finish Interactive :=
  match Options.ofEnvironment env with
  | (_, some e) => .error (.failure { err := "Configuration error: " ++ e.message ++ "\n" })
  | (options, none) =>
    .ok { session := { options }, watched := env.isSet "BLIS_DEBUG", history }

/-- Takes lines until they end or the session is left, showing a prompt before each.  The end of
    the lines is answered by a line end. -/
def converse (i : Interactive) (so : Transcript) : List String → Interactive × Transcript
  | [] => (i, so.andThen { out := i.prompt ++ "\n" })
  | line :: rest =>
    let (next, answer) := i.feed line
    let so := (so.andThen { out := i.prompt }).andThen answer
    if next.left then (next, so) else next.converse so rest

/-- The whole command on a given input and the history file before it, with that file after it. -/
def run (env : Environment) (historyFile input : String) : Finish × String :=
  match start env (.ofFile historyFile) with
  | .error finish => (finish, historyFile)
  | .ok i =>
    let lines := (linesOf input.toList).flatMap (·.readings lineBuffer)
    let (i, so) := i.converse { out := banner } (lines.map String.ofList)
    (.success so, i.history.toFile)

end Interactive

end DotLambda
