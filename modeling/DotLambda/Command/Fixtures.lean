import DotLambda.Command.Finish
import DotLambda.FileTree
import DotLambda.Program

namespace DotLambda

/-!
# Commands — fixtures

The command that turns a list of test cases into fixtures: for each case a folder with the
program, what it is expected to lead to, and a test that compares the two.

* `TestCase` — a program and what it is expected to lead to;
* `TestCase.refusal?` — why no fixtures are made for it;
* `FixtureCommand.run` — the whole command, on any kind of files.
-/

/-- A program and what it is expected to lead to. -/
structure TestCase where
  name : String
  input : String
  output : String

namespace TestCase

/-- Why no fixtures are made for a case.  A case that expects a failure is always accepted; any
    other must be a program. -/
def refusal? (c : TestCase) : Option LoadError :=
  if c.output.startsWith "error:" then none
  else
    match load c.input.toList with
    | .error e => some e
    | .ok _ => none

/-- The test that a case is compared by. -/
def test (c : TestCase) : String :=
  "package gentests\n" ++
  "\n" ++
  "import (\n" ++
  "\t_ \"embed\"\n" ++
  "\t\"testing\"\n" ++
  "\n" ++
  "\t\"github.com/styrix560/Blis/cmd/gentests/helper\"\n" ++
  ")\n" ++
  "\n" ++
  "//go:embed input.blis\n" ++
  "var input string\n" ++
  "\n" ++
  "//go:embed output.txt\n" ++
  "var output string\n" ++
  "\n" ++
  "func Test_" ++ c.name ++ "_Reduction(t *testing.T) \x7b\n" ++
  "\thelper.CheckReduction(t, \"" ++ c.name ++ "\", input, output)\n" ++
  "\x7d\n"

/-- The fixtures of a case, each with the name of its file. -/
def fixtures (c : TestCase) : List (String × String) :=
  [("input.blis", trimmed c.input ++ "\n"),
   ("output.txt", trimmed c.output ++ "\n"),
   ("reduction_test.go", c.test)]

end TestCase

namespace FixtureCommand

variable {m : Type → Type} [Monad m]

/-- The file that cases are read from unless another is given. -/
def defaultCases : String := "cmd/gentests/cases.yaml"

/-- The folder that fixtures are written to. -/
def target : String := "cmd/gentests/generated"

/-- Writes files into a folder until one is refused. -/
def writeAll (files : FileAccess m) (folder : String) :
    List (String × String) → m (Except String Unit)
  | [] => pure (.ok ())
  | (name, content) :: rest => do
    match ← files.write (joinPath folder name) content with
    | .error e => pure (.error (name ++ ": " ++ e.message))
    | .ok () => writeAll files folder rest

/-- Writes the fixtures of a case. -/
def writeCase (files : FileAccess m) (c : TestCase) : m (Except String Unit) := do
  let folder := joinPath target c.name
  match ← files.makeFolders folder with
  | .error e => pure (.error e.message)
  | .ok () => writeAll files folder c.fixtures

/-- Makes fixtures for the cases, `made` of which have been made with `so` written about them.
    A case that is no program is reported and passed over; a file that cannot be written ends the
    command. -/
def makeAll (files : FileAccess m) (made : Nat) (so : String) : List TestCase → m Finish
  | [] => pure (.success { out := so ++ "Generated " ++ toString made ++ " tests\n" })
  | c :: rest =>
    match c.refusal? with
    | some e =>
      let complaint := "Error parsing input for " ++ c.name ++ ": " ++ e.message ++ "\n"
      makeAll files made (so ++ complaint) rest
    | none => do
      match ← writeCase files c with
      | .error e =>
        pure (.failure { out := so, err := "Error writing " ++ c.name ++ ": " ++ e ++ "\n" })
      | .ok () => makeAll files (made + 1) so rest

/-- The whole command.  `decode` reads the cases from the content of a case file. -/
def run (files : FileAccess m) (decode : String → Except String (List TestCase))
    (args : List String) : m Finish := do
  let path := args.head?.getD defaultCases
  match ← files.read path with
  | .error e => pure (.failure { err := "Error reading cases: " ++ e.message ++ "\n" })
  | .ok content =>
    match decode content with
    | .error e => pure (.failure { err := "Error decoding " ++ path ++ ": " ++ e ++ "\n" })
    | .ok cases =>
      match ← files.makeFolders target with
      | .error e =>
        pure (.failure { err := "Error creating " ++ target ++ ": " ++ e.message ++ "\n" })
      | .ok () => makeAll files 0 "" cases

end FixtureCommand

end DotLambda
