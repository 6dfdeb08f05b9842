import DotLambda.Run

namespace DotLambda

/-!
# Sessions

A session remembers definitions and runs expressions underneath them.

* `Session.define` — checks the definitions of a line and remembers them;
* `Session.eval` — runs an expression underneath the definitions;
* `Session.completions` — completes the last word of a line;
* `Session.perform` — the commands of an interactive session.

A definition is remembered only if it can be read underneath those before it, so that a session
cannot be spoilt by a bad one.
-/

/-- The definitions so far, and how expressions are run. -/
structure Session where
  definitions : List Definition := []
  options : Options := {}

/-- Why definitions are not accepted. -/
inductive DefineError where
  /-- They are no program with what is defined already. -/
  | load (e : LoadError)
  /-- The line has no definition. -/
  | noDefinition (line : String)
  /-- Something follows the definitions. -/
  | trailing (text : String)

/-- The wording of a refusal. -/
def DefineError.message : DefineError → String
  | load e => e.message
  | noDefinition line => "not a definition: " ++ line
  | trailing text => "unexpected text after definition: " ++ text

/-- Enters a definition: in place of one of the same name, or else at the end. -/
def Definition.enter (d : Definition) : List Definition → List Definition
  | [] => [d]
  | old :: rest => if old.name = d.name then d :: rest else old :: d.enter rest

/-- The program that runs `expression` underneath `definitions`. -/
def sourceUnder (definitions : List Definition) (expression : String) : String :=
  "\n".intercalate (definitions.map Definition.source ++ [expression])

namespace Session

/-- The program that runs `expression` in the session. -/
def programFor (s : Session) (expression : String) : String :=
  sourceUnder s.definitions expression

/-- Checks the definitions of a line and remembers them; the names that they define, and a journal
    of the check.  The check reads the name defined last underneath all definitions. -/
def defineLogged (journal : Journal) (s : Session) (line : String) :
    (Except DefineError (List String) × Session) × Journal :=
  match peelDefinitions line.toList with
  | .error e => ((.error (.load (.desugaring e)), s), journal)
  | .ok (definitions, rest) =>
    match definitions.getLast? with
    | none => ((.error (.noDefinition (trimmed line)), s), journal)
    | some last =>
      if trim rest ≠ [] then
        ((.error (.trailing (String.ofList (trim rest))), s), journal)
      else
        -- Nothing is remembered unless all definitions together can be read.
        let all := definitions.foldl (fun all d => d.enter all) s.definitions
        match loadWith journal (sourceUnder all last.name).toList with
        | (.error e, journal) => ((.error (.load e), s), journal)
        | (.ok _, journal) =>
          ((.ok (definitions.map Definition.name), { s with definitions := all }), journal)

/-- Checks the definitions of a line and remembers them. -/
def define (s : Session) (line : String) : Except DefineError (List String) × Session :=
  (defineLogged .off s line).1

/-- Runs an expression and shows its normal form, with a journal. -/
def evalLogged (journal : Journal) (s : Session) (expression : String) :
    Except RunError String × Journal :=
  let (result, journal) := runLogged journal (s.programFor expression).toList s.options
  (result.map (·.display s.options.overLines), journal)

/-- Runs an expression and shows its normal form. -/
def eval (s : Session) (expression : String) : Except RunError String :=
  (evalLogged .off s expression).1

/-- The names defined so far. -/
def names (s : Session) : List String :=
  s.definitions.map Definition.name

/-- The definitions as a program text, one on each line. -/
def showDefinitions (s : Session) : String :=
  String.join (s.definitions.map fun d => d.source ++ "\n")

/-- Forgets all definitions. -/
def reset (s : Session) : Session :=
  { s with definitions := [] }

/-! ### Completion -/

/-- The characters that end a word. -/
def endsWord (c : Char) : Bool :=
  "().,; \t".toList.contains c

/-- The lines that complete the last word of a line to a name that is defined.  There is nothing
    to complete behind the end of a word. -/
def completions (s : Session) (line : String) : List String :=
  let reversed := line.toList.reverse
  let word := (reversed.takeWhile fun c => !endsWord c).reverse
  let lead := (reversed.dropWhile fun c => !endsWord c).reverse
  if word.isEmpty then []
  else
    (s.names.filter fun name => word.isPrefixOf name.toList).map fun name =>
      String.ofList lead ++ name

/-! ### Commands -/

/-- What the help command shows. -/
def help : String :=
  "Enter an expression to reduce it, or a definition\n" ++
  "\n" ++
  "    let name body;\n" ++
  "\n" ++
  "to use name in every later expression.\n" ++
  "\n" ++
  "Commands:\n" ++
  "    :defs    list the definitions\n" ++
  "    :reset   forget all definitions\n" ++
  "    :indent  toggle multi-line output\n" ++
  "    :help    show this message\n" ++
  "    :quit    leave (Ctrl+D works too)\n"

/-- What a command leads to. -/
structure Performed where
  session : Session
  /-- Whether the session is to end. -/
  quit : Bool
  /-- What is shown. -/
  shown : String

/-- Carries out a command, which may be given in any case. -/
def perform (s : Session) (input : String) : Performed :=
  match String.ofList (lower input.toList) with
  | ":quit" => ⟨s, true, ""⟩
  | ":q" => ⟨s, true, ""⟩
  | ":help" => ⟨s, false, help⟩
  | ":defs" => ⟨s, false, if s.definitions.isEmpty then "no definitions\n" else s.showDefinitions⟩
  | ":reset" => ⟨s.reset, false, "definitions cleared\n"⟩
  | ":indent" =>
    let overLines := !s.options.overLines
    ⟨{ s with options := { s.options with overLines } }, false,
      "indented output: " ++ (if overLines then "true" else "false") ++ "\n"⟩
  | _ => ⟨s, false, "unknown command " ++ input ++ ". Type :help for help.\n"⟩

end Session

/-! ### Lines -/

/-- Whether a line is to be taken as definitions: its first word is the keyword. -/
def opensDefinition (line : List Char) : Bool :=
  (words line).head? == some "let".toList

/-- Whether more parentheses are opened than closed, so that more text is to come. -/
def awaitsMore (text : List Char) : Bool :=
  text.count ')' < text.count '('

end DotLambda
