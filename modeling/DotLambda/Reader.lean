import DotLambda.Journal
import DotLambda.Scope
import DotLambda.Text.Blank
import DotLambda.Text.Nearest

namespace DotLambda

/-!
# Reading expressions

From text without white space to terms.  Text is a list of characters and a name is a string, so
both are valid Unicode.

An expression is a name, a name with a block (`x(body)`, a binder with its scope), a called
name (`f.a.b`), or a block in parentheses; arguments may follow each block.  Arguments move
inward: those that follow a block wait in a queue until an abstraction inside it takes one as
its parameter, or until the name at the bottom takes all that are left.

* `Reader` — what is known while reading: the scope, the waiting arguments, the journal;
* `Reader.expression`, `Reader.argumentList` — the mutually recursive readers;
* `Reader.program` — a whole program;
* `parse` — from text to a term and the names of its identities.

A reader comes back also from a failure, with all that it has entered in its tables.
-/

/-- The state of reading. -/
structure Reader where
  scope : Scope := {}
  /-- Arguments handed down from the text around, the first to be taken first. -/
  pending : List Term := []
  journal : Journal := .off

/-- What reading gives: a result or the reason why there is none, and the state after it. -/
abbrev Reading (α : Type) := Except ReadError α × Reader

namespace Reader

/-! ### Moves of the state -/

/-- Puts arguments in front of those that wait. -/
def hand (r : Reader) (args : List Term) : Reader :=
  { r with pending := args ++ r.pending }

/-- Takes the first waiting argument, if there is one. -/
def take (r : Reader) : Term × Reader :=
  match r.pending with
  | [] => (.absent, r)
  | arg :: rest => (arg, { r with pending := rest })

/-- Takes all waiting arguments. -/
def takeAll (r : Reader) : List Term × Reader :=
  (r.pending, { r with pending := [] })

/-- The state in which an argument is read: no argument waits from outside. -/
def fresh (r : Reader) : Reader :=
  { r with pending := [] }

/-- Notes which expression is about to be read. -/
def note (r : Reader) (text : List Char) : Reader :=
  { r with journal := r.journal.record (.reading r.scope.depth text (.of text)) }

/-- A failure, the state being what it is. -/
def fail {α : Type} (r : Reader) (fault : Fault) (text : List Char) : Reading α :=
  (.error (.on fault text), r)

/-! ### Cutting texts -/

/-- Cuts the first argument off a text that starts behind a dot: a name with its block, a block,
    or else all up to the next dot. -/
def cutArgument (text : List Char) : Except BlockFault (List Char × List Char) :=
  match Form.of text with
  | .binding =>
    match blockEnd text with
    | .error fault => .error fault
    | .ok n => .ok (text.take (n + 1), text.drop (n + 1))
  | _ => .ok (text.takeWhile fun c => c != '.', text.dropWhile fun c => c != '.')

/-- What is cut off as an argument and what is left are no longer than the text. -/
theorem cutArgument_length {text arg rest : List Char} (h : cutArgument text = .ok (arg, rest)) :
    arg.length ≤ text.length ∧ rest.length ≤ text.length := by
  unfold cutArgument at h
  split at h
  · split at h
    · cases h
    · cases h
      simp only [List.length_take, List.length_drop]
      omega
  · cases h
    exact ⟨(List.takeWhile_sublist _).length_le, (List.dropWhile_sublist _).length_le⟩

/-! ### The readers -/

/-- Reads a name by itself.  It takes all waiting arguments. -/
def bareName (r : Reader) (text : List Char) : Reading Term :=
  match nameFault? text with
  | some fault => r.fail fault text
  | none =>
    let (id, scope) := r.scope.resolve (String.ofList text)
    let (args, r) := { r with scope }.takeAll
    (.ok (if args.isEmpty then .var id else .app id args), r)

mutual

/-- Reads an expression. -/
def expression (text : List Char) (r : Reader) : Reading Term :=
  match text with
  | [] => r.fail .emptyExpression []
  | '(' :: rest =>
    match h : Block.cut ('(' :: rest) with
    | .error fault => r.fail (.block fault) ('(' :: rest)
    | .ok block =>
      have : block.inner.length < rest.length + 1 := Block.length_inner_lt h
      have : block.tail.length < rest.length + 1 := Block.length_tail_lt h
      -- What follows the block is read first: identities are handed out in this order.
      match argumentList block.tail block.tail r with
      | (.error e, r) => (.error e, r)
      | (.ok args, r) => expression block.inner (r.hand args)
  | text =>
    let r := r.note text
    match Form.of text with
    | .bare => r.bareName text
    | .binding => abstraction text r
    | .call => application text r
termination_by 3 * text.length + 2

/-- Reads a name with its block.  The parameter is the first argument behind the block, or the
    first that waits; it is read outside the scope that the block opens. -/
def abstraction (text : List Char) (r : Reader) : Reading Term :=
  let name := text.takeWhile fun c => c != '('
  match nameFault? name with
  | some fault => r.fail fault text
  | none =>
    if r.scope.binds (String.ofList name) then (.error (.rebound (String.ofList name)), r)
    else
      match h : Block.cut text with
      | .error fault => r.fail (.block fault) text
      | .ok block =>
        have := Block.length_inner_lt h
        have := Block.length_tail_lt h
        match argumentList block.tail block.tail r with
        | (.error e, r) => (.error e, r)
        | (.ok args, r) =>
          -- Without an argument of its own the binder takes one that waits, if there is one.
          let (param, r) := match args with
            | [] => r.take
            | param :: rest => (param, r.hand rest)
          let (id, scope) := r.scope.bind (String.ofList name)
          let (body, r) := expression block.inner { r with scope }
          -- The scope is left whether the body could be read or not.
          (body.map (.abs id · param), { r with scope := r.scope.leave })
termination_by 3 * text.length + 1

/-- Reads a called name with its arguments.  Those that wait come after its own. -/
def application (text : List Char) (r : Reader) : Reading Term :=
  let name := text.takeWhile fun c => c != '.'
  match nameFault? name with
  | some fault => r.fail fault text
  | none =>
    have := (List.dropWhile_sublist (l := text) fun c => c != '.').length_le
    let list := text.dropWhile fun c => c != '.'
    match argumentList list list r with
    | (.error e, r) => (.error e, r)
    | (.ok own, r) =>
      -- Only a binder can be called; a free name cannot.
      match r.scope.find? (String.ofList name) with
      | none =>
        let suggestion := suggest (String.ofList name) r.scope.boundNames
        r.fail (.unknownFunction (String.ofList name) suggestion) text
      | some id =>
        let (args, r) := r.takeAll
        (.ok (.app id (own ++ args)), r)
termination_by 3 * text.length + 1

/-- Reads the arguments that make up the rest `text` of the argument list `whole`. -/
def argumentList (whole text : List Char) (r : Reader) : Reading (List Term) :=
  match text with
  | [] => (.ok [], r)
  | '.' :: [] => r.fail .missingArgument whole
  | '.' :: rest =>
    match h : cutArgument rest with
    | .error fault => r.fail (.block fault) rest
    | .ok (arg, after) =>
      have := cutArgument_length h
      -- What waits outside is not for the arguments, and is there again after them.
      let (arg, inside) := expression arg r.fresh
      let r := { inside with pending := r.pending }
      match arg with
      | .error e => (.error e, r)
      | .ok arg =>
        let (args, r) := argumentList whole after r
        (args.map (arg :: ·), r)
  | text => r.fail .missingDot text
termination_by 3 * text.length

end

/-- Reads the arguments that make up a text, each behind a dot. -/
def arguments (text : List Char) (r : Reader) : Reading (List Term) :=
  argumentList text text r

/-! ### Programs -/

/-- Reads a whole program. -/
def program (text : List Char) (r : Reader) : Reading Term :=
  if text.isEmpty then r.fail .emptyProgram [] else expression text r.fresh

end Reader

/-- Reads a program, white space left out, and keeps a journal. -/
def parseWith (journal : Journal) (text : List Char) : Except ReadError (Term × Names) × Journal :=
  let (term, r) := Reader.program (removeBlanks text) { journal }
  (term.map fun t => (t, r.scope.table), r.journal)

/-- Reads a program, white space left out: its term, and the name of every identity in it. -/
def parse (text : List Char) : Except ReadError (Term × Names) :=
  (parseWith .off text).1

end DotLambda
