import DotLambda.Command.Fixtures
import DotLambda.Text.Blank
import DotLambda.Text.Lines

namespace DotLambda

/-!
# Commands — case files

A case file lists test cases in indented layout:

    cases:
      - name: identity
        input: a(a).5
        output: "5"
      - name: successor
        input: |
          let zero f,x(x);
          zero
        output: f(x(x))

Lines that are empty or start with `#` are passed over.  A value is plain, or between quotes, or
a block of deeper lines behind `|`, whose line ends are kept.
-/

namespace CaseFile

/-- A line with its depth. -/
structure Row where
  /-- The number of blanks in front. -/
  depth : Nat
  /-- What stands behind them. -/
  text : List Char

/-- The row that a line makes. -/
def Row.ofLine (line : List Char) : Row :=
  let text := line.dropWhile (· == ' ')
  ⟨line.length - text.length, text⟩

/-- Whether there is nothing on a row. -/
def Row.isEmpty (r : Row) : Bool :=
  (trim r.text).isEmpty

/-- Whether a row is passed over between values. -/
def Row.isSkipped (r : Row) : Bool :=
  r.isEmpty || r.text.head? == some '#'

/-- Whether a row belongs to a block of rows deeper than `depth`. -/
def Row.isWithin (depth : Nat) (r : Row) : Bool :=
  r.isEmpty || depth < r.depth

/-- A key with its value.  `opens` says whether it opens a new case. -/
structure Entry where
  opens : Bool
  key : List Char
  value : List Char

/-! ### Values -/

/-- What a text between double quotes stands for. -/
def unescape : List Char → List Char
  | [] => []
  | '"' :: _ => []
  | '\\' :: c :: rest =>
    (match c with
      | 'n' => '\n'
      | 't' => '\t'
      | 'r' => '\r'
      | '0' => '\x00'
      | c => c) :: unescape rest
  | c :: rest => c :: unescape rest

/-- What a text between single quotes stands for: a quote is written twice. -/
def unquote : List Char → List Char
  | [] => []
  | '\'' :: '\'' :: rest => '\'' :: unquote rest
  | '\'' :: _ => []
  | c :: rest => c :: unquote rest

/-- A plain value, which ends before a comment. -/
def plain : List Char → List Char
  | [] => []
  | ' ' :: '#' :: _ => []
  | c :: rest => c :: plain rest

/-- The value that is written on the row of its key. -/
def scalar (text : List Char) : List Char :=
  match text with
  | '"' :: rest => unescape rest
  | '\'' :: rest => unquote rest
  | text => trim (plain text)

/-- The value that a block of rows makes: the rows without the depth of the first one, and one
    line end behind the last that is not empty. -/
def literal (rows : List Row) : List Char :=
  let rows := (rows.reverse.dropWhile Row.isEmpty).reverse
  match rows.find? fun row => !row.isEmpty with
  | none => []
  | some first =>
    rows.flatMap fun row => List.replicate (row.depth - first.depth) ' ' ++ row.text ++ ['\n']

/-! ### Entries and cases -/

/-- The entries on rows. -/
def entriesOf (rows : List Row) : Except String (List Entry) :=
  match rows with
  | [] => .ok []
  | row :: rest =>
    if row.isSkipped then entriesOf rest
    else
      let (opens, depth, text) := match row.text with
        | '-' :: ' ' :: text => (true, row.depth + 2, text)
        | text => (false, row.depth, text)
      match text.dropWhile fun c => c != ':' with
      | [] => .error ("expected a key: " ++ String.ofList text)
      | _ :: value =>
        let key := trim (text.takeWhile fun c => c != ':')
        let value := trim value
        if value = ['|'] then
          have := (List.dropWhile_sublist (l := rest) (Row.isWithin depth)).length_le
          let block := literal (rest.takeWhile (Row.isWithin depth))
          (entriesOf (rest.dropWhile (Row.isWithin depth))).map (⟨opens, key, block⟩ :: ·)
        else (entriesOf rest).map (⟨opens, key, scalar value⟩ :: ·)
termination_by rows.length

/-- The case with one more entry.  Keys without a meaning are passed over. -/
def extend (c : TestCase) (e : Entry) : TestCase :=
  let value := String.ofList e.value
  match String.ofList e.key with
  | "name" => { c with name := value }
  | "input" => { c with input := value }
  | "output" => { c with output := value }
  | _ => c

/-- The cases that entries make, the last one first; `cases` have been made before. -/
def casesOf (cases : List TestCase) (e : Entry) : List TestCase :=
  match e.opens, cases with
  | false, c :: rest => extend c e :: rest
  | false, [] => []
  | true, cases => extend ⟨"", "", ""⟩ e :: cases

/-- Reads the cases of a case file. -/
def decode (content : String) : Except String (List TestCase) :=
  let rows := (linesOf content.toList).map fun line => Row.ofLine line.content
  (entriesOf rows).map fun entries => (entries.foldl casesOf []).reverse

end CaseFile

end DotLambda
