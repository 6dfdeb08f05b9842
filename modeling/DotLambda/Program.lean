import DotLambda.Desugar
import DotLambda.Reader

namespace DotLambda

/-!
# Programs

From a source text to a term: desugar, then read.
-/

/-- Why a text is no program. -/
inductive LoadError where
  /-- Its abbreviations are malformed. -/
  | desugaring (e : SyntaxError)
  /-- What is left without them cannot be read. -/
  | reading (e : ReadError)

/-- The wording of a load error. -/
def LoadError.message : LoadError → String
  | desugaring e => e.message
  | reading e => e.message

/-- Desugars and reads a program, and keeps a journal. -/
def loadWith (journal : Journal) (source : List Char) :
    Except LoadError (Term × Names) × Journal :=
  match desugar source with
  | .error e => (.error (.desugaring e), journal)
  | .ok program =>
    let journal := journal.record (.desugared program.definitions program.text)
    let (program, journal) := parseWith journal program.text
    (program.mapError .reading, journal)

/-- Desugars and reads a program: its term, and the name of every identity in it. -/
def load (source : List Char) : Except LoadError (Term × Names) :=
  (loadWith .off source).1

end DotLambda
