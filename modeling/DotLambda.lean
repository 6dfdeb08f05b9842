import DotLambda.Expectation
import DotLambda.Main
import DotLambda.Proofs.Lambda.Beta
import DotLambda.Proofs.Term.Identities
import DotLambda.Text.Folding
import DotLambda.Proofs.Term.Meaning
import DotLambda.Proofs.Reduction.Copy
import DotLambda.Proofs.Reduction.Substitution
import DotLambda.Proofs.Reduction.Steps
import DotLambda.Proofs.Reduction.Reducts
import DotLambda.Proofs.Reduction.Nesting
import DotLambda.Proofs.Reading.Scopes
import DotLambda.Proofs.Reading.Trees
import DotLambda.Proofs.Reduction.Scoping
import DotLambda.Proofs.Reading.Meaning
import DotLambda.Proofs.Reading.Grammar
import DotLambda.Proofs.Reading.Resolution
import DotLambda.Proofs.Desugaring.Parameters
import DotLambda.Proofs.Desugaring.Definitions
import DotLambda.Proofs.Reduction.Names
import DotLambda.Proofs.Reduction.Tidy
import DotLambda.Proofs.Run.Budgets
import DotLambda.Proofs.Reduction.Drawn
import DotLambda.Proofs.Reduction.Unseen
import DotLambda.Proofs.Reduction.Resuming
import DotLambda.Proofs.Desugaring.Sources
import DotLambda.Proofs.Session.Programs
import DotLambda.Proofs.Run.Names
import DotLambda.Proofs.Term.Renaming
import DotLambda.Proofs.Reduction.Likeness
import DotLambda.Proofs.Reduction.Independence
import DotLambda.Proofs.Reading.Equations
import DotLambda.Proofs.Reading.Supplying
import DotLambda.Proofs.Desugaring.Canonical
import DotLambda.Proofs.Offsets.Desugaring
import DotLambda.Proofs.Offsets.Reading
import DotLambda.Proofs.Reduction.Contexts
import DotLambda.Proofs.Reduction.Statistics
import DotLambda.Proofs.Term.Layouts
import DotLambda.Proofs.Reading.Printed
import DotLambda.Proofs.Reduction.Duplicates
import DotLambda.Proofs.Reduction.Applications
import DotLambda.Proofs.Reduction.Tracing
import DotLambda.Proofs.Session.Remembered
import DotLambda.Proofs.Session.Complete
import DotLambda.Proofs.Session.Validated
import DotLambda.Proofs.Reading.Verdicts
import DotLambda.Proofs.Reading.Rereading
import DotLambda.Proofs.Reading.Spelling
import DotLambda.Proofs.Reading.Respelling
import DotLambda.Proofs.Command.Fixtures
import DotLambda.Proofs.Reading.Calls
import DotLambda.Proofs.Term.Numbered
import DotLambda.Proofs.Offsets.Matching
