import DotLambda.Reduction.Reducer
import Std.Data.TreeMap

namespace DotLambda

/-!
# Reduction — substitution

Replacing a binder by a value.  Where the value is used more than once, every use after the
first gets a copy whose binders have identities of their own, so that no binder occurs twice
in a term.

* `Term.copy`, `Reducer.duplicate` — a copy with fresh binders;
* `Splice` — hands out a value, copied from its second use on;
* `Term.substitute` — replaces a binder by a spliced value.
-/

/-! ### Copies -/

/-- The state of copying: what the binders copied so far are called now, and the reducer that
    hands out identities. -/
structure Copying where
  renamed : Std.TreeMap Ident Ident := ∅
  reducer : Reducer

namespace Copying

/-- What `id` is called in the copy. -/
def rename (c : Copying) (id : Ident) : Ident :=
  c.renamed.getD id id

/-- Gives a binder a new identity. -/
def renew (c : Copying) (id : Ident) : Ident × Copying :=
  match c with
  | ⟨renamed, reducer⟩ =>
    let (new, reducer) := reducer.allot id
    (new, ⟨renamed.insert id new, reducer⟩)

end Copying

namespace Term

mutual

/-- Copies a term, giving every abstraction in it a new identity.  The parameter of an
    abstraction is copied before the abstraction gets its own. -/
def copy : Term → Copying → Term × Copying
  | absent, c => (absent, c)
  | var id, c => (var (c.rename id), c)
  | abs id body param, c =>
    let (param, c) := copy param c
    let (new, c) := c.renew id
    let (body, c) := copy body c
    (abs new body param, c)
  | app id args, c =>
    let head := c.rename id
    let (args, c) := copyEach args c
    (app head args, c)

/-- Copies arguments from left to right. -/
def copyEach : List Term → Copying → List Term × Copying
  | [], c => ([], c)
  | arg :: args, c =>
    let (arg, c) := copy arg c
    let (args, c) := copyEach args c
    (arg :: args, c)

end

end Term

/-- A copy of `t` whose binders are new.  Identities bound outside `t` stay as they are. -/
def Reducer.duplicate (r : Reducer) (t : Term) : Term × Reducer :=
  let (t, c) := t.copy { reducer := r }
  (t, c.reducer)

/-! ### Splicing -/

/-- The state of a substitution: the value to put in, whether it has been used already, and the
    reducer that counts uses and hands out identities. -/
structure Splice where
  value : Term
  used : Bool := false
  reducer : Reducer

namespace Splice

/-- Counts the application of a rule. -/
def count (s : Splice) (rule : Rule) (binder : Ident) : Splice :=
  match s with
  | ⟨value, used, reducer⟩ => ⟨value, used, reducer.count rule binder⟩

/-- The value at its first use, and a copy of it with fresh binders at every later one. -/
def take (s : Splice) : Term × Splice :=
  match s with
  | ⟨value, false, reducer⟩ => (value, ⟨value, true, reducer⟩)
  | ⟨value, true, reducer⟩ =>
    let (copied, reducer) := reducer.duplicate value
    (copied, ⟨value, true, reducer⟩)

end Splice

namespace Term

mutual

/-- Replaces the binder `id` by the spliced value.  The parameter of an abstraction comes before
    its body, and the head of an application before its arguments.  A body that binds `id` anew
    is left as it is. -/
def substitute (id : Ident) : Term → Splice → Term × Splice
  | absent, s => (absent, s)
  | var i, s => if i = id then (s.count .substituteVar id).take else (var i, s)
  | abs i body param, s =>
    let (param, s) := substitute id param s
    if i = id then (abs i body param, s)
    else
      let (body, s) := substitute id body s
      (abs i body param, s)
  | app i args, s =>
    if i = id then
      -- The head takes its value before the arguments take theirs.
      let (value, s) := (s.count .substituteApp id).take
      let (args, s) := substituteEach id args s
      (value.supply args, s)
    else
      let (args, s) := substituteEach id args s
      (app i args, s)

/-- Replaces the binder `id` in arguments from left to right. -/
def substituteEach (id : Ident) : List Term → Splice → List Term × Splice
  | [], s => ([], s)
  | arg :: args, s =>
    let (arg, s) := substitute id arg s
    let (args, s) := substituteEach id args s
    (arg :: args, s)

end

end Term

end DotLambda
