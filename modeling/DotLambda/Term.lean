namespace DotLambda

/-!
# Terms

The terms of the calculus.  A variable is known by the identity of its binder, never by its
name, so two binders of one name cannot be confused.

* `Term` — variables, abstractions and applications;
* `Term.same` — structural equality;
* `Term.numbered` — the rendering with identities, for logs;
* `Term.binders`, `Term.greatest` — the identities that occur;
* `Term.reducible` — whether a reduction step applies.

An abstraction carries the parameter it is applied to, so a redex is an abstraction whose
parameter is present.  `Term.absent` stands for a part that is not there: the parameter of
an abstraction that is not a redex, or a hole in a term that was put together by hand.
-/

/-- The identity of a binder or of a free name: a machine word of 64 bits, read as a signed
    number. -/
abbrev Ident := Int

/-- The identity after `id`.  The greatest word is followed by the least one. -/
def Ident.next (id : Ident) : Ident :=
  Int.bmod (id + 1) 0x10000000000000000

/-- Terms of the calculus. -/
inductive Term where
  /-- A part that is not there. -/
  | absent
  /-- A use of the binder `id`. -/
  | var (id : Ident)
  /-- The binder `id` with its scope `body`, applied to `param` if that is present. -/
  | abs (id : Ident) (body param : Term)
  /-- The binder `id` applied to `args` from left to right. -/
  | app (id : Ident) (args : List Term)
deriving Inhabited

namespace Term

/-- Whether there is a term at all. -/
def isPresent : Term → Bool
  | absent => false
  | _ => true

/-! ### Equality -/

mutual

/-- Structural equality. -/
def same : Term → Term → Bool
  | absent, absent => true
  | var i, var j => i == j
  | abs i body param, abs j body' param' => i == j && same body body' && same param param'
  | app i args, app j args' => i == j && sameArgs args args'
  | _, _ => false

/-- Structural equality of argument lists. -/
def sameArgs : List Term → List Term → Bool
  | [], [] => true
  | t :: ts, u :: us => same t u && sameArgs ts us
  | _, _ => false

end

instance : BEq Term := ⟨same⟩

/-! ### Rendering with identities -/

mutual

/-- The term with its identities in decimal: `3(B)` for an abstraction, `3(B).(P)` for a redex
    and `3.(a).(b)` for an application.  A missing part shows as a gap. -/
def numbered : Term → String
  | absent => "%!s(<nil>)"
  | var id => toString id
  | abs id body absent => toString id ++ "(" ++ numbered body ++ ")"
  | abs id body param => toString id ++ "(" ++ numbered body ++ ").(" ++ numbered param ++ ")"
  | app id args => toString id ++ argsNumbered args

/-- The arguments of an application, each after a dot and in parentheses. -/
def argsNumbered : List Term → String
  | [] => ""
  | arg :: args => ".(" ++ numbered arg ++ ")" ++ argsNumbered args

end

/-! ### Identities -/

mutual

/-- The identities of the abstractions in the term: an abstraction before those in its body, and
    these before those in its parameter. -/
def binders : Term → List Ident
  | absent => []
  | var _ => []
  | abs id body param => id :: (binders body ++ binders param)
  | app _ args => argsBinders args

/-- The identities of the abstractions in an argument list. -/
def argsBinders : List Term → List Ident
  | [] => []
  | arg :: args => binders arg ++ argsBinders args

end

mutual

/-- The greatest identity in the term, or `-1` where there is no term. -/
def greatest : Term → Ident
  | absent => -1
  | var id => id
  | abs id body absent => max id (greatest body)
  | abs id body param => max (max id (greatest body)) (greatest param)
  | app id args => argsGreatest id args

/-- The greatest of `bound` and the identities in an argument list. -/
def argsGreatest (bound : Ident) : List Term → Ident
  | [] => bound
  | arg :: args => argsGreatest (max bound (greatest arg)) args

end

/-! ### Redexes -/

mutual

/-- Whether a reduction step applies: the term is a redex, or there is one in its body or in one of
    its arguments. -/
def reducible : Term → Bool
  | absent => false
  | var _ => false
  | abs _ body param => param.isPresent || reducible body
  | app _ args => argsReducible args

/-- Whether a reduction step applies to one of the arguments. -/
def argsReducible : List Term → Bool
  | [] => false
  | arg :: args => reducible arg || argsReducible args

end

/-! ### Supplying arguments -/

/-- Supplies a term with arguments.  They fill the open parameters of the abstractions from the
    outside in; those left over are appended to the application at the bottom, or turn the
    variable there into one. -/
def supply : Term → List Term → Term
  | t, [] => t
  | absent, _ :: _ => absent
  | var id, arg :: args => app id (arg :: args)
  | abs id body absent, arg :: args => abs id (supply body args) arg
  | abs id body param, arg :: args => abs id (supply body (arg :: args)) param
  | app id own, arg :: args => app id (own ++ arg :: args)

end Term

end DotLambda
