import DotLambda.Names

namespace DotLambda

/-!
# Scope

The identities handed out while a program is read.  Every binder gets an identity of its own, a
free name gets one at its first use, and the table of names only grows.

* `Scope.bind` and `Scope.leave` — enter and leave the scope of a binder;
* `Scope.find?` — the innermost visible binder of a name;
* `Scope.freeName` — the identity of a free name.
-/

/-- Names met so far, and which of their identities are visible at the current place. -/
structure Scope where
  /-- The name of every identity handed out. -/
  table : Names := #[]
  /-- The visible binders, the innermost first. -/
  stack : List Nat := []
  /-- The free names met so far with their identities. -/
  unbound : List (String × Nat) := []

namespace Scope

/-- The name that the table has for `id`. -/
def nameOf (s : Scope) (id : Nat) : String :=
  s.table[id]?.getD ""

/-- Hands out the next identity, for `name`. -/
def allot (s : Scope) (name : String) : Nat × Scope :=
  (s.table.size, { s with table := s.table.push name })

/-- Enters the scope of a new binder called `name`. -/
def bind (s : Scope) (name : String) : Nat × Scope :=
  let (id, s) := s.allot name
  (id, { s with stack := id :: s.stack })

/-- Leaves the scope of the innermost binder.  Its identity keeps its name. -/
def leave (s : Scope) : Scope :=
  { s with stack := s.stack.tail }

/-- The innermost visible binder called `name`. -/
def find? (s : Scope) (name : String) : Option Nat :=
  s.stack.find? fun id => s.nameOf id == name

/-- Whether a binder called `name` is visible. -/
def binds (s : Scope) (name : String) : Bool :=
  s.stack.any fun id => s.nameOf id == name

/-- The identity of the free name `name`, handed out at its first use. -/
def freeName (s : Scope) (name : String) : Nat × Scope :=
  match s.unbound.lookup name with
  | some id => (id, s)
  | none =>
    let (id, s) := s.allot name
    (id, { s with unbound := (name, id) :: s.unbound })

/-- The identity that `name` stands for: that of the innermost binder of this name, or that of
    the free name. -/
def resolve (s : Scope) (name : String) : Nat × Scope :=
  match s.find? name with
  | some id => (id, s)
  | none => s.freeName name

/-- The names of the visible binders, the innermost first. -/
def boundNames (s : Scope) : List String :=
  s.stack.map s.nameOf

/-- The number of visible binders. -/
def depth (s : Scope) : Nat :=
  s.stack.length

end Scope

end DotLambda
