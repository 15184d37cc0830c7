import PortableImage.Error
import PortableImage.Expr.Linear

/-!
# Bindings

A binding gives values to labels, each label at most once.  The values may themselves be
expressions.

* `Binding` — labels with their values, in the order they were bound.
* `Binding.bind`, `Binding.merge` — one more value, all values of another binding; a label that has
  a value already is an error.
* `Expr.bind` — an expression with its bound labels replaced; `Expr.resolve` — its value, or the
  labels that are left over.
-/

set_option autoImplicit false

namespace PortableImage

/-- Values of labels, in the order they were bound. -/
structure Binding where
  entries : List (String × Expr)
  deriving DecidableEq

namespace Binding

/-- No label has a value. -/
def empty : Binding := ⟨[]⟩

instance : Inhabited Binding := ⟨empty⟩

/-- The value of a label. -/
def get? (b : Binding) (name : String) : Option Expr := b.entries.lookup name

/-- Gives `name` a value, unless it has one. -/
def bind (b : Binding) (name : String) (value : Expr) : Except EncodeError Binding :=
  if (b.get? name).isSome then .error (.duplicateBinding name)
  else .ok ⟨b.entries ++ [(name, value)]⟩

/-- Binds pairs in order, as far as possible: the binding reached, and the first label that had a
value already. -/
def bindUntil (b : Binding) : List (String × Expr) → Binding × Option EncodeError
  | [] => (b, none)
  | (name, value) :: rest =>
    match b.bind name value with
    | .ok b' => b'.bindUntil rest
    | .error e => (b, some e)

/-- Binds pairs in order; all or nothing. -/
def bindAll (b : Binding) (pairs : List (String × Expr)) : Except EncodeError Binding :=
  match b.bindUntil pairs with
  | (b', none) => .ok b'
  | (_, some e) => .error e

/-- All values of both bindings; a label of both is an error. -/
def merge (b other : Binding) : Except EncodeError Binding := b.bindAll other.entries

end Binding

namespace Expr

/-- The expression with the value of each bound label in the label's place. -/
def bind (e : Expr) (b : Binding) : Expr := e.subst b.get?

/-- The constant the expression becomes under the binding, if it becomes one. -/
def constantUnder (e : Expr) (b : Binding) : Option LinkValue := (e.bind b).reduce.constant?

/-- The value of the expression under the binding, or the labels that still have none. -/
def resolve (e : Expr) (b : Binding) : Except EncodeError LinkValue :=
  let reduced := (e.bind b).reduce
  match reduced.constant? with
  | some v => .ok v
  | none => .error (.unresolvedSymbol reduced.labels)

end Expr

end PortableImage
