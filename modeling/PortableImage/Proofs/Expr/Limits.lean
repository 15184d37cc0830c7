import PortableImage.Proofs.Expr.Constant
import PortableImage.Proofs.Expr.Leaves

/-!
# Reducing ends

Reducing goes down an expression, but not only down: the operands of a bitwise operation are reduced
first, and where one of them comes out as zero, what came of the other may be read once more.  This is
no part of the expression any more.  It ends because a normal form is no larger.

## What is here

* `Linear.turns` — how often the loops repeat that write a sum as an expression.
* `Expr.linearWithin`, `Expr.reduceWithin` — reducing with all calls that it makes, nested no deeper than
  a limit, and with no loop longer than another limit.
* `Expr.linearWithin_reduceWithin_eq` — what a depth has to be for the calls to come to an end.
* `Expr.reduceWithin_of_leaves` — **reducing ends, and makes no expression larger**.
-/

set_option autoImplicit false

namespace PortableImage

/-! ## The loops -/

namespace Linear

/-- How often the loops repeat that write a sum as an expression: a turn adds or takes away one
term. -/
def turns (a : Linear) : Nat := a.added.length + a.removed.length

/-- A sum as an expression, if no more turns are needed than the limit. -/
def toExprWithin (limit : Nat) (a : Linear) : Option Expr :=
  if a.turns ≤ limit then some a.toExpr else none

theorem length_le_sum_leaves (ts : List Expr) : ts.length ≤ (ts.map Expr.leaves).sum := by
  induction ts with
  | nil => exact Nat.le_refl 0
  | cons t rest ih =>
    have hpos := t.leaves_pos
    rw [List.length_cons, List.map_cons, List.sum_cons]
    omega

/-- Every turn writes a leaf at least. -/
theorem turns_le_size (a : Linear) : a.turns ≤ a.size := by
  have hadded := length_le_sum_leaves a.added
  have hremoved := length_le_sum_leaves a.removed
  rw [sum_leaves_added] at hadded
  rw [sum_leaves_removed] at hremoved
  rw [turns, size]
  omega

end Linear

namespace Expr

open Linear

/-! ## The calls -/

section Within

variable (limit : Nat)

mutual

/-- Reads an expression as a sum, with calls nested no deeper than `depth`.  The operands of a bitwise
operation are reduced; what is left of an operation with zero is read once more. -/
def linearWithin : (depth : Nat) → Expr → Option Linear
  | 0, _ => none
  | _ + 1, const v => some (.ofConst v)
  | _ + 1, label name => some (.ofTerm (label name))
  | depth + 1, binary .add lhs rhs => do
    return (← linearWithin depth lhs).combine (← linearWithin depth rhs) 1
  | depth + 1, binary .sub lhs rhs => do
    return (← linearWithin depth lhs).combine (← linearWithin depth rhs) (-1)
  | depth + 1, binary .or lhs rhs => do
    let lhs ← reduceWithin depth lhs
    let rhs ← reduceWithin depth rhs
    match lhs.constant?, rhs.constant? with
    | some v, some w => some (.ofConst (v ||| w))
    | some v, none => if v = 0 then linearWithin depth rhs else some (.ofTerm (lhs ||| rhs))
    | none, some w => if w = 0 then linearWithin depth lhs else some (.ofTerm (lhs ||| rhs))
    | none, none => some (.ofTerm (lhs ||| rhs))
  | depth + 1, binary .and lhs rhs => do
    let lhs ← reduceWithin depth lhs
    let rhs ← reduceWithin depth rhs
    match lhs.constant?, rhs.constant? with
    | some v, some w => some (.ofConst (v &&& w))
    | some v, none => some (if v = 0 then .ofConst 0 else .ofTerm (lhs &&& rhs))
    | none, some w => some (if w = 0 then .ofConst 0 else .ofTerm (lhs &&& rhs))
    | none, none => some (.ofTerm (lhs &&& rhs))

/-- Reduces an expression, with calls nested no deeper than `depth` and no loop with more turns than
the limit. -/
def reduceWithin : (depth : Nat) → Expr → Option Expr
  | 0, _ => none
  | depth + 1, e => do (← linearWithin depth e).toExprWithin limit

end

end Within

variable {limit : Nat}

theorem toExprWithin_linear {e : Expr} (h : e.leaves < 2 ^ 127) (hlimit : e.leaves ≤ limit) :
    e.linear.toExprWithin limit = some e.reduce :=
  if_pos ((turns_le_size _).trans ((size_linear_le h).trans hlimit))

/-- The operands of a bitwise operation, once they are reduced: reading one of them again gives the sum
that it was written for. -/
theorem linearWithin_or {depth : Nat} {lhs rhs : Expr}
    (hl : reduceWithin limit depth lhs = some lhs.reduce)
    (hr : reduceWithin limit depth rhs = some rhs.reduce)
    (hl' : linearWithin limit depth lhs.reduce = some lhs.reduce.linear)
    (hr' : linearWithin limit depth rhs.reduce = some rhs.reduce.linear) :
    linearWithin limit (depth + 1) (binary .or lhs rhs) = some (lhs.linear.or rhs.linear) := by
  rw [linear_reduce] at hl' hr'
  rw [linearWithin, hl, hr, Linear.or]
  simp only [Option.bind_eq_bind, Option.bind_some]
  rw [constant?_reduce, constant?_reduce]
  cases lhs.linear.constant? with
  | none =>
    cases rhs.linear.constant? with
    | none => rfl
    | some w =>
      by_cases hw : w = 0
      · simp [hw, hl']
      · exact (if_neg hw).trans (congrArg some (if_neg hw).symm)
  | some v =>
    cases rhs.linear.constant? with
    | none =>
      by_cases hv : v = 0
      · simp [hv, hr']
      · exact (if_neg hv).trans (congrArg some (if_neg hv).symm)
    | some w => rfl

theorem linearWithin_and {depth : Nat} {lhs rhs : Expr}
    (hl : reduceWithin limit depth lhs = some lhs.reduce)
    (hr : reduceWithin limit depth rhs = some rhs.reduce) :
    linearWithin limit (depth + 1) (binary .and lhs rhs) = some (lhs.linear.and rhs.linear) := by
  rw [linearWithin, hl, hr, Linear.and]
  simp only [Option.bind_eq_bind, Option.bind_some]
  rw [constant?_reduce, constant?_reduce]
  cases lhs.linear.constant? <;> cases rhs.linear.constant? <;> rfl

/-- **The calls come to an end**: reading nests them less than twice as deep as there are leaves, and
reducing at most as deep. -/
theorem linearWithin_reduceWithin_eq (depth : Nat) :
    (∀ e : Expr, e.leaves < 2 ^ 127 → e.leaves ≤ limit → 2 * e.leaves ≤ depth + 1 →
      linearWithin limit depth e = some e.linear) ∧
    (∀ e : Expr, e.leaves < 2 ^ 127 → e.leaves ≤ limit → 2 * e.leaves ≤ depth →
      reduceWithin limit depth e = some e.reduce) := by
  induction depth with
  | zero =>
    -- every expression has a leaf, so it takes more than one level
    have hdeep : ∀ e : Expr, ¬ 2 * e.leaves ≤ 1 := fun e => by
      have hpos := e.leaves_pos
      omega
    exact ⟨fun e _ _ h => absurd h (hdeep e),
      fun e _ _ h => absurd (h.trans (Nat.zero_le 1)) (hdeep e)⟩
  | succ depth ih =>
    obtain ⟨hread, hreduce⟩ := ih
    constructor
    · intro e hsmall hlimit hdepth
      cases e with
      | const v => rfl
      | label l => rfl
      | binary op lhs rhs =>
        rw [leaves] at hsmall hlimit hdepth
        have hlpos := lhs.leaves_pos
        have hrpos := rhs.leaves_pos
        have hl := hread lhs (by omega) (by omega) (by omega)
        have hr := hread rhs (by omega) (by omega) (by omega)
        have hl' := hreduce lhs (by omega) (by omega) (by omega)
        have hr' := hreduce rhs (by omega) (by omega) (by omega)
        -- what is read again is no larger than the operand that it came of
        have hlle := leaves_reduce_le (e := lhs) (by omega)
        have hrle := leaves_reduce_le (e := rhs) (by omega)
        have hlagain := hread lhs.reduce (by omega) (by omega) (by omega)
        have hragain := hread rhs.reduce (by omega) (by omega) (by omega)
        cases op with
        | add => simp [linearWithin, hl, hr, linear]
        | sub => simp [linearWithin, hl, hr, linear]
        | or => exact linearWithin_or hl' hr' hlagain hragain
        | and => exact linearWithin_and hl' hr'
    · intro e hsmall hlimit hdepth
      simp [reduceWithin, hread e hsmall hlimit (by omega), toExprWithin_linear hsmall hlimit]

/-- **Reducing ends, and makes no expression larger.**  For an expression of fewer than `2 ^ 127`
leaves, calls that are nested twice as deep as it has leaves are enough, also those that read again
what was reduced before; no loop among all these calls takes more turns than the expression has
leaves; what comes out is the normal form, and has no more leaves than the expression. -/
theorem reduceWithin_of_leaves {e : Expr} (h : e.leaves < 2 ^ 127) :
    (∀ depth limit, 2 * e.leaves ≤ depth → e.leaves ≤ limit →
      linearWithin limit depth e = some e.linear ∧ reduceWithin limit depth e = some e.reduce) ∧
    e.linear.turns ≤ e.leaves ∧
    e.reduce.leaves ≤ e.leaves := by
  refine ⟨fun depth limit hdepth hlimit => ⟨?_, ?_⟩, ?_, leaves_reduce_le h⟩
  · exact (linearWithin_reduceWithin_eq depth).1 e h hlimit (by omega)
  · exact (linearWithin_reduceWithin_eq depth).2 e h hlimit hdepth
  · exact (turns_le_size _).trans (size_linear_le h)

/-- A difference that is read twice, and of which only what is taken away is left. -/
theorem reduceWithin_of_leaves_readAgain :
    ((const 0 ||| (label "a" - label "b")) - label "a").leaves = 4 ∧
    reduceWithin 4 8 ((const 0 ||| (label "a" - label "b")) - label "a") =
      some (const 0 - label "b") := by
  have hwithin := (reduceWithin_of_leaves
    (e := (const 0 ||| (label "a" - label "b")) - label "a") (by decide)).1 8 4 (by decide) (by decide)
  refine ⟨by decide, hwithin.2.trans ?_⟩
  decide +kernel

end Expr

end PortableImage
