import PortableImage.Proofs.Expr.Net

/-!
# The normal form is no larger

The normal form of an expression has at most as many leaves as the expression: what cancels goes, what
is computed becomes one leaf, and the zero that stands in front where terms are only taken away is
paid for by what these were taken away from.

## What is here

* `Linear.gained`, `Linear.lost` — the leaves of the terms that a sum adds, and of those that it
  takes away.
* `Linear.size` — the leaves of a sum as an expression.
* `Linear.Joins` — what becomes of these numbers when terms are added to a sum; `joins_addTerm` is
  about one term and `joins_combine` about all terms of another sum.
* `Expr.leaves_reduce_le` — **the normal form is no larger**.
* `Expr.leaves_reduce_doubled` — it may be larger from `2 ^ 127` leaves on, where the coefficient of
  a term that is added so often is negative.
-/

set_option autoImplicit false

namespace PortableImage

theorem Expr.leaves_pos (e : Expr) : 0 < e.leaves := by
  induction e with
  | const | label => exact Nat.one_pos
  | binary op lhs rhs ihl ihr => exact Nat.add_pos_left ihl _

namespace Linear

/-! ## The leaves of a sum -/

/-- The leaves of the terms that are added. -/
def gained (ts : List (Expr × LinkValue)) : Nat :=
  (ts.map fun t => t.2.toInt.toNat * t.1.leaves).sum

/-- The leaves of the terms that are taken away. -/
def lost (ts : List (Expr × LinkValue)) : Nat :=
  (ts.map fun t => (-t.2.toInt).toNat * t.1.leaves).sum

@[simp]
theorem gained_cons (t : Expr) (c : LinkValue) (ts : List (Expr × LinkValue)) :
    gained ((t, c) :: ts) = c.toInt.toNat * t.leaves + gained ts := List.sum_cons

@[simp]
theorem lost_cons (t : Expr) (c : LinkValue) (ts : List (Expr × LinkValue)) :
    lost ((t, c) :: ts) = (-c.toInt).toNat * t.leaves + lost ts := List.sum_cons

/-- The leaves of a sum as an expression: those of its terms, and one for the constant where that is
not zero or no term stands in front. -/
def size (a : Linear) : Nat :=
  gained a.terms + lost a.terms + if gained a.terms = 0 ∨ a.constant ≠ 0 then 1 else 0

theorem leaves_foldl (op : Op) (ts : List Expr) (e : Expr) :
    (ts.foldl (Expr.binary op) e).leaves = e.leaves + (ts.map Expr.leaves).sum := by
  induction ts generalizing e with
  | nil => simp
  | cons t rest ih => simp [ih, Expr.leaves, Nat.add_assoc]

/-- Each term as often as a function of its coefficient says. -/
theorem sum_leaves_flatMap (n : LinkValue → Nat) (ts : List (Expr × LinkValue)) :
    ((ts.flatMap fun t => List.replicate (n t.2) t.1).map Expr.leaves).sum =
      (ts.map fun t => n t.2 * t.1.leaves).sum := by
  induction ts with
  | nil => rfl
  | cons t rest ih => simp [ih]

theorem sum_leaves_added (a : Linear) : (a.added.map Expr.leaves).sum = gained a.terms :=
  sum_leaves_flatMap (·.toInt.toNat) a.terms

theorem sum_leaves_removed (a : Linear) : (a.removed.map Expr.leaves).sum = lost a.terms :=
  sum_leaves_flatMap (fun c => (-c.toInt).toNat) a.terms

theorem leaves_toExprAdded (a : Linear) :
    a.toExprAdded.leaves =
      gained a.terms + if gained a.terms = 0 ∨ a.constant ≠ 0 then 1 else 0 := by
  rw [← sum_leaves_added, toExprAdded]
  split
  · next hnone => simp [hnone, Expr.leaves]
  · next t ts hsome =>
    have hpos : ((t :: ts).map Expr.leaves).sum ≠ 0 := by
      rw [List.map_cons, List.sum_cons]
      exact Nat.ne_of_gt (Nat.add_pos_left t.leaves_pos _)
    have hsum : (ts.foldl (· + ·) t).leaves = ((t :: ts).map Expr.leaves).sum :=
      leaves_foldl .add ts t
    rw [hsome]
    by_cases hz : a.constant = 0
    · rw [if_pos hz, if_neg (not_or.2 ⟨hpos, not_not.2 hz⟩), hsum, Nat.add_zero]
    · rw [if_neg hz, if_pos (.inr hz), ← hsum]
      rfl

/-- The loops that write a sum as an expression write as many leaves as its size says. -/
theorem leaves_toExpr (a : Linear) : a.toExpr.leaves = a.size := by
  have hremoved := leaves_foldl .sub a.removed a.toExprAdded
  rw [sum_leaves_removed, leaves_toExprAdded] at hremoved
  rw [toExpr, size]
  exact hremoved.trans (by omega)

theorem size_pos (a : Linear) : 0 < a.size := a.leaves_toExpr ▸ a.toExpr.leaves_pos

theorem size_ofConst (v : LinkValue) : (ofConst v).size = 1 := by
  simp [size, ofConst, gained, lost]

theorem size_ofTerm (t : Expr) : (ofTerm t).size = t.leaves := by
  have hpos := t.leaves_pos
  simp [size, ofTerm, gained, lost]
  omega

/-! ## Terms together -/

/-- Coefficients add up as numbers while they are small. -/
theorem toInt_add_of_lt {c d : LinkValue} (h : c.toInt.natAbs + d.toInt.natAbs < 2 ^ 127) :
    (c + d).toInt = c.toInt + d.toInt := by
  rw [BitVec.toInt_add]
  exact Int.bmod_eq_of_le (by omega) (by omega)

/-- The terms `us` come of `ts` and of terms with `plus` leaves to add and `minus` to take away.
Leaves can cancel, but then as many go on either side. -/
structure Joins (plus minus : Nat) (ts us : List (Expr × LinkValue)) : Prop where
  gained_le : gained us ≤ gained ts + plus
  lost_le : lost us ≤ lost ts + minus
  net : gained us + (lost ts + minus) = lost us + (gained ts + plus)

theorem Joins.trans {plus minus plus' minus' : Nat} {ts us vs : List (Expr × LinkValue)}
    (htu : Joins plus minus ts us) (huv : Joins plus' minus' us vs) :
    Joins (plus + plus') (minus + minus') ts vs := by
  obtain ⟨hgained, hlost, hnet⟩ := htu
  obtain ⟨hgained', hlost', hnet'⟩ := huv
  exact ⟨by omega, by omega, by omega⟩

/-- One coefficient more for a term of `n` leaves. -/
theorem joins_add (i j : Int) (n : Nat) :
    (i + j).toNat * n ≤ i.toNat * n + j.toNat * n ∧
      (-(i + j)).toNat * n ≤ (-i).toNat * n + (-j).toNat * n ∧
      (i + j).toNat * n + ((-i).toNat * n + (-j).toNat * n) =
        (-(i + j)).toNat * n + (i.toNat * n + j.toNat * n) := by
  simp only [← Nat.add_mul]
  refine ⟨Nat.mul_le_mul_right n ?_, Nat.mul_le_mul_right n ?_, congrArg (· * n) ?_⟩ <;> omega

theorem natAbs_le_of_leaves (i : Int) (t : Expr) :
    i.natAbs ≤ i.toNat * t.leaves + (-i).toNat * t.leaves := by
  rw [← Nat.add_mul, show i.toNat + (-i).toNat = i.natAbs by omega]
  exact Nat.le_mul_of_pos_right _ t.leaves_pos

theorem joins_addTerm (t : Expr) (c : LinkValue) {ts : List (Expr × LinkValue)}
    (h : gained ts + lost ts + (c.toInt.toNat * t.leaves + (-c.toInt).toNat * t.leaves) < 2 ^ 127) :
    Joins (c.toInt.toNat * t.leaves) ((-c.toInt).toNat * t.leaves) ts (addTerm t c ts) := by
  induction ts with
  | nil => constructor <;> simp [addTerm, gained, lost, Nat.add_comm]
  | cons head rest ih =>
    obtain ⟨u, d⟩ := head
    rw [gained_cons, lost_cons] at h
    rw [addTerm]
    split
    · constructor <;> simp <;> omega
    · next heq =>
      obtain rfl := Expr.eq_of_cmp heq
      have hc := natAbs_le_of_leaves c.toInt t
      have hd := natAbs_le_of_leaves d.toInt t
      have hsum := toInt_add_of_lt (c := d) (d := c) (by omega)
      obtain ⟨hgained, hlost, hnet⟩ := joins_add d.toInt c.toInt t.leaves
      rw [← hsum] at hgained hlost hnet
      split
      · next hz =>
        simp only [hz] at hgained hlost hnet
        constructor <;> simp at * <;> omega
      · constructor <;> simp at * <;> omega
    · obtain ⟨hgained, hlost, hnet⟩ := ih (by omega)
      constructor <;> simp <;> omega

/-- The terms with their coefficients times a sign. -/
def signed (sign : LinkValue) (ts : List (Expr × LinkValue)) : List (Expr × LinkValue) :=
  ts.map fun t => (t.1, t.2 * sign)

theorem joins_foldl (ts us : List (Expr × LinkValue))
    (h : gained ts + lost ts + (gained us + lost us) < 2 ^ 127) :
    Joins (gained us) (lost us) ts (us.foldl (fun vs t => addTerm t.1 t.2 vs) ts) := by
  induction us generalizing ts with
  | nil => exact ⟨Nat.le_refl _, Nat.le_refl _, Nat.add_comm _ _⟩
  | cons u rest ih =>
    obtain ⟨t, c⟩ := u
    rw [gained_cons, lost_cons] at h
    have hone : Joins _ _ ts (addTerm t c ts) := joins_addTerm t c (by omega)
    have hgained := hone.gained_le
    have hlost := hone.lost_le
    rw [gained_cons, lost_cons]
    exact hone.trans (ih (addTerm t c ts) (by omega))

theorem signed_one (ts : List (Expr × LinkValue)) : signed 1 ts = ts := by
  simp [signed]

/-- What is added is taken away under the opposite sign, and the other way round. -/
theorem gained_lost_signed_neg_one {ts : List (Expr × LinkValue)} (h : lost ts < 2 ^ 127) :
    gained (signed (-1) ts) = lost ts ∧ lost (signed (-1) ts) = gained ts := by
  induction ts with
  | nil => exact ⟨rfl, rfl⟩
  | cons u rest ih =>
    obtain ⟨t, c⟩ := u
    rw [lost_cons] at h
    have hle := Nat.le_mul_of_pos_right (-c.toInt).toNat t.leaves_pos
    have hne : c ≠ BitVec.intMin 128 := by
      rintro rfl
      rw [show (BitVec.intMin 128).toInt = -2 ^ 127 by decide] at hle h
      omega
    have hneg : (c * -1).toInt = -c.toInt := by
      rw [mul_neg_one, BitVec.toInt_neg_of_ne_intMin hne]
    obtain ⟨hgained, hlost⟩ := ih (by omega)
    have hcons : signed (-1) ((t, c) :: rest) = (t, c * -1) :: signed (-1) rest := rfl
    rw [hcons, gained_cons, lost_cons, gained_cons, lost_cons, hgained, hlost, hneg, Int.neg_neg]
    exact ⟨rfl, rfl⟩

theorem terms_combine (a b : Linear) (sign : LinkValue) :
    (a.combine b sign).terms =
      (signed sign b.terms).foldl (fun ts t => addTerm t.1 t.2 ts) a.terms := by
  rw [signed, List.foldl_map]
  rfl

/-- **Two sums together are no larger than the two.** -/
theorem size_combine_le {a b : Linear} {sign : LinkValue} (hsign : sign = 1 ∨ sign = -1)
    (h : a.size + b.size < 2 ^ 127) : (a.combine b sign).size ≤ a.size + b.size := by
  have hconstant : a.constant = 0 → b.constant = 0 → (a.combine b sign).constant = 0 := by
    intro ha hb
    rw [combine, ha, hb, zero_mul, add_zero]
  unfold size at h ⊢
  -- with the opposite sign the two numbers of the second sum change places
  obtain ⟨plus, minus, hjoins, hsum⟩ : ∃ plus minus,
      Joins plus minus a.terms (a.combine b sign).terms ∧
        plus + minus = gained b.terms + lost b.terms := by
    rw [terms_combine]
    rcases hsign with rfl | rfl
    · rw [signed_one]
      exact ⟨_, _, joins_foldl _ _ (by omega), rfl⟩
    · obtain ⟨hgained, hlost⟩ := gained_lost_signed_neg_one (show lost b.terms < 2 ^ 127 by omega)
      exact ⟨_, _, joins_foldl _ _ (by omega), by rw [hgained, hlost, Nat.add_comm]⟩
  obtain ⟨hgained, hlost, hnet⟩ := hjoins
  by_cases ha : a.constant = 0
  · by_cases hb : b.constant = 0
    · -- without a constant, a zero in front stands for one in front of an operand or for what cancels
      simp only [hconstant ha hb, ha, hb, ne_eq, not_true, or_false]
      split_ifs <;> omega
    · simp only [hb, ne_eq, not_false_eq_true, or_true, if_true]
      split_ifs <;> omega
  · simp only [ha, ne_eq, not_false_eq_true, or_true, if_true]
    split_ifs <;> omega

theorem size_or_le (a b : Linear) : (a.or b).size ≤ a.size + b.size := by
  have ha := a.size_pos
  have hb := b.size_pos
  have hterm : (ofTerm (a.toExpr ||| b.toExpr)).size = a.size + b.size := by
    rw [size_ofTerm, ← leaves_toExpr, ← leaves_toExpr]
    rfl
  rw [or]
  split
  · rw [size_ofConst]
    omega
  · split
    · omega
    · exact hterm.le
  · split
    · omega
    · exact hterm.le
  · exact hterm.le

theorem size_and_le (a b : Linear) : (a.and b).size ≤ a.size + b.size := by
  have ha := a.size_pos
  have hb := b.size_pos
  have hterm : (ofTerm (a.toExpr &&& b.toExpr)).size = a.size + b.size := by
    rw [size_ofTerm, ← leaves_toExpr, ← leaves_toExpr]
    rfl
  have hconst : ∀ v, (ofConst v).size ≤ a.size + b.size := fun v => by
    rw [size_ofConst]
    omega
  rw [and]
  split
  · exact hconst _
  · split
    · exact hconst _
    · exact hterm.le
  · split
    · exact hconst _
    · exact hterm.le
  · exact hterm.le

end Linear

namespace Expr

open Linear

theorem size_linear_le {e : Expr} (h : e.leaves < 2 ^ 127) : e.linear.size ≤ e.leaves := by
  induction e with
  | const v => exact (size_ofConst v).le
  | label l => exact (size_ofTerm (label l)).le
  | binary op lhs rhs ihl ihr =>
    rw [leaves] at h ⊢
    have hl := ihl (by omega)
    have hr := ihr (by omega)
    have hboth : lhs.linear.size + rhs.linear.size < 2 ^ 127 := by omega
    cases op with
    | add => exact (size_combine_le (.inl rfl) hboth).trans (Nat.add_le_add hl hr)
    | sub => exact (size_combine_le (.inr rfl) hboth).trans (Nat.add_le_add hl hr)
    | or => exact (size_or_le _ _).trans (Nat.add_le_add hl hr)
    | and => exact (size_and_le _ _).trans (Nat.add_le_add hl hr)

/-- **The normal form is no larger.** -/
theorem leaves_reduce_le {e : Expr} (h : e.leaves < 2 ^ 127) : e.reduce.leaves ≤ e.leaves :=
  (leaves_toExpr _).trans_le (size_linear_le h)

/-! ## Where the bound is reached -/

/-- A label added up `2 ^ n` times. -/
def doubled (l : String) : Nat → Expr
  | 0 => label l
  | n + 1 => doubled l n + doubled l n

theorem leaves_doubled (l : String) (n : Nat) : (doubled l n).leaves = 2 ^ n := by
  induction n with
  | zero => rfl
  | succ n ih =>
    show (doubled l n).leaves + (doubled l n).leaves = _
    rw [ih, Nat.pow_succ, Nat.mul_two]

theorem linear_doubled (l : String) (n : Nat) :
    (doubled l n).linear = multiple l (.ofSize (2 ^ n)) 0 := by
  induction n with
  | zero => exact linear_label l
  | succ n ih =>
    rw [doubled, linear_add, ih, combine_multiple _ _ _ _ _ (by decide), mul_one, zero_mul, add_zero,
      Nat.pow_succ, Nat.mul_two, LinkValue.ofSize, LinkValue.ofSize, BitVec.ofNat_add]

/-- A label added up `2 ^ 127` times is the same label taken away as often, from a zero. -/
theorem leaves_reduce_doubled (l : String) :
    (doubled l 127).reduce.leaves = (doubled l 127).leaves + 1 := by
  have hne : LinkValue.ofSize (2 ^ 127) ≠ 0 := by decide
  have hint : (LinkValue.ofSize (2 ^ 127)).toInt = -2 ^ 127 := by decide
  rw [reduce, leaves_toExpr, linear_doubled, leaves_doubled, size, multiple, if_neg hne, gained_cons,
    lost_cons, hint]
  simp [gained, lost, leaves]

end Expr

end PortableImage
