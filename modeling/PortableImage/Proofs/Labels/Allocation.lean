import PortableImage.Proofs.Labels.Pool

/-!
# Labels handed out call by call

A pool is asked for labels again and again, with any hints, while the caller notes labels of its own
and labels the places of buffers.  One counter serves all hints; so the names that a hint with a number
makes may be in use already, because the caller noted them or because other hints look like that.

## What is here

* `LabelPool.Searches` — the loop that looks for a label, turn by turn; a derivation is a run that ends.
* `LabelPool.Call`, `LabelPool.performAll` — calls, one after the other; `LabelPool.notedBy` lists the
  labels that they note.
* `LabelPool.counter_performAll_le` — the counter counts no more than one turn for every call.
* `LabelPool.fresh_performAll` — **a label is new, whatever was called before**.
-/

set_option autoImplicit false

namespace PortableImage.LabelPool

/-! ## The search -/

/-- The loop that looks for a label: while the name is in use, the counter goes up, and the next name is
the hint with its number.  It ends with the last two, the name and the counter. -/
inductive Searches (known : List String) (hint : String) : String → Nat → String → Nat → Prop
  | found {name : String} {counter : Nat} (h : name ∉ known) :
      Searches known hint name counter name counter
  | next {name last : String} {counter stop : Nat} (h : name ∈ known)
      (hrest : Searches known hint (numbered hint (counter + 1)) (counter + 1) last stop) :
      Searches known hint name counter last stop

theorem searches_search {known : List String} {hint : String} {tries counter : Nat}
    (h : numbered hint (search known hint tries counter) ∉ known) :
    Searches known hint (numbered hint (counter + 1)) (counter + 1)
      (numbered hint (search known hint tries counter)) (search known hint tries counter) := by
  induction tries generalizing counter with
  | zero => exact .found h
  | succ tries ih =>
    rw [search] at h ⊢
    by_cases hmem : numbered hint (counter + 1) ∈ known
    · rw [if_pos hmem] at h ⊢
      exact .next hmem (ih h)
    · rw [if_neg hmem]
      exact .found hmem

/-- **The loop ends**, with the label that the pool hands out. -/
theorem searches_fresh (p : LabelPool) (hint : String) :
    Searches p.known (sanitize hint) (sanitize hint) p.counter (p.fresh hint).1
      (p.fresh hint).2.counter := by
  rw [fresh]
  by_cases h : sanitize hint ∈ p.known
  · simp only [if_pos h]
    exact .next h (searches_search (numbered_search_notMem _ _ _))
  · simp only [if_neg h]
    exact .found h

/-- Only what is in use counts, not how it is listed. -/
theorem Searches.congr {known known' : List String} {hint name last : String} {counter stop : Nat}
    (h : Searches known hint name counter last stop) (hknown : ∀ l, l ∈ known ↔ l ∈ known') :
    Searches known' hint name counter last stop := by
  induction h with
  | found h => exact .found fun hmem => h ((hknown _).2 hmem)
  | next h _ ih => exact .next ((hknown _).1 h) ih

/-! ## The characters of a label -/

theorem isLabelChar_iff {c : Char} : isLabelChar c = true ↔ c.isAlphanum ∨ c = '_' := by
  simp [isLabelChar]

theorem isLabelChar_sanitize {hint : String} {c : Char} (h : c ∈ (sanitize hint).toList) :
    isLabelChar c := by
  rw [sanitize, String.toList_ofList] at h
  obtain ⟨d, -, rfl⟩ := List.mem_map.1 h
  by_cases hd : isLabelChar d
  · rwa [if_pos hd]
  · rw [if_neg hd]
    rfl

theorem sanitize_eq_self {hint : String} (h : ∀ c ∈ hint.toList, isLabelChar c) :
    sanitize hint = hint := by
  have hchars : (hint.toList.map fun c => if isLabelChar c then c else '_') = hint.toList :=
    (List.map_congr_left fun c hc => if_pos (h c hc)).trans (List.map_id _)
  rw [sanitize, hchars, String.ofList_toList]

theorem isDigit_of_mem_toString {n : Nat} {c : Char} (h : c ∈ (toString n).toList) : c.isDigit := by
  rw [Nat.toString_eq_ofList_toDigits, String.toList_ofList] at h
  exact Nat.isDigit_of_mem_toDigits (by decide) (by decide) h

/-- A label consists of ASCII letters, digits and underscores. -/
theorem isLabelChar_fresh {p : LabelPool} {hint : String} {c : Char}
    (h : c ∈ (p.fresh hint).1.toList) : isLabelChar c := by
  rcases p.namedAfter_fresh hint with heq | ⟨n, heq⟩
  · rw [heq] at h
    exact isLabelChar_sanitize h
  · rw [heq, numbered, String.toList_append, String.toList_append] at h
    simp only [List.mem_append] at h
    rcases h with (h | h) | h
    · exact isLabelChar_sanitize h
    · rw [isLabelChar_iff]
      exact .inr (List.mem_singleton.1 h)
    · rw [isLabelChar, Char.isAlphanum, isDigit_of_mem_toString h, Bool.or_true, Bool.true_or]

/-- A hint that may be a label, and is not in use, is the label. -/
theorem fresh_of_unused {p : LabelPool} {hint : String} (h : ∀ c ∈ hint.toList, isLabelChar c)
    (hunused : hint ∉ p.known) : (p.fresh hint).1 = hint := by
  rw [← sanitize_eq_self h] at hunused
  rw [fresh, if_neg hunused, sanitize_eq_self h]

/-! ## Labels of places -/

/-- The first label of a place is found, and nothing changes. -/
theorem labelAt_of_first {p : LabelPool} {b : Buffer} {offset : Nat} {hint l : String}
    {before behind : List (String × Nat)} (h : b.exports = before ++ (l, offset) :: behind)
    (hbefore : ∀ e ∈ before, e.2 ≠ offset) : p.labelAt b offset hint = (l, p, b) := by
  have hfind : b.exportAt offset = some l := by
    have hnone : before.find? (fun e => e.2 == offset) = none :=
      List.find?_eq_none.2 fun e he => by simpa using hbefore e he
    simp [Buffer.exportAt, h, hnone]
  rw [labelAt, hfind]

theorem exportAt_eq_none {b : Buffer} {offset : Nat} :
    b.exportAt offset = none ↔ ∀ e ∈ b.exports, e.2 ≠ offset := by
  simp [Buffer.exportAt]

/-- A place without a label gets one. -/
theorem labelAt_of_none {p : LabelPool} {b : Buffer} {offset : Nat} (hint : String)
    (h : b.exportAt offset = none) :
    p.labelAt b offset hint =
      ((p.fresh hint).1, (p.fresh hint).2,
        { b with exports := b.exports ++ [((p.fresh hint).1, offset)] }) := by
  rw [labelAt, h]
  rfl

/-! ## Calls -/

/-- A call of a pool. -/
inductive Call
  | reserve (name : String)
  | fresh (hint : String)
  | labelAt (b : Buffer) (offset : Nat) (hint : String)

/-- The label that a call notes.  A label that is only found in a buffer is not noted by that: it is
the caller's, who reserves its labels. -/
def Call.noted (p : LabelPool) : Call → List String
  | reserve name => [name]
  | fresh hint => [(p.fresh hint).1]
  | labelAt b offset hint =>
    if (b.exportAt offset).isSome then [] else [(p.labelAt b offset hint).1]

/-- The pool after a call. -/
def perform (p : LabelPool) : Call → LabelPool
  | .reserve name => (p.reserve name).2
  | .fresh hint => (p.fresh hint).2
  | .labelAt b offset hint => (p.labelAt b offset hint).2.1

/-- The pool after calls one after the other. -/
def performAll (p : LabelPool) (calls : List Call) : LabelPool := calls.foldl perform p

/-- The labels that calls note one after the other: those that are reserved and those that are made. -/
def notedBy : LabelPool → List Call → List String
  | _, [] => []
  | p, call :: rest => call.noted p ++ (p.perform call).notedBy rest

/-- What a call can be: noting a label of the caller, making one, or nothing. -/
theorem perform_cases (p : LabelPool) (call : Call) :
    (∃ name, call.noted p = [name] ∧ p.perform call = (p.reserve name).2) ∨
    (∃ hint, call.noted p = [(p.fresh hint).1] ∧ p.perform call = (p.fresh hint).2) ∨
    (call.noted p = [] ∧ p.perform call = p) := by
  cases call with
  | reserve name => exact .inl ⟨name, rfl, rfl⟩
  | fresh hint => exact .inr (.inl ⟨hint, rfl, rfl⟩)
  | labelAt b offset hint =>
    rw [Call.noted, perform]
    cases h : b.exportAt offset with
    | some l => exact .inr (.inr ⟨rfl, by rw [labelAt, h]⟩)
    | none => exact .inr (.inl ⟨hint, by rw [labelAt_of_none hint h]; exact ⟨rfl, rfl⟩⟩)

theorem mem_known_perform {p : LabelPool} {call : Call} {l : String} :
    l ∈ (p.perform call).known ↔ l ∈ p.known ∨ l ∈ call.noted p := by
  rcases perform_cases p call with ⟨name, hnoted, hpool⟩ | ⟨hint, hnoted, hpool⟩ | ⟨hnoted, hpool⟩
  · rw [hnoted, hpool]
    show l ∈ (p.reserveAll [name]).known ↔ _
    exact mem_known_reserveAll
  · rw [hnoted, hpool, known_fresh, List.mem_cons, List.mem_singleton, or_comm]
  · simp [hnoted, hpool]

/-- **A pool knows what was noted.** -/
theorem mem_known_performAll {p : LabelPool} {calls : List Call} {l : String} :
    l ∈ (p.performAll calls).known ↔ l ∈ p.known ∨ l ∈ p.notedBy calls := by
  induction calls generalizing p with
  | nil => simp [performAll, notedBy]
  | cons call rest ih =>
    show l ∈ ((p.perform call).performAll rest).known ↔ _
    rw [ih, mem_known_perform, notedBy, List.mem_append, or_assoc]

/-! ## The counter -/

/-- The number that a name ends with, behind its last underscore. -/
def numberBehind (name : String) : Nat :=
  Nat.ofDigitChars 10 (name.toList.reverse.takeWhile (· != '_')).reverse 0

theorem numberBehind_numbered (hint : String) (n : Nat) : numberBehind (numbered hint n) = n := by
  have hdigits : ∀ c ∈ (toString n).toList.reverse, (c != '_') = true := by
    intro c hc
    have hdigit := isDigit_of_mem_toString (List.mem_reverse.1 hc)
    rw [bne_iff_ne]
    rintro rfl
    exact absurd hdigit (by decide)
  rw [numberBehind, numbered, String.toList_append, String.toList_append, List.reverse_append,
    List.reverse_append, List.takeWhile_append_of_pos hdigits]
  simp

/-- How many labels in use end with a number that the counter has not reached yet.  Each of them may
cost the search a turn, but only once. -/
def ahead (p : LabelPool) : Nat := p.known.countP fun name => p.counter < numberBehind name

/-- A larger counter leaves no more of the names ahead. -/
theorem countP_ahead_mono {counter counter' : Nat} (h : counter ≤ counter') (known : List String) :
    known.countP (counter' < numberBehind ·) ≤ known.countP (counter < numberBehind ·) :=
  List.countP_mono_left fun _ _ hname =>
    decide_eq_true (Nat.lt_of_le_of_lt h (of_decide_eq_true hname))

/-- A name that ends with the next number is not ahead any more. -/
theorem countP_ahead_succ {known : List String} {name : String} {counter : Nat}
    (hmem : name ∈ known) (hname : numberBehind name = counter + 1) :
    known.countP (counter + 1 < numberBehind ·) + 1 ≤ known.countP (counter < numberBehind ·) := by
  obtain ⟨before, behind, rfl⟩ := List.append_of_mem hmem
  have hbefore := countP_ahead_mono (Nat.le_add_right counter 1) before
  have hbehind := countP_ahead_mono (Nat.le_add_right counter 1) behind
  simp only [List.countP_append, List.countP_cons, hname, Nat.lt_irrefl, Nat.lt_succ_self, decide_true,
    decide_false, if_true, Bool.false_eq_true, if_false]
  omega

/-- A search takes one turn for every name that it leaves behind, and one more. -/
theorem search_add_ahead_le (known : List String) (hint : String) (tries counter : Nat) :
    search known hint tries counter +
        known.countP (search known hint tries counter < numberBehind ·) ≤
      counter + 1 + known.countP (counter < numberBehind ·) := by
  have hone := countP_ahead_mono (Nat.le_succ counter) known
  induction tries generalizing counter with
  | zero => exact Nat.add_le_add_left hone _
  | succ tries ih =>
    rw [search]
    by_cases hmem : numbered hint (counter + 1) ∈ known
    · rw [if_pos hmem]
      have hrest := ih (counter + 1) (countP_ahead_mono (Nat.le_succ _) known)
      have hpassed := countP_ahead_succ hmem (numberBehind_numbered hint (counter + 1))
      omega
    · rw [if_neg hmem]
      exact Nat.add_le_add_left hone _

/-- One more label in use may be one more that is ahead. -/
theorem countP_ahead_cons_le (counter : Nat) (name : String) (known : List String) :
    (name :: known).countP (counter < numberBehind ·) ≤
      known.countP (counter < numberBehind ·) + 1 := by
  rw [List.countP_cons]
  split <;> omega

/-- **A call costs one turn**, of this search or of one to come. -/
theorem counter_add_ahead_perform (p : LabelPool) (call : Call) :
    (p.perform call).counter + (p.perform call).ahead ≤ p.counter + p.ahead + 1 := by
  rcases perform_cases p call with ⟨name, -, hpool⟩ | ⟨hint, -, hpool⟩ | ⟨-, hpool⟩
  · rw [hpool, reserve]
    split
    · exact Nat.le_succ _
    · exact Nat.add_le_add_left (countP_ahead_cons_le _ _ _) _
  · rw [hpool, fresh]
    by_cases h : sanitize hint ∈ p.known
    · have hsearch := search_add_ahead_le p.known (sanitize hint) p.known.length p.counter
      simp only [if_pos h, ahead]
      -- the label that is made ends with the number that the counter has reached
      rw [List.countP_cons_of_neg (by simp [numberBehind_numbered])]
      omega
    · simp only [if_neg h]
      exact Nat.add_le_add_left (countP_ahead_cons_le _ _ _) _
  · rw [hpool]
    exact Nat.le_succ _

/-- The counter counts no more than one turn for every call. -/
theorem counter_performAll_le (calls : List Call) :
    (empty.performAll calls).counter ≤ calls.length := by
  have hrun : ∀ p : LabelPool, (p.performAll calls).counter + (p.performAll calls).ahead ≤
      p.counter + p.ahead + calls.length := by
    induction calls with
    | nil => exact fun p => Nat.le_refl _
    | cons call rest ih =>
      intro p
      have hstep := p.counter_add_ahead_perform call
      have hrest := ih (p.perform call)
      rw [List.length_cons]
      show ((p.perform call).performAll rest).counter + ((p.perform call).performAll rest).ahead ≤ _
      omega
  have hempty := hrun empty
  have hnone : empty.counter + empty.ahead = 0 := rfl
  omega

/-! ## Whatever was called before -/

/-- **A label is new, whatever was called before.**  After any calls on a new pool, the loop that looks
for a label ends, and its counter is no larger than the number of calls, this one included.  The label
differs from all labels that were reserved or made; it consists of ASCII letters, digits and
underscores; and it is the hint where this is so formed and not in use.  A place of a buffer that has
labels keeps them, is known by the first of them, and nothing changes; a place without one gets one label,
which is new in the same way. -/
theorem fresh_performAll (calls : List Call) (hint : String) :
    let p := empty.performAll calls
    let noted := empty.notedBy calls
    let name := (p.fresh hint).1
    let after := (p.fresh hint).2
    Searches noted (sanitize hint) (sanitize hint) p.counter name after.counter ∧
      after.counter ≤ calls.length + 1 ∧
      name ∉ noted ∧
      (∀ c ∈ name.toList, c.isAlphanum ∨ c = '_') ∧
      ((∀ c ∈ hint.toList, c.isAlphanum ∨ c = '_') → hint ∉ noted → name = hint) ∧
      ∀ (b : Buffer) (offset : Nat),
        (∀ before l behind, b.exports = before ++ (l, offset) :: behind →
          (∀ e ∈ before, e.2 ≠ offset) → p.labelAt b offset hint = (l, p, b)) ∧
        ((∀ e ∈ b.exports, e.2 ≠ offset) → p.labelAt b offset hint =
          (name, after, { b with exports := b.exports ++ [(name, offset)] })) := by
  intro p noted name after
  have hknown : ∀ l, l ∈ p.known ↔ l ∈ noted := fun l => by
    simp [p, noted, mem_known_performAll, empty]
  refine ⟨(p.searches_fresh hint).congr hknown, ?_, ?_, fun c hc => ?_, fun hchars hunused => ?_,
    fun b offset => ⟨fun before l behind => labelAt_of_first, fun hnone => ?_⟩⟩
  · have hcounter := counter_performAll_le (calls ++ [.fresh hint])
    rw [performAll, List.foldl_append, List.length_append] at hcounter
    exact hcounter
  · rw [← hknown]
    exact p.fresh_notMem hint
  · exact isLabelChar_iff.1 (isLabelChar_fresh hc)
  · exact fresh_of_unused (fun c hc => isLabelChar_iff.2 (hchars c hc)) fun h => hunused ((hknown _).1 h)
  · exact labelAt_of_none hint (exportAt_eq_none.2 hnone)

/-- Labels of the caller that look like the pool's own, and hints that look alike. -/
def crowded : List Call :=
  [.reserve "a", .reserve "a_2", .fresh "a", .fresh "a b", .labelAt .empty 0 "a_b",
    .labelAt (Buffer.empty.addExport "x y" 4) 4 "a"]

theorem fresh_performAll_crowded :
    empty.notedBy crowded = ["a", "a_2", "a_1", "a_b", "a_b_2"] ∧
      ((empty.performAll crowded).fresh "a").1 = "a_3" ∧
      "a_3" ∉ empty.notedBy crowded ∧
      ((empty.performAll crowded).fresh "c").1 = "c" := by
  obtain ⟨-, -, hnew, -⟩ := fresh_performAll crowded "a"
  obtain ⟨-, -, -, -, hhint, -⟩ := fresh_performAll crowded "c"
  have hlabel : ((empty.performAll crowded).fresh "a").1 = "a_3" := by decide +kernel
  exact ⟨by decide +kernel, hlabel, hlabel ▸ hnew, hhint (by simp) (by decide +kernel)⟩

end PortableImage.LabelPool
