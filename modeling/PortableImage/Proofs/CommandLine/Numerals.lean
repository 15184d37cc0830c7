import Mathlib.Data.List.Basic
import Mathlib.Data.List.Induction
import Mathlib.Data.List.TakeWhile
import PortableImage.CommandLine.Number
import PortableImage.Proofs.Outcome

/-!
# How numbers are written

The numbers of the command line by a grammar that says nothing about reading: what a digit is, what the
digits of a number are, and what may stand around them.  Reading a text as a number succeeds for exactly
the texts of the grammar.

## What is here

* `Base.IsDigit`, `Digits` — the digits of a base, and the number that digits stand for.
* `Numeral` — a number below `2 ^ 64` as it is written.
* `parseNumber_eq_ok`, `parseWord_eq_ok` — **exactly the numerals are read**, and as their number.
* `numeral_toString` — the decimal digits of a number are a numeral of it.
-/

set_option autoImplicit false

namespace PortableImage

/-! ## Blanks -/

namespace Text

/-- A text is what is left of it between blanks. -/
theorem exists_blanks (s : List Char) : ∃ front back, s = front ++ trimChars s ++ back ∧
    (∀ c ∈ front, isBlank c) ∧ ∀ c ∈ back, isBlank c := by
  let rest := s.dropWhile isBlank
  refine ⟨s.takeWhile isBlank, (rest.reverse.takeWhile isBlank).reverse, ?_, ?_, ?_⟩
  · rw [trimChars, List.append_assoc, ← List.reverse_append, List.takeWhile_append_dropWhile,
      List.reverse_reverse, List.takeWhile_append_dropWhile]
  · exact fun c hc => List.mem_takeWhile_imp hc
  · exact fun c hc => List.mem_takeWhile_imp (List.mem_reverse.1 hc)

/-- What has no blanks is all that is left between blanks. -/
theorem trimChars_eq {front core back : List Char} (hfront : ∀ c ∈ front, isBlank c)
    (hcore : ∀ c ∈ core, isBlank c = false) (hback : ∀ c ∈ back, isBlank c) :
    trimChars (front ++ core ++ back) = core := by
  have hstop : ∀ l tail : List Char, (∀ c ∈ l, isBlank c = false) → l ≠ [] →
      (l ++ tail).dropWhile isBlank = l ++ tail := by
    intro l tail hl hne
    obtain ⟨c, l, rfl⟩ := List.exists_cons_of_ne_nil hne
    rw [List.cons_append, List.dropWhile_cons_of_neg (by rw [hl c List.mem_cons_self]; exact nofun)]
  rw [trimChars, List.append_assoc, List.dropWhile_append_of_pos hfront]
  by_cases hne : core = []
  · rw [hne, List.nil_append, ← List.append_nil back, List.dropWhile_append_of_pos hback]
    rfl
  · have hreverse := hstop core.reverse [] (fun c hc => hcore c (List.mem_reverse.1 hc))
      (mt List.reverse_eq_nil_iff.1 hne)
    rw [List.append_nil] at hreverse
    rw [hstop core back hcore hne, List.reverse_append,
      List.dropWhile_append_of_pos fun c hc => hback c (List.mem_reverse.1 hc), hreverse,
      List.reverse_reverse]

end Text

namespace CommandLine

/-! ## The grammar -/

/-- The character is the digit of the base that stands for `d`, as a small or a capital letter. -/
def Base.IsDigit (base : Base) (c : Char) (d : Nat) : Prop :=
  d < base.radix ∧ (c = d.digitChar ∨ c = d.digitChar.toUpper)

/-- One or more digits of a base, and the number that they stand for. -/
inductive Digits (base : Base) : List Char → Nat → Prop
  | digit {c : Char} {d : Nat} (h : base.IsDigit c d) : Digits base [c] d
  | snoc {digits : List Char} {n : Nat} {c : Char} {d : Nat} (hdigits : Digits base digits n)
      (h : base.IsDigit c d) : Digits base (digits ++ [c]) (n * base.radix + d)

/-- What stands in front of the digits of a base. -/
def Base.marks : Base → List (List Char)
  | decimal => [[]]
  | hex => [['0', 'x'], ['0', 'X']]

/-- What may stand in front of digits. -/
def signs : List (List Char) := [[], ['+']]

/-- A number below `2 ^ 64` as it is written: the mark of its base, a sign and its digits, with blanks
around them. -/
inductive Numeral (n : Nat) : String → Prop
  | intro {base : Base} {front mark sign digits back : List Char}
      (hfront : ∀ c ∈ front, Text.isBlank c) (hmark : mark ∈ base.marks) (hsign : sign ∈ signs)
      (hdigits : Digits base digits n) (hlt : n < UInt64.size) (hback : ∀ c ∈ back, Text.isBlank c) :
      Numeral n (String.ofList (front ++ (mark ++ sign ++ digits) ++ back))

theorem Numeral.lt {n : Nat} {text : String} (h : Numeral n text) : n < UInt64.size := by
  cases h with
  | intro _ _ _ _ hlt _ => exact hlt

/-! ## Digits -/

theorem Base.radix_le (base : Base) : base.radix ≤ 16 := by
  cases base <;> decide

/-- The letters up to `f` are all that stand for a value. -/
theorem Base.lt_of_letterValue {c : Char} {d : Nat} (h : letterValue c = some d) : c.toNat < 103 := by
  have hle : c ≤ '9' ∨ c ≤ 'f' ∨ c ≤ 'F' := by
    unfold letterValue at h
    split at h
    · next hc => exact .inl hc.2
    · split at h
      · next hc => exact .inr (.inl hc.2)
      · split at h
        · next hc => exact .inr (.inr hc.2)
        · exact nomatch h
  have hnat : ∀ k : Char, c ≤ k → c.toNat ≤ k.toNat := fun k hk => hk
  rcases hle with h | h | h
  all_goals
    have := hnat _ h
    exact this.trans_lt (by decide)

theorem Base.letterValue_eq_some {c : Char} {d : Nat} :
    letterValue c = some d ↔ d < 16 ∧ (c = d.digitChar ∨ c = d.digitChar.toUpper) := by
  constructor
  · intro h
    have hall : ∀ m < 103, ∀ d ∈ letterValue (Char.ofNat m),
        d < 16 ∧ (Char.ofNat m = d.digitChar ∨ Char.ofNat m = d.digitChar.toUpper) := by
      decide +kernel
    have hc := hall c.toNat (lt_of_letterValue h) d
    rw [Char.ofNat_toNat] at hc
    exact hc h
  · have hall : ∀ d < 16, letterValue d.digitChar = some d ∧
        letterValue d.digitChar.toUpper = some d := by decide +kernel
    rintro ⟨hd, rfl | rfl⟩
    · exact (hall d hd).1
    · exact (hall d hd).2

/-- **The digits of a base are known by their values.** -/
theorem Base.digit?_eq_some {base : Base} {c : Char} {d : Nat} :
    base.digit? c = some d ↔ base.IsDigit c d := by
  rw [digit?, Option.filter_eq_some_iff, letterValue_eq_some, decide_eq_true_iff, IsDigit]
  have := base.radix_le
  constructor
  · exact fun h => ⟨h.2, h.1.2⟩
  · exact fun h => ⟨⟨h.1.trans_le this, h.2⟩, h.1⟩

theorem eq_of_mem_sign {sign : List Char} {c : Char} (hsign : sign ∈ signs) (hc : c ∈ sign) :
    c = '+' := by
  rcases List.mem_pair.1 hsign with rfl | rfl
  · exact nomatch hc
  · exact List.mem_singleton.1 hc

theorem Base.eq_of_mem_mark {base : Base} {mark : List Char} {c : Char} (hmark : mark ∈ base.marks)
    (hc : c ∈ mark) : c = '0' ∨ c = 'x' ∨ c = 'X' := by
  cases base with
  | decimal =>
    rw [List.mem_singleton.1 hmark] at hc
    exact nomatch hc
  | hex =>
    rcases List.mem_pair.1 hmark with rfl | rfl
    · exact (List.mem_pair.1 hc).imp_right .inl
    · exact (List.mem_pair.1 hc).imp_right .inr

/-- No digit is a blank or a sign, and no decimal digit is the letter of the other base. -/
theorem Base.IsDigit.ne {base : Base} {c : Char} {d : Nat} (h : base.IsDigit c d) :
    Text.isBlank c = false ∧ c ≠ '+' ∧ (base = .decimal → c ≠ 'x' ∧ c ≠ 'X') := by
  have hd : d < 16 := h.1.trans_le base.radix_le
  have hsmall : ∀ d < 16, Text.isBlank d.digitChar = false ∧ d.digitChar ≠ '+' ∧
      d.digitChar ≠ 'x' ∧ d.digitChar ≠ 'X' := by decide +kernel
  have hcapital : ∀ d < 16, Text.isBlank d.digitChar.toUpper = false ∧ d.digitChar.toUpper ≠ '+' ∧
      d.digitChar.toUpper ≠ 'x' ∧ d.digitChar.toUpper ≠ 'X' := by decide +kernel
  rcases h.2 with rfl | rfl
  · exact ⟨(hsmall d hd).1, (hsmall d hd).2.1, fun _ => (hsmall d hd).2.2⟩
  · exact ⟨(hcapital d hd).1, (hcapital d hd).2.1, fun _ => (hcapital d hd).2.2⟩

theorem Digits.isDigit {base : Base} {digits : List Char} {n : Nat} (h : Digits base digits n) :
    ∀ c ∈ digits, ∃ d, base.IsDigit c d := by
  induction h with
  | digit h =>
    intro c hc
    rw [List.mem_singleton.1 hc]
    exact ⟨_, h⟩
  | snoc _ h ih =>
    intro c hc
    rcases List.mem_append.1 hc with hc | hc
    · exact ih c hc
    · rw [List.mem_singleton.1 hc]
      exact ⟨_, h⟩

theorem Digits.ne_nil {base : Base} {digits : List Char} {n : Nat} (h : Digits base digits n) :
    digits ≠ [] := by
  cases h with
  | digit => exact List.cons_ne_nil _ _
  | snoc => exact List.append_ne_nil_of_right_ne_nil _ (List.cons_ne_nil _ _)

/-- Digits are read one behind the other. -/
theorem readDigits_append (base : Base) (value : Nat) (front back : List Char) :
    readDigits base value (front ++ back) =
      readDigits base value front >>= fun v => readDigits base v back := by
  induction front generalizing value with
  | nil => rfl
  | cons c rest ih =>
    rw [List.cons_append, readDigits, readDigits]
    split
    · rfl
    · dsimp only
      split
      · exact ih _
      · rfl

/-- One more digit is read, if the number is still small enough. -/
theorem readDigits_singleton {base : Base} {value n : Nat} {c : Char} :
    readDigits base value [c] = .ok n ↔
      ∃ d, base.IsDigit c d ∧ value * base.radix + d = n ∧ n < UInt64.size := by
  rw [readDigits]
  split
  · next hnone =>
    constructor
    · exact fun h => nomatch h
    · rintro ⟨d, hd, -⟩
      exact nomatch hnone.symm.trans (Base.digit?_eq_some.2 hd)
  · next d hd =>
    dsimp only
    constructor
    · intro h
      split at h
      · next hlt =>
        cases h
        exact ⟨d, Base.digit?_eq_some.1 hd, rfl, hlt⟩
      · exact nomatch h
    · rintro ⟨d', hd', rfl, hlt⟩
      obtain rfl : d = d' := Option.some.inj (hd.symm.trans (Base.digit?_eq_some.2 hd'))
      rw [if_pos hlt]
      rfl

/-- **Digits are read as the number that they stand for**, if it is small enough. -/
theorem readDigits_eq_ok {base : Base} {digits : List Char} {n : Nat} (hne : digits ≠ []) :
    readDigits base 0 digits = .ok n ↔ Digits base digits n ∧ n < UInt64.size := by
  induction digits using List.reverseRecOn generalizing n with
  | nil => exact absurd rfl hne
  | append_singleton front c ih =>
    rw [readDigits_append, bind_eq_ok]
    constructor
    · rintro ⟨v, hv, hlast⟩
      obtain ⟨d, hd, rfl, hlt⟩ := readDigits_singleton.1 hlast
      refine ⟨?_, hlt⟩
      by_cases hfront : front = []
      · subst hfront
        cases hv
        rw [Nat.zero_mul, Nat.zero_add]
        exact .digit hd
      · exact .snoc ((ih hfront).1 hv).1 hd
    · rintro ⟨hdigits, hlt⟩
      generalize hwhole : front ++ [c] = whole at hdigits
      cases hdigits with
      | @digit c' _ hd =>
        have hsplit : front ++ [c] = [] ++ [c'] := hwhole
        obtain ⟨rfl, hc⟩ := List.append_inj' hsplit rfl
        cases hc
        exact ⟨0, rfl, readDigits_singleton.2 ⟨n, hd, by omega, hlt⟩⟩
      | @snoc front' v c' d hdigits hd =>
        obtain ⟨rfl, hc⟩ := List.append_inj' hwhole rfl
        cases hc
        have hle : v ≤ v * base.radix := Nat.le_mul_of_pos_right _ (by cases base <;> decide)
        exact ⟨v, (ih hdigits.ne_nil).2 ⟨hdigits, by omega⟩,
          readDigits_singleton.2 ⟨d, hd, rfl, hlt⟩⟩

/-- A sign may stand in front of digits. -/
theorem readNumber_eq_ok {base : Base} {s : List Char} {n : Nat} : readNumber base s = .ok n ↔
    ∃ sign digits, s = sign ++ digits ∧ sign ∈ signs ∧ Digits base digits n ∧ n < UInt64.size := by
  constructor
  · intro h
    unfold readNumber at h
    split at h
    · exact nomatch h
    · exact nomatch h
    · next digits hne =>
      exact ⟨['+'], digits, rfl, by decide, (readDigits_eq_ok fun heq => hne (heq ▸ rfl)).1 h⟩
    · next hnil _ _ => exact ⟨[], s, rfl, by decide, (readDigits_eq_ok hnil).1 h⟩
  · rintro ⟨sign, digits, rfl, hmem, hdigits, hlt⟩
    have hread := (readDigits_eq_ok hdigits.ne_nil).2 ⟨hdigits, hlt⟩
    obtain ⟨c, rest, rfl⟩ := List.exists_cons_of_ne_nil hdigits.ne_nil
    have hplus : c ≠ '+' := by
      obtain ⟨d, hd⟩ := hdigits.isDigit c List.mem_cons_self
      exact hd.ne.2.1
    rcases List.mem_pair.1 hmem with rfl | rfl
    · rw [List.nil_append, readNumber]
      · exact hread
      · exact nofun
      · simpa using fun h _ => hplus h
      · simpa using fun h => hplus h
    · exact hread

/-! ## Bases -/

/-- What is left behind the mark of the base. -/
theorem splitBase_cases (s : List Char) :
    ∃ mark ∈ (splitBase s).1.marks, s = mark ++ (splitBase s).2 := by
  unfold splitBase
  split
  · exact ⟨['0', 'x'], List.mem_pair.2 (.inl rfl), rfl⟩
  · exact ⟨['0', 'X'], List.mem_pair.2 (.inr rfl), rfl⟩
  · exact ⟨[], List.mem_singleton_self [], rfl⟩

/-- The base is known by its mark. -/
theorem splitBase_append {base : Base} {mark sign digits : List Char} {n : Nat}
    (hmark : mark ∈ base.marks) (hsign : sign ∈ signs) (hdigits : Digits base digits n) :
    splitBase (mark ++ sign ++ digits) = (base, sign ++ digits) := by
  cases base with
  | hex =>
    rcases List.mem_pair.1 hmark with rfl | rfl
    · rfl
    · rfl
  | decimal =>
    obtain rfl : mark = [] := List.mem_singleton.1 hmark
    have hletter : ∀ c ∈ sign ++ digits, c ≠ 'x' ∧ c ≠ 'X' := by
      intro c hc
      rcases List.mem_append.1 hc with hc | hc
      · rw [eq_of_mem_sign hsign hc]
        decide
      · obtain ⟨d, hd⟩ := hdigits.isDigit c hc
        exact hd.ne.2.2 rfl
    rw [List.nil_append]
    unfold splitBase
    split
    · next heq => exact absurd rfl (hletter 'x' (by simp [heq])).1
    · next heq => exact absurd rfl (hletter 'X' (by simp [heq])).2
    · rfl

/-! ## Reading -/

/-- **Exactly the numerals are read**, as the numbers they stand for. -/
theorem parseNumber_eq_ok {text : String} {n : Nat} :
    parseNumber text = .ok n ↔ Numeral n text := by
  rw [parseNumber, mapError_eq_ok, readNumber_eq_ok]
  constructor
  · rintro ⟨sign, digits, hrest, hsign, hdigits, hlt⟩
    obtain ⟨front, back, htext, hfront, hback⟩ := Text.exists_blanks text.toList
    obtain ⟨mark, hmark, hcore⟩ := splitBase_cases (Text.trimChars text.toList)
    rw [hrest, ← List.append_assoc] at hcore
    rw [hcore] at htext
    rw [← String.ofList_toList (s := text), htext]
    exact .intro hfront hmark hsign hdigits hlt hback
  · intro h
    cases h with
    | @intro base front mark sign digits back hfront hmark hsign hdigits hlt hback =>
    have hcore : ∀ c ∈ mark ++ sign ++ digits, Text.isBlank c = false := by
      intro c hc
      rcases List.mem_append.1 hc with hc | hc
      · rcases List.mem_append.1 hc with hc | hc
        · rcases Base.eq_of_mem_mark hmark hc with rfl | rfl | rfl <;> decide
        · rw [eq_of_mem_sign hsign hc]
          decide
      · obtain ⟨d, hd⟩ := hdigits.isDigit c hc
        exact hd.ne.1
    rw [String.toList_ofList, Text.trimChars_eq hfront hcore hback,
      splitBase_append hmark hsign hdigits]
    exact ⟨sign, digits, rfl, hsign, hdigits, hlt⟩

/-- **Exactly the numerals below `2 ^ 32` are read as words.** -/
theorem parseWord_eq_ok {text : String} {w : UInt32} :
    parseWord text = .ok w ↔ Numeral w.toNat text := by
  rw [parseWord, bind_eq_ok]
  constructor
  · rintro ⟨n, hn, hw⟩
    split at hw
    · next hlt =>
      cases hw
      rw [UInt32.toNat_ofNat_of_lt' hlt]
      exact parseNumber_eq_ok.1 hn
    · exact nomatch hw
  · intro h
    refine ⟨w.toNat, parseNumber_eq_ok.2 h, ?_⟩
    rw [if_pos w.toNat_lt, UInt32.ofNat_toNat]
    rfl

/-! ## Writing -/

theorem Base.isDigit_digitChar {d : Nat} (h : d < 10) : Base.decimal.IsDigit d.digitChar d :=
  ⟨h, .inl rfl⟩

theorem digits_toDigits (n : Nat) : Digits .decimal (Nat.toDigits 10 n) n := by
  induction n using Nat.base_induction 10 (by decide) with
  | single d hd =>
    rw [Nat.toDigits_of_lt_base hd]
    exact .digit (Base.isDigit_digitChar hd)
  | digit n d hd hn ih =>
    rw [← Nat.toDigits_append_toDigits (by decide) hn hd, Nat.toDigits_of_lt_base hd, Nat.mul_comm]
    exact .snoc ih (Base.isDigit_digitChar hd)

/-- The decimal digits of a number are a numeral of it. -/
theorem numeral_toString {n : Nat} (h : n < UInt64.size) : Numeral n (toString n) := by
  have hnil : ∀ c ∈ ([] : List Char), Text.isBlank c := fun _ h => nomatch h
  have hnumeral := Numeral.intro hnil (List.mem_singleton_self []) (List.mem_cons_self : [] ∈ signs)
    (digits_toDigits n) h hnil
  rw [Nat.toString_eq_ofList_toDigits]
  simpa using hnumeral

end CommandLine

end PortableImage
