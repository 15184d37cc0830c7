import Mathlib.Order.Bounds.Basic
import PortableImage.Proofs.Field.Spelled
import PortableImage.Proofs.Merging
import PortableImage.Proofs.Rounding

/-!
# What becomes of generated sections

A generated section goes into the first section that takes it, or behind all others.  What it holds
stands in one piece behind what was there, at a multiple of eight, and everything that was there stays.
Only a pending field that lies behind the end of its section may be lost, to a field of what comes there.

Over a whole run each section of the result is one that was there, or one of the generated ones, with
the content of further generated sections behind its own; and all of these ask for no more than its
flags allow.

## What is here

* `TakesAt` — the section at an index takes what is generated; `mergeTarget_eq_some_iff` says that the
  first of these is found.
* `Buffer.Joined` — one buffer behind another, with zeros in between; `Buffer.joined_align` is the
  merge of two contents.
* `Group`, `Grouped` — sections with those whose content has become part of them.
  `Grouped.step` is one generated section more, `exists_grouped` the whole run.
* `appendSection_content` — the step and the run together.
-/

set_option autoImplicit false

namespace PortableImage

/-! ## Flags -/

namespace SectionFlags

/-- Whether the flag with a number is among the flags. -/
def bit (a : SectionFlags) (i : Nat) : Bool := a.bits.toBitVec.getLsbD i

theorem ext_bit {a b : SectionFlags} (h : ∀ i, i < 32 → a.bit i = b.bit i) : a = b := by
  cases a
  cases b
  exact congrArg mk (UInt32.eq_of_toBitVec_eq (BitVec.eq_of_getLsbD_eq fun i hi => h i hi))

theorem bit_and (a b : SectionFlags) (i : Nat) : (a &&& b).bit i = (a.bit i && b.bit i) :=
  BitVec.getLsbD_and

theorem bit_or (a b : SectionFlags) (i : Nat) : (a ||| b).bit i = (a.bit i || b.bit i) :=
  BitVec.getLsbD_or

theorem bit_sdiff (a b : SectionFlags) {i : Nat} (hi : i < 32) :
    (a \ b).bit i = (a.bit i && !b.bit i) := by
  show (a.bits.toBitVec &&& ~~~b.bits.toBitVec).getLsbD i = _
  rw [BitVec.getLsbD_and, BitVec.getLsbD_not, decide_eq_true hi, Bool.true_and]
  rfl

theorem contains_iff {a b : SectionFlags} :
    a.contains b = true ↔ ∀ i, i < 32 → b.bit i = true → a.bit i = true := by
  rw [contains, beq_iff_eq]
  constructor
  · intro h i _ hb
    rw [← h, bit_and, Bool.and_eq_true] at hb
    exact hb.1
  · intro h
    refine ext_bit fun i hi => ?_
    rw [bit_and]
    cases hb : b.bit i with
    | false => exact Bool.and_false _
    | true => rw [h i hi hb]; rfl

/-- Agreeing on the sticky flags is agreeing on each of the two. -/
theorem and_stickyFlags_eq_iff {a b : SectionFlags} :
    a &&& stickyFlags = b &&& stickyFlags ↔
      a &&& discardable = b &&& discardable ∧ a &&& shared = b &&& shared := by
  have hand : ∀ x y z : SectionFlags, x &&& y &&& z = x &&& (y &&& z) := fun x y z =>
    ext_bit fun i _ => by rw [bit_and, bit_and, bit_and, bit_and, Bool.and_assoc]
  have hor : ∀ x : SectionFlags, x &&& stickyFlags = x &&& discardable ||| x &&& shared := fun x =>
    ext_bit fun i _ => by
      rw [bit_and, bit_or, bit_and, bit_and, stickyFlags, bit_or, Bool.and_or_distrib_left]
  constructor
  · intro h
    have hpart : ∀ part : SectionFlags, stickyFlags &&& part = part → a &&& part = b &&& part :=
      fun part hpart => by rw [← hpart, ← hand, ← hand, h]
    exact ⟨hpart discardable rfl, hpart shared rfl⟩
  · rintro ⟨hdiscardable, hshared⟩
    rw [hor, hor, hdiscardable, hshared]

/-- Flags that agree on the sticky ones and are allowed otherwise are all allowed. -/
theorem contains_of_sticky {a b : SectionFlags} (hsticky : a &&& stickyFlags = b &&& stickyFlags)
    (hrest : a.contains (b \ stickyFlags) = true) : a.contains b = true := by
  rw [contains_iff] at hrest ⊢
  intro i hi hb
  cases hbit : stickyFlags.bit i with
  | false => exact hrest i hi (by rw [bit_sdiff _ _ hi, hb, hbit]; rfl)
  | true =>
    have hsame := congrArg (fun flags => flags.bit i) hsticky
    simpa only [bit_and, hb, hbit, Bool.and_true] using hsame

end SectionFlags

/-! ## The section that takes what is generated -/

/-- The section may take what another one holds: it allows as much, both agree on whether they are
discarded and on whether they are shared, and its sizes are not fixed. -/
structure Section.Takes (s n : Section) : Prop where
  allows : s.flags.contains (n.flags \ stickyFlags) = true
  discardable : s.flags &&& SectionFlags.discardable = n.flags &&& SectionFlags.discardable
  shared : s.flags &&& SectionFlags.shared = n.flags &&& SectionFlags.shared
  virtSize : s.virtSize = none
  rawSize : s.rawSize = none

theorem Section.accepts_iff {s n : Section} : s.accepts n.flags = true ↔ s.Takes n := by
  simp only [accepts, Bool.and_eq_true, beq_iff_eq, SectionFlags.and_stickyFlags_eq_iff,
    Option.isNone_iff_eq_none]
  constructor
  · rintro ⟨⟨⟨⟨hdiscardable, hshared⟩, hvirt⟩, hraw⟩, hallows⟩
    exact ⟨hallows, hdiscardable, hshared, hvirt, hraw⟩
  · intro h
    exact ⟨⟨⟨⟨h.discardable, h.shared⟩, h.virtSize⟩, h.rawSize⟩, h.allows⟩

/-- The section at the index takes what is generated: that is small, the section may take it, and no
section behind has a fixed address. -/
structure TakesAt (l : List Section) (n : Section) (i : Nat) : Prop where
  small : n.sizeInMemory < 0x1000
  takes : ∃ s, l[i]? = some s ∧ s.Takes n
  floating : ∀ j s, i < j → l[j]? = some s → s.address = none

theorem takesAt_zero {s n : Section} {rest : List Section} (h : n.sizeInMemory < 0x1000) :
    TakesAt (s :: rest) n 0 ↔
      (s.accepts n.flags && rest.all (·.address.isNone)) = true := by
  rw [Bool.and_eq_true, Section.accepts_iff, List.all_eq_true]
  constructor
  · rintro ⟨-, ⟨_, hs, htakes⟩, hfloating⟩
    obtain rfl := Option.some.inj hs
    refine ⟨htakes, fun t ht => ?_⟩
    obtain ⟨j, hj⟩ := List.mem_iff_getElem?.1 ht
    exact Option.isNone_iff_eq_none.2 (hfloating (j + 1) t (Nat.succ_pos j) hj)
  · rintro ⟨htakes, hfloating⟩
    refine ⟨h, ⟨s, rfl, htakes⟩, fun j t hj ht => ?_⟩
    obtain ⟨k, rfl⟩ := Nat.exists_eq_add_one.2 hj
    exact Option.isNone_iff_eq_none.1 (hfloating t (List.mem_of_getElem? ht))

theorem takesAt_succ {s n : Section} {rest : List Section} {i : Nat} :
    TakesAt (s :: rest) n (i + 1) ↔ TakesAt rest n i := by
  constructor
  · rintro ⟨hsmall, htakes, hfloating⟩
    exact ⟨hsmall, htakes, fun j t hj => hfloating (j + 1) t (Nat.succ_lt_succ hj)⟩
  · rintro ⟨hsmall, htakes, hfloating⟩
    refine ⟨hsmall, htakes, fun j t hj ht => ?_⟩
    obtain ⟨k, rfl⟩ := Nat.exists_eq_add_one.2 (Nat.zero_lt_of_lt hj)
    exact hfloating k t (Nat.lt_of_succ_lt_succ hj) ht

/-- The search finds the first section that takes what is generated. -/
theorem mergeIndex_eq_some_iff {n : Section} (h : n.sizeInMemory < 0x1000) {l : List Section}
    {i : Nat} : mergeIndex n.flags l = some i ↔ IsLeast {i | TakesAt l n i} i := by
  induction l generalizing i with
  | nil =>
    refine ⟨fun h => (nomatch h), fun ⟨⟨_, ⟨_, hs, _⟩, _⟩, _⟩ => nomatch hs⟩
  | cons s rest ih =>
    rw [mergeIndex]
    split
    · next htakes =>
      have hzero := (takesAt_zero h).2 htakes
      refine ⟨fun heq => ?_, fun hleast => ?_⟩
      · rw [← Option.some.inj heq]
        exact ⟨hzero, fun _ _ => Nat.zero_le _⟩
      · rw [Nat.le_zero.1 (hleast.2 hzero)]
    · next htakes =>
      have hzero : ¬ TakesAt (s :: rest) n 0 := fun hzero => htakes ((takesAt_zero h).1 hzero)
      rw [Option.map_eq_some_iff]
      constructor
      · rintro ⟨j, hj, rfl⟩
        obtain ⟨htakes, hleast⟩ := ih.1 hj
        refine ⟨takesAt_succ.2 htakes, fun k hk => ?_⟩
        cases k with
        | zero => exact absurd hk hzero
        | succ k => exact Nat.succ_le_succ (hleast (takesAt_succ.1 hk))
      · rintro ⟨htakes, hleast⟩
        cases i with
        | zero => exact absurd htakes hzero
        | succ i =>
          exact ⟨i, ih.2 ⟨takesAt_succ.1 htakes, fun k hk =>
            Nat.le_of_succ_le_succ (hleast (takesAt_succ.2 hk))⟩, rfl⟩

theorem mergeTarget_eq_some_iff {l : List Section} {n : Section} {i : Nat} :
    mergeTarget l n = some i ↔ IsLeast {i | TakesAt l n i} i := by
  rw [mergeTarget]
  split
  · next hsmall => exact mergeIndex_eq_some_iff hsmall
  · next hsmall =>
    constructor
    · intro h
      cases h
    · intro h
      exact absurd h.1.small hsmall

theorem mergeTarget_eq_none_iff {l : List Section} {n : Section} :
    mergeTarget l n = none ↔ ∀ i, ¬ TakesAt l n i := by
  constructor
  · intro h i hi
    -- where some section takes it, a first one does
    classical
    obtain ⟨j, hj, hleast⟩ : ∃ j, TakesAt l n j ∧ ∀ k, TakesAt l n k → j ≤ k :=
      ⟨Nat.find ⟨i, hi⟩, Nat.find_spec ⟨i, hi⟩, fun k hk => Nat.find_min' _ hk⟩
    rw [mergeTarget_eq_some_iff.2 ⟨hj, fun k hk => hleast k hk⟩] at h
    exact nomatch h
  · intro h
    cases htarget : mergeTarget l n with
    | none => rfl
    | some i => exact absurd (mergeTarget_eq_some_iff.1 htarget).1 (h i)

/-! ## Contents behind contents -/

/-- The third buffer is the first, zeros up to the offset, and the second.  All pending fields of the
second are in it, and those of the first are, unless a field of the second comes to the same place. -/
structure Buffer.Joined (a b c : Buffer) (o : Nat) : Prop where
  contents : c.contents = padTo o a.contents ++ b.contents
  exports : c.exports = a.exports ++ b.exports.map fun e => (e.1, o + e.2)
  moved : ∀ k f, b.fields.get? k = some f → c.fields.get? (o + k) = some f
  kept : ∀ k f, a.fields.get? k = some f → (∀ j, o + j = k → b.fields.get? j = none) →
    c.fields.get? k = some f
  only : ∀ k f, c.fields.get? k = some f →
    a.fields.get? k = some f ∨ ∃ j, o + j = k ∧ b.fields.get? j = some f

namespace Buffer

variable {a b c : Buffer} {o : Nat}

theorem joined_align (a b : Buffer) : ∃ o, IsLeast {m | 8 ∣ m ∧ a.virtSize ≤ m} o ∧
    a.Joined b (a.align 8 ++ b) o := by
  have hsize : (a.align 8).virtSize = alignSize a.virtSize 8 := a.virtSize_align rfl
  refine ⟨alignSize a.virtSize 8, isLeast_alignSize rfl a.virtSize, ⟨?_, ?_, fun k f hf => ?_,
    fun k f hf hfree => ?_, fun k f hf => ?_⟩⟩
  · rw [contents_append, contents_align]
  · rw [exports_append, hsize, exports_align]
    exact congrArg (a.exports ++ ·) (List.map_congr_left fun e _ => by rw [Nat.add_comm])
  · rw [← hsize]
    exact get?_fields_append_right hf
  · rw [get?_fields_append, hsize]
    by_cases hk : alignSize a.virtSize 8 ≤ k
    · rw [if_pos hk, hfree _ (Nat.add_sub_cancel' hk), Option.none_or]
      exact hf
    · rw [if_neg hk, Option.none_or]
      exact hf
  · rw [get?_fields_append, hsize, Option.or_eq_some_iff] at hf
    rcases hf with hf | ⟨-, hf⟩
    · split at hf
      · next hk => exact .inr ⟨_, Nat.add_sub_cancel' hk, hf⟩
      · cases hf
    · exact .inl hf

end Buffer

/-- **One generated section.**  It goes into the first section that takes it, or behind the others. -/
theorem appendSection_of_takesAt {l : List Section} {n : Section} {i : Nat}
    (h : IsLeast {i | TakesAt l n i} i) : ∃ s content o, l[i]? = some s ∧
      IsLeast {m | 8 ∣ m ∧ s.content.virtSize ≤ m} o ∧ s.content.Joined n.content content o ∧
      appendSection l n = (l.set i { s with content }, i) := by
  obtain ⟨s, hs, -⟩ := h.1.takes
  obtain ⟨o, ho, hjoined⟩ := Buffer.joined_align s.content n.content
  refine ⟨s, _, o, hs, ho, hjoined, ?_⟩
  obtain ⟨hi, rfl⟩ := List.getElem?_eq_some_iff.1 hs
  rw [appendSection, mergeTarget_eq_some_iff.2 h]
  exact congrArg (Prod.mk · i) (List.modify_eq_set_get _ hi)

theorem appendSection_of_not_takesAt {l : List Section} {n : Section} (h : ∀ i, ¬ TakesAt l n i) :
    appendSection l n = (l ++ [n], l.length) := by
  rw [appendSection, mergeTarget_eq_none_iff.2 h]

/-! ## A run -/

/-- The flags allow all that another section asks for, and agree with it on whether it is discarded
and on whether it is shared. -/
structure SectionFlags.Serves (a b : SectionFlags) : Prop where
  allows : a.contains b = true
  discardable : a &&& SectionFlags.discardable = b &&& SectionFlags.discardable
  shared : a &&& SectionFlags.shared = b &&& SectionFlags.shared

theorem SectionFlags.Serves.refl (a : SectionFlags) : a.Serves a :=
  ⟨contains_iff.2 fun _ _ h => h, rfl, rfl⟩

theorem Section.Takes.serves {s n : Section} (h : s.Takes n) : s.flags.Serves n.flags where
  allows := SectionFlags.contains_of_sticky
    (SectionFlags.and_stickyFlags_eq_iff.2 ⟨h.discardable, h.shared⟩) h.allows
  discardable := h.discardable
  shared := h.shared

/-- A section, and those whose content has become part of it, in order. -/
structure Group where
  first : Section
  merged : List Section

namespace Group

/-- One more section whose content becomes part of the first. -/
def add (n : Section) (g : Group) : Group := { g with merged := g.merged ++ [n] }

/-- The section with all content. -/
def whole (g : Group) : Section := g.merged.foldl (fun s n => s.merge n.content) g.first

theorem whole_add (n : Section) (g : Group) : (g.add n).whole = g.whole.merge n.content := by
  rw [whole, add, List.foldl_append]
  rfl

/-- Content does not change the flags. -/
theorem flags_whole (g : Group) : g.whole.flags = g.first.flags := by
  obtain ⟨first, merged⟩ := g
  induction merged generalizing first with
  | nil => rfl
  | cons n rest ih => exact ih (first.merge n.content)

/-- What stands in the first section stands in the whole. -/
theorem hasAt_whole {g : Group} {o : Nat} {bytes : List UInt8}
    (h : HasAt g.first.content.contents o bytes) : HasAt g.whole.content.contents o bytes := by
  obtain ⟨first, merged⟩ := g
  induction merged generalizing first with
  | nil => exact h
  | cons n rest ih =>
    refine ih (first.merge n.content) ?_
    obtain ⟨o', -, hjoined⟩ := Buffer.joined_align first.content n.content
    rw [HasAt, Section.merge, hjoined.contents, padTo, List.append_assoc, List.drop_append]
    exact h.trans (List.prefix_append _ _)

/-- All content that has become part of a section stands in it, at a multiple of eight. -/
theorem exists_hasAt_whole {g : Group} {n : Section} (hn : n ∈ g.merged) :
    ∃ o, 8 ∣ o ∧ HasAt g.whole.content.contents o n.content.contents := by
  obtain ⟨first, merged⟩ := g
  induction merged generalizing first with
  | nil => exact nomatch hn
  | cons m rest ih =>
    rcases List.mem_cons.1 hn with rfl | hn
    · obtain ⟨o, ho, hjoined⟩ := Buffer.joined_align first.content n.content
      refine ⟨o, ho.1.1, hasAt_whole (g := ⟨first.merge n.content, rest⟩) ?_⟩
      rw [HasAt, Section.merge, hjoined.contents, List.drop_append_of_le_length,
        List.drop_of_length_le]
      · exact List.prefix_rfl
      · rw [length_padTo, Buffer.length_contents, Nat.max_eq_left ho.1.2]
      · rw [length_padTo, Buffer.length_contents, Nat.max_eq_left ho.1.2]
    · exact ih (first.merge m.content) hn

end Group

/-- Sections that were there and generated ones, each with those that have become part of it: every
generated section is in one of the groups, once, and the sections that hold others serve them. -/
structure Grouped (l generated : List Section) (groups : List Group) : Prop where
  firsts : ∃ own, groups.map (·.first) = l ++ own ∧
    (own ++ groups.flatMap (·.merged)).Perm generated
  serves : ∀ g ∈ groups, ∀ n ∈ g.merged, g.whole.flags.Serves n.flags

theorem map_modify {α β : Type} (f : α → α) (h : α → β) (f' : β → β)
    (hf : ∀ a, h (f a) = f' (h a)) (l : List α) (i : Nat) :
    (l.modify i f).map h = (l.map h).modify i f' := by
  refine List.ext_getElem? fun j => ?_
  rw [List.getElem?_map, List.getElem?_modify, List.getElem?_modify, List.getElem?_map]
  cases l[j]? with
  | none => rfl
  | some a =>
    by_cases hij : i = j
    · simp [hij, hf]
    · simp [hij]

theorem perm_flatMap_add {groups : List Group} {i : Nat} (hi : i < groups.length) (n : Section) :
    ((groups.modify i (·.add n)).flatMap (·.merged)).Perm
      (groups.flatMap (·.merged) ++ [n]) := by
  induction groups generalizing i with
  | nil => exact absurd hi (Nat.not_lt_zero i)
  | cons g rest ih =>
    cases i with
    | zero =>
      show ((g.merged ++ [n]) ++ rest.flatMap _).Perm (g.merged ++ rest.flatMap _ ++ [n])
      rw [List.append_assoc, List.append_assoc]
      exact List.perm_append_comm.append_left _
    | succ i =>
      show (g.merged ++ (rest.modify i _).flatMap _).Perm (g.merged ++ rest.flatMap _ ++ [n])
      rw [List.append_assoc]
      exact (ih (Nat.lt_of_succ_lt_succ hi)).append_left _

/-- **One generated section more.** -/
theorem Grouped.step {l generated : List Section} {groups : List Group}
    (h : Grouped l generated groups) (n : Section) :
    ∃ groups', Grouped l (generated ++ [n]) groups' ∧
      groups'.map (·.whole) = (appendSection (groups.map (·.whole)) n).1 := by
  obtain ⟨own, hfirsts, hperm⟩ := h.firsts
  rw [appendSection]
  cases htarget : mergeTarget (groups.map (·.whole)) n with
  | some i =>
    obtain ⟨s, hs, htakes⟩ := (mergeTarget_eq_some_iff.1 htarget).1.takes
    rw [List.getElem?_map, Option.map_eq_some_iff] at hs
    obtain ⟨g, hg, rfl⟩ := hs
    have hi := (List.getElem?_eq_some_iff.1 hg).1
    refine ⟨groups.modify i (·.add n), ⟨⟨own, ?_, ?_⟩, fun g' hg' m hm => ?_⟩,
      map_modify (Group.add n) Group.whole (·.merge n.content) (Group.whole_add n) groups i⟩
    · have hsame : (groups.modify i (·.add n)).map (·.first) = (groups.map (·.first)).modify i id :=
        map_modify (Group.add n) Group.first id (fun _ => rfl) groups i
      rw [hsame, List.modify_id, hfirsts]
    · refine ((perm_flatMap_add hi n).append_left own).trans ?_
      rw [← List.append_assoc]
      exact hperm.append_right [n]
    · obtain ⟨j, hj⟩ := List.mem_iff_getElem?.1 hg'
      rw [List.getElem?_modify, Option.map_eq_map, Option.map_eq_some_iff] at hj
      obtain ⟨g₀, hg₀, rfl⟩ := hj
      split at hm
      · next hij =>
        subst hij
        rw [hg, Option.some.injEq] at hg₀
        subst hg₀
        rw [if_pos rfl, Group.flags_whole]
        rcases List.mem_append.1 hm with hm | hm
        · have hserves := h.serves g (List.mem_of_getElem? hg) m hm
          rwa [Group.flags_whole] at hserves
        · have hserves := htakes.serves
          rw [Group.flags_whole] at hserves
          rwa [List.mem_singleton.1 hm]
      · next hij =>
        rw [if_neg hij]
        exact h.serves g₀ (List.mem_of_getElem? hg₀) m hm
  | none =>
    refine ⟨groups ++ [⟨n, []⟩], ⟨⟨own ++ [n], ?_, ?_⟩, fun g hg m hm => ?_⟩, ?_⟩
    · rw [List.map_append, hfirsts, List.append_assoc]
      rfl
    · rw [List.flatMap_append, List.append_assoc]
      refine List.Perm.trans ?_ (hperm.append_right [n])
      rw [List.append_assoc]
      exact (List.perm_append_comm.trans (by simp)).append_left own
    · rcases List.mem_append.1 hg with hg | hg
      · exact h.serves g hg m hm
      · rw [List.mem_singleton.1 hg] at hm
        cases hm
    · rw [List.map_append]
      rfl

/-- **A whole run.** -/
theorem exists_grouped (l generated : List Section) :
    ∃ groups, Grouped l generated groups ∧ appendSections l generated = groups.map (·.whole) := by
  induction generated using List.reverseRecOn with
  | nil =>
    refine ⟨l.map fun s => ⟨s, []⟩, ⟨⟨[], ?_, ?_⟩, fun g hg m hm => ?_⟩, ?_⟩
    · rw [List.map_map, List.append_nil]
      exact List.map_id l
    · rw [List.nil_append, List.flatMap_map]
      simp
    · obtain ⟨s, -, rfl⟩ := List.mem_map.1 hg
      exact nomatch hm
    · rw [List.map_map]
      exact (List.map_id l).symm
  | append_singleton generated n ih =>
    obtain ⟨groups, hgrouped, hsections⟩ := ih
    obtain ⟨groups', hgrouped', hstep⟩ := hgrouped.step n
    refine ⟨groups', hgrouped', ?_⟩
    rw [hstep, ← hsections, appendSections, List.foldl_append]
    rfl

/-- All generated content stands in a section that serves it. -/
theorem Grouped.exists_hasAt {l generated : List Section} {groups : List Group}
    (h : Grouped l generated groups) {n : Section} (hn : n ∈ generated) :
    ∃ t ∈ groups.map (·.whole), t.flags.Serves n.flags ∧
      ∃ o, 8 ∣ o ∧ HasAt t.content.contents o n.content.contents := by
  obtain ⟨own, hfirsts, hperm⟩ := h.firsts
  rcases List.mem_append.1 (hperm.mem_iff.2 hn) with hown | hmerged
  · obtain ⟨g, hg, rfl⟩ : ∃ g ∈ groups, g.first = n := by
      rw [← List.mem_map, hfirsts]
      exact List.mem_append_right l hown
    refine ⟨g.whole, List.mem_map_of_mem hg, ?_, 0, Nat.dvd_zero 8, Group.hasAt_whole (.self _)⟩
    rw [Group.flags_whole]
    exact .refl _
  · obtain ⟨g, hg, hmem⟩ := List.mem_flatMap.1 hmerged
    exact ⟨g.whole, List.mem_map_of_mem hg, h.serves g hg n hmem, Group.exists_hasAt_whole hmem⟩

/-! ## The step and the run -/

/-- **What becomes of generated sections.**  If some section takes what is generated, it goes into the
first such section, at the least multiple of eight that is not below the size of that one.  The content
is that of both with zeros in between, as `Buffer.Joined` says; all else about the section and all
other sections are as before.  Otherwise the generated section becomes the last one, and nothing else
changes.  The index that is returned is that of the section with the content.

Over a whole run, the sections are those that were there and some of the generated ones, each with
further generated ones behind.  All of these are served by the flags of the section they are in, and
their bytes stand in it. -/
theorem appendSection_content :
    (∀ (l : List Section) (n : Section),
      (∀ i, IsLeast {i | TakesAt l n i} i → ∃ s content o, l[i]? = some s ∧
        IsLeast {m | 8 ∣ m ∧ s.content.virtSize ≤ m} o ∧ s.content.Joined n.content content o ∧
        appendSection l n = (l.set i { s with content }, i)) ∧
      ((∀ i, ¬ TakesAt l n i) → appendSection l n = (l ++ [n], l.length))) ∧
    ∀ l generated : List Section,
      (∃ groups, Grouped l generated groups ∧
        appendSections l generated = groups.map (·.whole)) ∧
      ∀ n ∈ generated, ∃ t ∈ appendSections l generated, t.flags.Serves n.flags ∧
        ∃ o, 8 ∣ o ∧ HasAt t.content.contents o n.content.contents := by
  refine ⟨fun l n => ⟨fun i => appendSection_of_takesAt, appendSection_of_not_takesAt⟩,
    fun l generated => ?_⟩
  obtain ⟨groups, hgrouped, hsections⟩ := exists_grouped l generated
  refine ⟨⟨groups, hgrouped, hsections⟩, fun n hn => ?_⟩
  rw [hsections]
  exact hgrouped.exists_hasAt hn

/-- A section of one pending field. -/
def reference (name : String) (flags : SectionFlags) (label : String) : Section :=
  .new name flags (.placeholder (.label label) .u32 .little)

theorem appendSection_content_reference :
    ∃ s content o, [reference ".data" (.read ||| .write) "x"][0]? = some s ∧
      IsLeast {m | 8 ∣ m ∧ s.content.virtSize ≤ m} o ∧
      s.content.Joined (reference ".edata" .read "y").content content o ∧
      appendSection [reference ".data" (.read ||| .write) "x"] (reference ".edata" .read "y") =
        ([reference ".data" (.read ||| .write) "x"].set 0 { s with content }, 0) :=
  (appendSection_content.1 _ (reference ".edata" .read "y")).1 0 (mergeTarget_eq_some_iff.1 rfl)

/-- A section of one byte, with a pending field behind its end. -/
def fieldBehind : Section :=
  .new ".data" (.read ||| .write) ((Buffer.ofBytes [0]).addField 8 ⟨.label "x", .u32, .little⟩)

/-- The field behind the end of the section is lost: the one that comes there takes its place. -/
theorem not_keepsFields_fieldBehind :
    IsLeast {i | TakesAt [fieldBehind] (reference ".edata" .read "y") i} 0 ∧
    fieldBehind.content.fields.get? 8 = some ⟨.label "x", .u32, .little⟩ ∧
    ∀ s ∈ (appendSection [fieldBehind] (reference ".edata" .read "y")).1,
      s.content.fields.get? 8 = some ⟨.label "y", .u32, .little⟩ := by
  refine ⟨mergeTarget_eq_some_iff.1 rfl, rfl, ?_⟩
  decide +kernel

end PortableImage
