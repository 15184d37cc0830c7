import PortableImage.Layout
import PortableImage.Proofs.Outcome
import PortableImage.Proofs.Rounding
import PortableImage.Sorting

/-!
# Giving out addresses

The sections of an image get their addresses one after the other.  One that may go anywhere goes to the
next multiple of the alignment; one with a fixed address keeps it, or fails if it comes too late.  A
request that fails has rounded the next free address up by then.  That does no harm, for rounding up
twice is rounding up once: what comes later is answered as if nothing had been asked.

## What is here

* `AddressCursor.run` — the answers to requests, one after the other.
* `AddressCursor.Fits` — no sum on the way goes beyond the largest address.
* `AddressCursor.place_cases` — all that one request can do.
* `AddressCursor.Answer.Right` — an answer as it must be, from what has been given out before;
  `right_answer` is one request, `right_run` all of them.
* `AddressCursor.ranges_run` — what is given out lies one behind the other.
* `AddressCursor.run_kept` — requests that fail may as well be left out.
* `AddressCursor.run_laws` — all of this for a cursor that starts behind the headers.
-/

set_option autoImplicit false

namespace PortableImage

/-- The addresses from `start` on, as many as `size` says. -/
structure AddressRange where
  start : Nat
  size : Nat
  deriving DecidableEq

/-- The first address behind a range. -/
def AddressRange.stop (r : AddressRange) : Nat := r.start + r.size

/-- The first address behind `start` and behind all the ranges. -/
def behind (start : Nat) (ranges : List AddressRange) : Nat :=
  (ranges.map (·.stop)).foldl max start

theorem behind_append (start : Nat) (ranges others : List AddressRange) :
    behind start (ranges ++ others) = behind (behind start ranges) others := by
  rw [behind, List.map_append, List.foldl_append]
  rfl

namespace AddressCursor

/-! ## Requests and answers -/

/-- What is asked for a section: its name, its address relative to the base if that is fixed, and its
size. -/
structure Request where
  name : String
  fixed : Option Nat
  size : Nat
  deriving DecidableEq

/-- What is answered to a request, and the size that the image has then. -/
structure Answer where
  request : Request
  address : Except EncodeError Nat
  imageSize : Nat

/-- What the section occupies, if it has got an address. -/
def Answer.range? (a : Answer) : Option AddressRange :=
  a.address.toOption.map fun start => ⟨start, a.request.size⟩

/-- Whether the section has got an address. -/
def Answer.isOk (a : Answer) : Bool := a.address.isOk

/-- What the sections occupy that have got an address. -/
def ranges (answers : List Answer) : List AddressRange := answers.filterMap Answer.range?

/-- The requests that have not failed. -/
def kept (answers : List Answer) : List Request :=
  (answers.filter Answer.isOk).map (·.request)

/-- Answers one request. -/
def answer (c : AddressCursor) (r : Request) : Answer × AddressCursor :=
  let (address, next) := c.place r.name r.fixed r.size
  (⟨r, address, next.imageSize⟩, next)

/-- Answers requests in order, and goes on after one that fails. -/
def run (c : AddressCursor) (requests : List Request) : List Answer × AddressCursor :=
  mapState (fun r c => c.answer r) requests c

/-- All sums on the way stay below `2 ^ 64`: where the next free address is rounded up, where a
section has its fixed address, and where it ends. -/
def Fits (c : AddressCursor) : List Request → Prop
  | [] => c.next + (c.alignment - 1) < UInt64.size
  | r :: rest =>
    c.next + (c.alignment - 1) < UInt64.size ∧ (∀ rva ∈ r.fixed, c.base + rva < UInt64.size) ∧
      (c.answer r).2.next < UInt64.size ∧ (c.answer r).2.Fits rest

instance decidableFits : ∀ (c : AddressCursor) (requests : List Request), Decidable (c.Fits requests)
  | c, [] => inferInstanceAs (Decidable (c.next + (c.alignment - 1) < UInt64.size))
  | c, r :: rest =>
    have := decidableFits (c.answer r).2 rest
    inferInstanceAs (Decidable (_ ∧ (∀ rva ∈ r.fixed, _) ∧ _ ∧ (c.answer r).2.Fits rest))

theorem run_cons (c : AddressCursor) (r : Request) (rest : List Request) :
    c.run (r :: rest) = ((c.answer r).1 :: ((c.answer r).2.run rest).1, ((c.answer r).2.run rest).2) :=
  rfl

theorem Fits.start {c : AddressCursor} {requests : List Request} (h : c.Fits requests) :
    c.next + (c.alignment - 1) < UInt64.size := by
  cases requests with
  | nil => exact h
  | cons r rest => exact h.1

theorem Fits.tail {c : AddressCursor} {r : Request} {rest : List Request}
    (h : c.Fits (r :: rest)) : (c.answer r).2.Fits rest := h.2.2.2

/-! ## One request -/

/-- **What one request can do.**  The section gets its fixed address, or else the next free one, rounded
up, and never one below that; or its fixed address is below that, and nothing is given out. -/
theorem place_cases (c : AddressCursor) (name : String) (fixed : Option Nat) (size : Nat) :
    (∃ x, c.place name fixed size = (.ok x, { c with next := x + size }) ∧ c.aligned ≤ x ∧
      (∀ rva, fixed = some rva → x = c.base + rva) ∧ (fixed = none → x = c.aligned)) ∨
    (∃ e rva, c.place name fixed size = (.error e, { c with next := c.aligned }) ∧
      fixed = some rva ∧ c.base + rva < c.aligned) := by
  cases fixed with
  | none =>
    refine .inl ⟨c.aligned, rfl, Nat.le_refl _, fun rva h => ?_, fun _ => rfl⟩
    cases h
  | some rva =>
    rw [place.eq_def]
    dsimp only
    split
    · next hlt => exact .inr ⟨_, rva, rfl, rfl, hlt⟩
    · next hge =>
      refine .inl ⟨c.base + rva, rfl, Nat.le_of_not_lt hge, fun rva h => ?_, fun h => ?_⟩
      · cases h
        rfl
      · cases h

/-- What is known of an address that has been given out, and of the cursor then. -/
theorem place_of_eq_ok {c : AddressCursor} {name : String} {fixed : Option Nat} {size address : Nat}
    (h : (c.place name fixed size).1 = .ok address) :
    (c.place name fixed size).2 = { c with next := address + size } ∧ c.aligned ≤ address ∧
      (∀ rva, fixed = some rva → address = c.base + rva) ∧ (fixed = none → address = c.aligned) := by
  obtain ⟨x, hplace, hx⟩ | ⟨e, rva, hplace, -⟩ := c.place_cases name fixed size
  · rw [hplace] at h ⊢
    cases h
    exact ⟨rfl, hx⟩
  · rw [hplace] at h
    cases h

/-- What is asked of an answer where everything in front of `free` is taken: the request fails exactly
if it has a fixed address below `free`, rounded up; the section gets its fixed address, or else `free`,
rounded up; and the image ends behind everything that is taken then. -/
structure Answer.Right (base alignment free : Nat) (a : Answer) : Prop where
  failed : (∃ e, a.address = .error e) ↔
    ∃ rva, a.request.fixed = some rva ∧ base + rva < alignAddress free alignment
  fixed : ∀ x rva, a.address = .ok x → a.request.fixed = some rva → x = base + rva
  floating : ∀ x, a.address = .ok x → a.request.fixed = none → x = alignAddress free alignment ∧
    (isPowerOfTwo alignment = true → IsLeast {m | alignment ∣ m ∧ free ≤ m} x)
  imageSize : a.imageSize = alignAddress (behind free a.range?.toList) alignment - base

/-- The cursor gives out what a cursor at `free` gives out. -/
structure At (c : AddressCursor) (base alignment free : Nat) : Prop where
  base_eq : c.base = base
  alignment_eq : c.alignment = alignment
  le : free ≤ c.next
  aligned_eq : c.aligned = alignAddress free alignment

theorem at_self (c : AddressCursor) : c.At c.base c.alignment c.next := ⟨rfl, rfl, Nat.le_refl _, rfl⟩

theorem Fits.le_aligned {c : AddressCursor} {requests : List Request} (h : c.Fits requests) :
    c.next ≤ c.aligned :=
  le_alignAddress h.start

theorem Fits.alignment_le {c : AddressCursor} {requests : List Request} (h : c.Fits requests) :
    c.alignment ≤ UInt64.size := by
  have hstart := h.start
  omega

/-- Moving to the next free address, rounded up, moves nothing. -/
theorem aligned_moved {c : AddressCursor} {requests : List Request} (h : c.Fits requests) :
    ({ c with next := c.aligned } : AddressCursor).aligned = c.aligned :=
  alignAddress_alignAddress h.alignment_le c.next

/-- **One request.**  It is answered as it must be, and the cursor stands behind what is given out. -/
theorem right_answer {c : AddressCursor} {base alignment free : Nat} (hat : c.At base alignment free)
    {r : Request} {rest : List Request} (hfits : c.Fits (r :: rest)) :
    (c.answer r).1.Right base alignment free ∧
      (c.answer r).2.At base alignment (behind free (c.answer r).1.range?.toList) := by
  obtain ⟨rfl, rfl, hle, haligned⟩ := hat
  have hnext := hfits.le_aligned
  obtain ⟨x, hplace, hx, hfixed, hfloating⟩ | ⟨e, rva, hplace, hrva, hlt⟩ :=
    c.place_cases r.name r.fixed r.size
  · have hanswer : c.answer r = (⟨r, .ok x, ({ c with next := x + r.size } : AddressCursor).imageSize⟩,
        { c with next := x + r.size }) := by
      rw [answer, hplace]
    have hbehind : behind free [⟨x, r.size⟩] = x + r.size := by
      show max free (x + r.size) = x + r.size
      omega
    rw [hanswer]
    refine ⟨⟨⟨?_, ?_⟩, fun y rva hy hrva => ?_, fun y hy hrva => ?_, ?_⟩, rfl, rfl, ?_, ?_⟩
    · rintro ⟨e, he⟩
      cases he
    · rintro ⟨rva, hrva, hlt⟩
      rw [← haligned, ← hfixed rva hrva] at hlt
      exact absurd hx (Nat.not_le_of_lt hlt)
    · cases hy
      exact hfixed rva hrva
    · cases hy
      obtain rfl := hfloating hrva
      refine ⟨haligned, fun hpower => ?_⟩
      rw [haligned]
      exact isLeast_alignAddress hpower (Nat.lt_of_le_of_lt (Nat.add_le_add_right hle _) hfits.start)
    · show _ = alignAddress (behind free [⟨x, r.size⟩]) c.alignment - c.base
      rw [hbehind]
      rfl
    · show behind free [⟨x, r.size⟩] ≤ x + r.size
      rw [hbehind]
    · show _ = alignAddress (behind free [⟨x, r.size⟩]) c.alignment
      rw [hbehind]
      rfl
  · have hanswer : c.answer r = (⟨r, .error e,
        ({ c with next := c.aligned } : AddressCursor).imageSize⟩, { c with next := c.aligned }) := by
      rw [answer, hplace]
    rw [hanswer]
    refine ⟨⟨⟨fun _ => ⟨rva, hrva, haligned ▸ hlt⟩, fun _ => ⟨e, rfl⟩⟩, fun y _ hy => ?_,
      fun y hy => ?_, ?_⟩, rfl, rfl, Nat.le_trans hle hnext, ?_⟩
    · cases hy
    · cases hy
    · show _ - _ = alignAddress free c.alignment - c.base
      rw [aligned_moved hfits, haligned]
    · show _ = alignAddress free c.alignment
      rw [aligned_moved hfits, haligned]

/-! ## All requests -/

theorem ranges_cons (a : Answer) (answers : List Answer) :
    ranges (a :: answers) = a.range?.toList ++ ranges answers := by
  rw [ranges, List.filterMap_cons]
  cases a.range? <;> rfl

/-- **Every request is answered as it must be**, from what has been given out before it. -/
theorem right_run {c : AddressCursor} {base alignment free : Nat} (hat : c.At base alignment free)
    {requests : List Request} (hfits : c.Fits requests) :
    (∀ before a rest, (c.run requests).1 = before ++ a :: rest →
      a.Right base alignment (behind free (ranges before))) ∧
    (c.run requests).2.At base alignment (behind free (ranges (c.run requests).1)) := by
  induction requests generalizing c free with
  | nil =>
    refine ⟨fun before a rest hrun => ?_, hat⟩
    cases before <;> cases hrun
  | cons r rest ih =>
    obtain ⟨hright, hnext⟩ := right_answer hat hfits
    obtain ⟨hall, hlast⟩ := ih hnext hfits.tail
    rw [run_cons]
    refine ⟨fun before a after hrun => ?_, ?_⟩
    · cases before with
      | nil =>
        obtain ⟨rfl, -⟩ := List.cons.inj hrun
        exact hright
      | cons b before =>
        obtain ⟨rfl, htail⟩ := List.cons.inj hrun
        rw [ranges_cons, behind_append]
        exact hall before a after htail
    · rw [ranges_cons, behind_append]
      exact hlast

/-- **What is given out lies one behind the other**, behind the start and in front of the end. -/
theorem ranges_run {c : AddressCursor} {requests : List Request} (hfits : c.Fits requests) :
    (∀ r ∈ ranges (c.run requests).1, c.next ≤ r.start ∧ r.stop ≤ (c.run requests).2.next) ∧
    (ranges (c.run requests).1).Pairwise (fun r s => r.stop ≤ s.start) ∧
    c.next ≤ (c.run requests).2.next ∧ (c.run requests).2.Fits [] := by
  induction requests generalizing c with
  | nil =>
    refine ⟨fun r hr => ?_, List.Pairwise.nil, Nat.le_refl _, hfits⟩
    cases hr
  | cons r rest ih =>
    obtain ⟨hbounds, hpairwise, hle, hend⟩ := ih hfits.tail
    have hnext := hfits.le_aligned
    rw [run_cons, ranges_cons]
    obtain ⟨x, hplace, hx, -⟩ | ⟨e, rva, hplace, -, -⟩ := c.place_cases r.name r.fixed r.size
    · have hrange : (c.answer r).1.range? = some ⟨x, r.size⟩ := by
        rw [answer, hplace]
        rfl
      have hcursor : (c.answer r).2.next = x + r.size := by
        rw [answer, hplace]
      rw [hcursor] at hbounds hle
      rw [hrange]
      have hstart : c.next ≤ x + r.size := by omega
      exact ⟨List.forall_mem_cons.2 ⟨⟨Nat.le_trans hnext hx, hle⟩, fun s hs =>
          ⟨Nat.le_trans hstart (hbounds s hs).1, (hbounds s hs).2⟩⟩,
        List.pairwise_cons.2 ⟨fun s hs => (hbounds s hs).1, hpairwise⟩, Nat.le_trans hstart hle, hend⟩
    · have hrange : (c.answer r).1.range? = none := by
        rw [answer, hplace]
        rfl
      have hcursor : (c.answer r).2.next = c.aligned := by
        rw [answer, hplace]
      rw [hcursor] at hbounds hle
      rw [hrange]
      exact ⟨fun s hs => ⟨Nat.le_trans hnext (hbounds s hs).1, (hbounds s hs).2⟩, hpairwise,
        Nat.le_trans hnext hle, hend⟩

/-! ## Requests that fail -/

/-- Two cursors that give out the same. -/
structure Same (c c' : AddressCursor) : Prop where
  base : c'.base = c.base
  alignment : c'.alignment = c.alignment
  aligned : c'.aligned = c.aligned

theorem Same.refl (c : AddressCursor) : c.Same c := ⟨rfl, rfl, rfl⟩

theorem Same.imageSize {c c' : AddressCursor} (h : c.Same c') : c'.imageSize = c.imageSize := by
  rw [AddressCursor.imageSize, AddressCursor.imageSize, h.aligned, h.base]

theorem Same.answer_eq {c c' : AddressCursor} (h : c.Same c') (r : Request) :
    c'.answer r = c.answer r := by
  obtain ⟨base, next, alignment⟩ := c
  obtain ⟨base', next', alignment'⟩ := c'
  obtain ⟨hbase, halignment, haligned⟩ := h
  dsimp only at hbase halignment
  subst hbase halignment
  rw [answer, answer, place.eq_def, place.eq_def, haligned]

/-- **Requests that fail may as well be left out**: the others have the same answers without them, and
the image has the same size. -/
theorem run_kept {c c' : AddressCursor} (hsame : c.Same c') {requests : List Request}
    (hfits : c.Fits requests) :
    (c'.run (kept (c.run requests).1)).1 = (c.run requests).1.filter Answer.isOk ∧
      (c.run requests).2.Same (c'.run (kept (c.run requests).1)).2 := by
  induction requests generalizing c c' with
  | nil => exact ⟨rfl, hsame⟩
  | cons r rest ih =>
    rw [run_cons, kept]
    dsimp only
    obtain ⟨x, hplace, -, -⟩ | ⟨e, rva, hplace, -, -⟩ := c.place_cases r.name r.fixed r.size
    · have hok : (c.answer r).1.isOk = true := by
        rw [answer, hplace]
        rfl
      have hrequest : (c.answer r).1.request = r := rfl
      obtain ⟨hanswers, hlast⟩ := ih (Same.refl (c.answer r).2) hfits.tail
      rw [List.filter_cons_of_pos hok, List.map_cons, hrequest, run_cons, hsame.answer_eq]
      exact ⟨congrArg _ hanswers, hlast⟩
    · have hfailed : ¬ (c.answer r).1.isOk = true := by
        rw [answer, hplace]
        exact Bool.false_ne_true
      have hmoved : (c.answer r).2 = { c with next := c.aligned } := by
        rw [answer, hplace]
      rw [List.filter_cons_of_neg hfailed]
      refine ih ?_ hfits.tail
      rw [hmoved]
      exact ⟨hsame.base, hsame.alignment, hsame.aligned.trans (aligned_moved hfits).symm⟩

theorem map_request_run (c : AddressCursor) (requests : List Request) :
    (c.run requests).1.map (·.request) = requests := by
  induction requests generalizing c with
  | nil => rfl
  | cons r rest ih => exact congrArg (r :: ·) (ih (c.answer r).2)

/-- **A run behind the headers.**  Where all sums stay below `2 ^ 64`, every request is answered as it
must be, from what has been given out before it; what is given out lies one behind the other, behind
the headers and inside the image; and requests that fail may as well be left out, for no answer to
another request depends on them, nor does the size of the image. -/
theorem run_laws {base headersSize alignment : Nat} {requests : List Request}
    {answers : List Answer} {last : AddressCursor}
    (hfits : (new base headersSize alignment).Fits requests)
    (hrun : (new base headersSize alignment).run requests = (answers, last)) :
    answers.map (·.request) = requests ∧
    (∀ before a rest, answers = before ++ a :: rest →
      a.Right base alignment (behind (base + headersSize) (ranges before))) ∧
    (ranges answers).Pairwise (fun r s => r.stop ≤ s.start) ∧
    (∀ r ∈ ranges answers, base + headersSize ≤ r.start ∧ r.stop ≤ base + last.imageSize) ∧
    ∃ last', (new base headersSize alignment).run (kept answers) =
        (answers.filter Answer.isOk, last') ∧ last'.imageSize = last.imageSize := by
  obtain ⟨hright, hat⟩ := right_run (at_self (new base headersSize alignment)) hfits
  obtain ⟨hbounds, hpairwise, -, hend⟩ := ranges_run hfits
  obtain ⟨hkept, hsame⟩ := run_kept (Same.refl (new base headersSize alignment)) hfits
  have hrequests := map_request_run (new base headersSize alignment) requests
  rw [hrun] at hright hat hbounds hpairwise hend hkept hsame hrequests
  refine ⟨hrequests, hright, hpairwise, fun r hr => ⟨(hbounds r hr).1, ?_⟩,
    _, Prod.ext hkept rfl, hsame.imageSize⟩
  have hstop : r.stop ≤ last.aligned := Nat.le_trans (hbounds r hr).2 hend.le_aligned
  have hbase : last.base = base := hat.base_eq
  rw [AddressCursor.imageSize, hbase]
  omega

/-- Four sections, of which the third has a fixed address that lies in the second. -/
def overlapping : List Request :=
  [⟨".text", none, 0x10⟩, ⟨".data", some 0x5000, 0x1800⟩, ⟨".late", some 0x6000, 4⟩,
    ⟨".bss", none, 0x20⟩]

theorem run_laws_overlapping :
    (new 0x400000 0x400 0x1000).Fits overlapping ∧
    ∃ answers last, (new 0x400000 0x400 0x1000).run overlapping = (answers, last) ∧
      ranges answers = [⟨0x401000, 0x10⟩, ⟨0x405000, 0x1800⟩, ⟨0x407000, 0x20⟩] ∧
      IsLeast {m | 0x1000 ∣ m ∧ 0x406800 ≤ m} 0x407000 ∧ last.imageSize = 0x8000 ∧
      ∃ last', (new 0x400000 0x400 0x1000).run
          [⟨".text", none, 0x10⟩, ⟨".data", some 0x5000, 0x1800⟩, ⟨".bss", none, 0x20⟩] =
        (answers.filter Answer.isOk, last') ∧ last'.imageSize = 0x8000 := by
  have hfits : (new 0x400000 0x400 0x1000).Fits overlapping := by decide +kernel
  generalize hrun : (new 0x400000 0x400 0x1000).run overlapping = r
  have hranges : ranges r.1 = [⟨0x401000, 0x10⟩, ⟨0x405000, 0x1800⟩, ⟨0x407000, 0x20⟩] := by
    subst hrun
    decide +kernel
  have hfree : behind (0x400000 + 0x400) (ranges (r.1.take 3)) = 0x406800 := by
    subst hrun
    decide +kernel
  have hlast : (r.1.drop 3).map (fun a => (a.address.toOption, a.request.fixed)) =
      [(some 0x407000, none)] := by
    subst hrun
    decide +kernel
  have hkept : kept r.1 =
      [⟨".text", none, 0x10⟩, ⟨".data", some 0x5000, 0x1800⟩, ⟨".bss", none, 0x20⟩] := by
    subst hrun
    decide +kernel
  have hsize : r.2.imageSize = 0x8000 := by
    subst hrun
    decide +kernel
  obtain ⟨-, hright, -, -, hwithout⟩ := run_laws hfits hrun
  rw [hkept, hsize] at hwithout
  obtain ⟨a, hdrop, ha⟩ := List.map_eq_singleton_iff.1 hlast
  obtain ⟨haddress, hfloating⟩ := Prod.mk.inj ha
  have hsplit : r.1 = r.1.take 3 ++ [a] := by
    rw [← hdrop, List.take_append_drop]
  have hanswer := hright _ _ _ hsplit
  rw [hfree] at hanswer
  obtain ⟨-, hleast⟩ := hanswer.floating 0x407000 (toOption_eq_some.1 haddress) hfloating
  exact ⟨hfits, r.1, r.2, rfl, hranges, hleast (by decide +kernel), hsize, hwithout⟩

end AddressCursor

end PortableImage
