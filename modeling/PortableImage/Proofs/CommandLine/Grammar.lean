import Mathlib.Data.List.Sublists
import PortableImage.CommandLine.Value
import PortableImage.Proofs.CommandLine.Numerals

/-!
# How the values of options are written

The forms `NAME:PERMS:FILE[:BASE]`, `NAME=SECTION[+OFFSET]`, `LIB:SYMBOL` and `LIB:#ORDINAL` as relations
between a value and its texts.  A separator may stand in the parts behind the first one, so what a part
must not contain is part of the form.

## What is here

* `SectionFlags.Word` — a permission word: some of the words of the permissions, in their order.
* `SectionValue.Written`, `ExportValue.Written`, `ImportValue.Written` — the forms.
* `SectionValue.spelled`, `ExportValue.spelled`, `ImportValue.spelled` — one text of each value.
* `parse_iff_written` — **a text is read as a value exactly if it is written like that**, and what is
  printed of the value is read again as the same value.
-/

set_option autoImplicit false

namespace PortableImage

/-! ## Permission words -/

namespace SectionFlags

/-- The flags of words together. -/
def union (words : List (String × SectionFlags)) : SectionFlags :=
  words.foldr (fun e flags => e.2 ||| flags) none

/-- Whatever the case of its letters, the text is some of the words of the permissions, each at most
once and in their order, and names their flags. -/
def Word (flags : SectionFlags) (text : String) : Prop :=
  ∃ words : List (String × SectionFlags),
    words.Sublist [("r", read), ("w", write), ("x", execute), ("shared", shared),
      ("discard", discardable)] ∧
    text.toList.map Char.toLower = words.flatMap (·.1.toList) ∧ flags = union words

/-- The words of the permissions among the flags, one behind the other. -/
def word (flags : SectionFlags) : String :=
  .ofList ((permissionWords.filter fun e => flags.contains e.2).flatMap (·.1.toList))

theorem dropWord_eq_some {word s rest : List Char} :
    dropWord word s = some rest ↔ s = word ++ rest := by
  induction word generalizing s with
  | nil => simp [dropWord]
  | cons c word ih =>
    cases s with
    | nil => simp [dropWord]
    | cons d s =>
      rw [dropWord]
      by_cases h : c = d
      · subst h
        rw [if_pos rfl, ih, List.cons_append, List.cons_inj_right]
      · rw [if_neg h, List.cons_append, List.cons.injEq]
        exact ⟨nofun, fun heq => absurd heq.1.symm h⟩

/-- Words that begin with letters of their own. -/
def HeadsDiffer (words : List (String × SectionFlags)) : Prop :=
  (∀ e ∈ words, e.1.toList ≠ []) ∧
    words.Pairwise fun e e' => e.1.toList.head? ≠ e'.1.toList.head?

/-- **Taking each word that stands in front is the only way to read words one behind the other**, when
no two words begin with the same letter. -/
theorem readWords_eq_some {words : List (String × SectionFlags)} (h : HeadsDiffer words) {s : List Char}
    {flags : SectionFlags} : readWords words s = some flags ↔
      ∃ chosen : List (String × SectionFlags), chosen.Sublist words ∧
        s = chosen.flatMap (·.1.toList) ∧ flags = union chosen := by
  induction words generalizing s flags with
  | nil =>
    rw [readWords]
    constructor
    · intro hread
      split at hread
      · next hs =>
        cases hread
        exact ⟨[], .slnil, List.isEmpty_iff.1 hs, rfl⟩
      · exact nomatch hread
    · rintro ⟨chosen, hchosen, rfl, rfl⟩
      rw [List.sublist_nil.1 hchosen]
      rfl
  | cons e words ih =>
    obtain ⟨word, flag⟩ := e
    obtain ⟨hhead, hpairwise⟩ := List.pairwise_cons.1 h.2
    have hne : word.toList ≠ [] := h.1 _ List.mem_cons_self
    replace ih := fun s flags =>
      @ih ⟨fun e he => h.1 e (List.mem_cons_of_mem _ he), hpairwise⟩ s flags
    rw [readWords]
    cases hdrop : dropWord word.toList s with
    | some rest =>
      rw [dropWord_eq_some] at hdrop
      subst hdrop
      constructor
      · intro hread
        obtain ⟨flags', hrest, rfl⟩ := Option.map_eq_some_iff.1 hread
        obtain ⟨chosen, hchosen, rfl, rfl⟩ := (ih _ _).1 hrest
        exact ⟨(word, flag) :: chosen, hchosen.cons_cons _, rfl, rfl⟩
      · rintro ⟨chosen, hchosen, heq, rfl⟩
        cases hchosen with
        | @cons_cons others _ _ hchosen =>
          refine Option.map_eq_some_iff.2 ⟨union others, (ih _ _).2 ⟨others, hchosen, ?_, rfl⟩, rfl⟩
          exact List.append_cancel_left heq
        | cons _ hchosen =>
          -- the text begins with the word, and no other word does so
          exfalso
          cases chosen with
          | nil => exact hne (List.append_eq_nil_iff.1 heq).1
          | cons e others =>
            have hmem : e ∈ words := hchosen.subset List.mem_cons_self
            have heads := congrArg List.head? heq
            rw [List.flatMap_cons, List.head?_append_of_ne_nil _ hne,
              List.head?_append_of_ne_nil _ (h.1 e (List.mem_cons_of_mem _ hmem))] at heads
            exact hhead e hmem heads
    | none =>
      refine (ih _ _).trans ⟨?_, ?_⟩
      · rintro ⟨chosen, hchosen, hs, hflags⟩
        exact ⟨chosen, hchosen.cons _, hs, hflags⟩
      · rintro ⟨chosen, hchosen, rfl, rfl⟩
        cases hchosen with
        | cons_cons _ hchosen =>
          exact nomatch hdrop.symm.trans (dropWord_eq_some.2 rfl)
        | cons _ hchosen => exact ⟨chosen, hchosen, rfl, rfl⟩

theorem headsDiffer_permissionWords : HeadsDiffer permissionWords := by
  rw [HeadsDiffer]
  decide +kernel

/-- **Exactly the permission words are read**, and as the flags that they name. -/
theorem ofWord_eq_some {text : String} {flags : SectionFlags} :
    ofWord text = some flags ↔ flags.Word text :=
  readWords_eq_some headsDiffer_permissionWords

/-- No letter of a permission word is a colon. -/
theorem Word.notMem_colon {flags : SectionFlags} {text : String} (h : flags.Word text) :
    ':' ∉ text.toList := by
  obtain ⟨words, hwords, htext, -⟩ := h
  intro hmem
  have hlower : ':' ∈ text.toList.map Char.toLower := List.mem_map.2 ⟨':', hmem, rfl⟩
  rw [htext, List.mem_flatMap] at hlower
  obtain ⟨e, he, hcolon⟩ := hlower
  have hall : ∀ e ∈ permissionWords, ':' ∉ e.1.toList := by decide +kernel
  exact hall e (hwords.subset he) hcolon

/-- The flags of a permission word are named by the word that is printed of them. -/
theorem Word.word {flags : SectionFlags} {text : String} (h : flags.Word text) :
    flags.Word flags.word := by
  obtain ⟨words, hwords, -, rfl⟩ := h
  refine ⟨permissionWords.filter fun e => (union words).contains e.2, List.filter_sublist, ?_, ?_⟩
  · have hlower : ∀ e ∈ permissionWords, e.1.toList.map Char.toLower = e.1.toList := by
      decide +kernel
    rw [SectionFlags.word, String.toList_ofList, List.map_flatMap]
    exact List.flatMap_congr fun e he => hlower e (List.mem_of_mem_filter he)
  · have hall : ∀ words ∈ permissionWords.sublists,
        union words = union (permissionWords.filter fun e => (union words).contains e.2) := by
      decide +kernel
    exact hall words (List.mem_sublists.2 hwords)

end SectionFlags

namespace CommandLine

/-! ## The forms -/

/-- A part of a value that is there and does not contain the separator behind it. -/
def IsPart (separator : Char) (part : String) : Prop := part ≠ "" ∧ separator ∉ part.toList

/-- `NAME:PERMS:FILE` or `NAME:PERMS:FILE:BASE`. -/
inductive SectionValue.Written : SectionValue → String → Prop
  | floating {name word file : String} {flags : SectionFlags} (hname : IsPart ':' name)
      (hword : flags.Word word) (hfile : IsPart ':' file) :
      Written ⟨name, flags, file, none⟩ (name ++ ":" ++ word ++ ":" ++ file)
  | fixed {name word file number : String} {flags : SectionFlags} {base : UInt32}
      (hname : IsPart ':' name) (hword : flags.Word word) (hfile : IsPart ':' file)
      (hbase : Numeral base.toNat number) :
      Written ⟨name, flags, file, some base⟩
        (name ++ ":" ++ word ++ ":" ++ file ++ ":" ++ number)

/-- `SECTION` or `SECTION+OFFSET`. -/
inductive Position.Written : Position → String → Prop
  | start {name : String} (hname : IsPart '+' name) : Written ⟨name, 0⟩ name
  | behind {name number : String} {offset : UInt32} (hname : IsPart '+' name)
      (hoffset : Numeral offset.toNat number) : Written ⟨name, offset⟩ (name ++ "+" ++ number)

/-- `NAME=SECTION` or `NAME=SECTION+OFFSET`. -/
inductive ExportValue.Written : ExportValue → String → Prop
  | intro {name text : String} {position : Position} (hname : IsPart '=' name)
      (hposition : position.Written text) : Written ⟨name, position⟩ (name ++ "=" ++ text)

/-- `LIB:SYMBOL` or `LIB:#ORDINAL`. -/
inductive ImportValue.Written : ImportValue → String → Prop
  | byName {library symbol : String} (hlibrary : IsPart ':' library) (hsymbol : symbol ≠ "")
      (hhash : symbol.toList.head? ≠ some '#') :
      Written ⟨library, .name symbol⟩ (library ++ ":" ++ symbol)
  | byOrdinal {library number : String} {ordinal : UInt16} (hlibrary : IsPart ':' library)
      (hordinal : Numeral ordinal.toNat number) :
      Written ⟨library, .ordinal ordinal⟩ (library ++ ":#" ++ number)

/-! ## Printing -/

/-- The parts of a section, printed. -/
def SectionValue.spelled (v : SectionValue) : String :=
  v.name ++ ":" ++ v.flags.word ++ ":" ++ v.file ++
    match v.base with
    | none => ""
    | some base => ":" ++ toString base.toNat

/-- The parts of an export, printed. -/
def ExportValue.spelled (v : ExportValue) : String :=
  v.name ++ "=" ++ (v.position.sectionName ++ "+" ++ toString v.position.offset.toNat)

/-- The parts of an import, printed. -/
def ImportValue.spelled (v : ImportValue) : String :=
  match v.symbol with
  | .name symbol => v.library ++ ":" ++ symbol
  | .ordinal ordinal => v.library ++ ":#" ++ toString ordinal.toNat

/-! ## Separators -/

/-- A text is cut at its first separator, or not at all. -/
theorem cut_spec (separator : Char) (s : List Char) :
    (cut separator s).1 ++ (cut separator s).2.elim [] (separator :: ·) = s ∧
      separator ∉ (cut separator s).1 := by
  induction s with
  | nil => exact ⟨rfl, nofun⟩
  | cons c rest ih =>
    rw [cut]
    by_cases h : c = separator
    · rw [if_pos h, h]
      exact ⟨rfl, nofun⟩
    · rw [if_neg h]
      exact ⟨congrArg (c :: ·) ih.1, List.not_mem_cons_of_ne_of_not_mem (Ne.symm h) ih.2⟩

theorem cut_append {separator : Char} {before : List Char} (h : separator ∉ before)
    (behind : Option (List Char)) :
    cut separator (before ++ behind.elim [] (separator :: ·)) = (before, behind) := by
  induction before with
  | nil =>
    cases behind with
    | none => rfl
    | some behind => exact if_pos rfl
  | cons c before ih =>
    obtain ⟨hc, hbefore⟩ := List.ne_and_not_mem_of_not_mem_cons h
    rw [List.cons_append, cut, if_neg (Ne.symm hc), ih hbefore]

/-- What is cut off in front does not contain the separator, and the rest is behind it. -/
theorem cut_eq {separator : Char} {s before : List Char} {behind : Option (List Char)} :
    cut separator s = (before, behind) ↔
      s = before ++ behind.elim [] (separator :: ·) ∧ separator ∉ before := by
  constructor
  · intro h
    have hspec := cut_spec separator s
    rw [h] at hspec
    exact ⟨hspec.1.symm, hspec.2⟩
  · rintro ⟨rfl, h⟩
    exact cut_append h behind

theorem isPart_ofList {separator : Char} {part : List Char} (hne : part.isEmpty = false)
    (h : separator ∉ part) : IsPart separator (String.ofList part) := by
  refine ⟨fun heq => ?_, by rwa [String.toList_ofList]⟩
  rw [String.ofList_eq_empty_iff.1 heq] at hne
  exact nomatch hne

theorem IsPart.isEmpty {separator : Char} {part : String} (h : IsPart separator part) :
    part.toList.isEmpty = false := by
  rw [List.isEmpty_eq_false_iff, ne_eq, String.toList_eq_nil_iff]
  exact h.1

/-! ## Reading -/

theorem wordPart_eq_ok {digits : List Char} {w : UInt32} :
    wordPart digits = .ok w ↔ Numeral w.toNat (String.ofList digits) := by
  rw [wordPart, mapError_eq_ok, parseWord_eq_ok]

theorem wordPart_of_numeral {number : String} {w : UInt32} (h : Numeral w.toNat number) :
    wordPart number.toList = .ok w := by
  rw [wordPart_eq_ok, String.ofList_toList]
  exact h

/-! ### Sections -/

/-- The parts of a section are read, and then its address. -/
theorem SectionValue.parse_of_parts {text name word file : String} {flags : SectionFlags}
    (base : Option (List Char)) (hname : IsPart ':' name) (hword : flags.Word word)
    (hfile : IsPart ':' file) (htext : text.toList = name.toList ++ ':' :: (word.toList ++
      ':' :: (file.toList ++ base.elim [] (':' :: ·)))) :
    SectionValue.parse text = baseOf base >>= fun base => .ok ⟨name, flags, file, base⟩ := by
  have hcut : cut ':' text.toList = (name.toList, some _) := cut_eq.2 ⟨htext, hname.2⟩
  have hcut' : cut ':' (word.toList ++ ':' :: (file.toList ++ base.elim [] (':' :: ·))) =
      (word.toList, some _) := cut_eq.2 ⟨rfl, hword.notMem_colon⟩
  rw [SectionValue.parse, hcut]
  dsimp only
  rw [hcut']
  dsimp only
  rw [cut_append hfile.2, hname.isEmpty, hfile.isEmpty, String.ofList_toList, String.ofList_toList,
    String.ofList_toList, SectionFlags.ofWord_eq_some.2 hword]
  rfl

/-- The parts of a text that is read as a section. -/
theorem SectionValue.exists_parts {text : String} {v : SectionValue}
    (h : SectionValue.parse text = .ok v) : ∃ (word : String) (base : Option (List Char)),
      text.toList = v.name.toList ++ ':' :: (word.toList ++ ':' :: (v.file.toList ++
        base.elim [] (':' :: ·))) ∧
      IsPart ':' v.name ∧ v.flags.Word word ∧ IsPart ':' v.file ∧ baseOf base = .ok v.base := by
  unfold SectionValue.parse at h
  split at h
  · exact nomatch h
  · next name rest hcut =>
    split at h
    · exact nomatch h
    · next word rest' hcut' =>
      obtain ⟨htext, hname⟩ := cut_eq.1 hcut
      obtain ⟨rfl, -⟩ := cut_eq.1 hcut'
      cases hlast : cut ':' rest' with
      | mk file base =>
      obtain ⟨rfl, hfile⟩ := cut_eq.1 hlast
      rw [hlast] at h
      dsimp only at h
      split at h
      · exact nomatch h
      · next hparts =>
        obtain ⟨hn, hf⟩ : name.isEmpty = false ∧ file.isEmpty = false := by simpa using hparts
        split at h
        · exact nomatch h
        · next flags hflags =>
          obtain ⟨base', hbase, hv⟩ := bind_eq_ok.1 h
          cases hv
          refine ⟨String.ofList word, base, ?_, isPart_ofList hn hname,
            SectionFlags.ofWord_eq_some.1 hflags, isPart_ofList hf hfile, hbase⟩
          simpa using htext

/-- **A text is read as a section exactly if it is written like that.** -/
theorem SectionValue.parse_eq_ok {text : String} {v : SectionValue} :
    SectionValue.parse text = .ok v ↔ v.Written text := by
  constructor
  · intro h
    obtain ⟨word, digits, htext, hname, hword, hfile, hbase⟩ := exists_parts h
    obtain ⟨name, flags, file, base⟩ := v
    cases digits with
    | none =>
      cases hbase
      have heq : text = name ++ ":" ++ word ++ ":" ++ file :=
        String.toList_inj.1 (by simp [htext])
      rw [heq]
      exact .floating hname hword hfile
    | some digits =>
      obtain ⟨w, hw, hb⟩ := map_eq_ok.1 hbase
      cases hb
      have heq : text = name ++ ":" ++ word ++ ":" ++ file ++ ":" ++ String.ofList digits :=
        String.toList_inj.1 (by simp [htext])
      rw [heq]
      exact .fixed hname hword hfile (wordPart_eq_ok.1 hw)
  · intro h
    cases h with
    | floating hname hword hfile =>
      rw [parse_of_parts none hname hword hfile (by simp)]
      rfl
    | @fixed name word file number flags base hname hword hfile hbase =>
      rw [parse_of_parts (some number.toList) hname hword hfile (by simp), baseOf,
        wordPart_of_numeral hbase]
      rfl

/-! ### Exports -/

/-- The offset is read before it is known whether there is a name. -/
theorem Position.parse_of_cut {text : String} {name : List Char} {digits : Option (List Char)}
    (h : cut '+' text.toList = (name, digits)) :
    Position.parse text = digits.elim (.ok 0) wordPart >>= fun offset =>
      if name.isEmpty then .error (.noSectionName text) else .ok ⟨String.ofList name, offset⟩ := by
  rw [Position.parse, h]
  cases digits with
  | none => rfl
  | some digits => rfl

/-- **A text is read as a position exactly if it is written like that.** -/
theorem Position.parse_eq_ok {text : String} {p : Position} :
    Position.parse text = .ok p ↔ p.Written text := by
  constructor
  · intro h
    cases hcut : cut '+' text.toList with
    | mk name digits =>
    obtain ⟨htext, hname⟩ := cut_eq.1 hcut
    rw [parse_of_cut hcut] at h
    obtain ⟨offset, hoffset, h⟩ := bind_eq_ok.1 h
    split at h
    · exact nomatch h
    · next hne =>
      cases h
      replace hname := isPart_ofList (by simpa using hne) hname
      cases digits with
      | none =>
        cases hoffset
        have heq : text = String.ofList name := String.toList_inj.1 (by simp [htext])
        rw [heq]
        exact .start hname
      | some digits =>
        have heq : text = String.ofList name ++ "+" ++ String.ofList digits :=
          String.toList_inj.1 (by simp [htext])
        rw [heq]
        exact .behind hname (wordPart_eq_ok.1 hoffset)
  · intro h
    cases h with
    | start hname =>
      have hcut : cut '+' text.toList = (text.toList, none) := cut_eq.2 ⟨by simp, hname.2⟩
      rw [parse_of_cut hcut, hname.isEmpty, String.ofList_toList]
      rfl
    | @behind name number offset hname hoffset =>
      have hcut : cut '+' (name ++ "+" ++ number).toList = (name.toList, some number.toList) :=
        cut_eq.2 ⟨by simp, hname.2⟩
      rw [parse_of_cut hcut, hname.isEmpty, String.ofList_toList, Option.elim_some,
        wordPart_of_numeral hoffset]
      rfl

/-- **A text is read as an export exactly if it is written like that.** -/
theorem ExportValue.parse_eq_ok {text : String} {v : ExportValue} :
    ExportValue.parse text = .ok v ↔ v.Written text := by
  constructor
  · intro h
    unfold ExportValue.parse at h
    split at h
    · exact nomatch h
    · next name rest hcut =>
      obtain ⟨htext, hname⟩ := cut_eq.1 hcut
      split at h
      · exact nomatch h
      · next hne =>
        obtain ⟨position, hposition, h⟩ := bind_eq_ok.1 h
        cases h
        have heq : text = String.ofList name ++ "=" ++ String.ofList rest :=
          String.toList_inj.1 (by simp [htext])
        rw [heq]
        exact .intro (isPart_ofList (by simpa using hne) hname)
          (Position.parse_eq_ok.1 hposition)
  · intro h
    cases h with
    | @intro name rest position hname hposition =>
    have hcut : cut '=' (name ++ "=" ++ rest).toList = (name.toList, some rest.toList) :=
      cut_eq.2 ⟨by simp, hname.2⟩
    rw [ExportValue.parse, hcut]
    dsimp only
    rw [hname.isEmpty, String.ofList_toList, String.ofList_toList, Position.parse_eq_ok.2 hposition]
    rfl

/-! ### Imports -/

/-- Behind a hash sign stands a number, and everything else is a name. -/
theorem ImportSymbol.parse_eq_ok {symbol : List Char} {s : ImportSymbol} :
    ImportSymbol.parse symbol = .ok s ↔
      (∃ digits ordinal, symbol = '#' :: digits ∧ s = .ordinal ordinal ∧
        Numeral ordinal.toNat (String.ofList digits)) ∨
      symbol.head? ≠ some '#' ∧ s = .name (String.ofList symbol) := by
  unfold ImportSymbol.parse
  split
  · next digits =>
    simp only [bind_eq_ok, mapError_eq_ok, parseNumber_eq_ok]
    constructor
    · rintro ⟨n, hn, h⟩
      split at h
      · next hlt =>
        cases h
        refine .inl ⟨digits, UInt16.ofNat n, rfl, rfl, ?_⟩
        rw [UInt16.toNat_ofNat_of_lt' hlt]
        exact hn
      · exact nomatch h
    · rintro (⟨_, ordinal, heq, rfl, hordinal⟩ | ⟨hhash, -⟩)
      · cases heq
        refine ⟨ordinal.toNat, hordinal, ?_⟩
        rw [if_pos ordinal.toNat_lt, UInt16.ofNat_toNat]
        rfl
      · exact absurd rfl hhash
  · next hne =>
    constructor
    · intro h
      cases h
      refine .inr ⟨fun hhash => ?_, rfl⟩
      obtain ⟨rest, rfl⟩ := List.head?_eq_some_iff.1 hhash
      exact hne rest rfl
    · rintro (⟨digits, -, rfl, -⟩ | ⟨-, rfl⟩)
      · exact absurd rfl (hne digits)
      · rfl

theorem ImportValue.parse_of_cut {text library : String} {symbol : List Char} {s : ImportSymbol}
    (hlibrary : IsPart ':' library) (htext : text.toList = library.toList ++ ':' :: symbol)
    (hne : symbol.isEmpty = false) (h : ImportSymbol.parse symbol = .ok s) :
    ImportValue.parse text = .ok ⟨library, s⟩ := by
  have hcut : cut ':' text.toList = (library.toList, some symbol) :=
    cut_eq.2 ⟨htext, hlibrary.2⟩
  rw [ImportValue.parse, hcut]
  dsimp only
  rw [hlibrary.isEmpty, hne, String.ofList_toList, h]
  rfl

/-- **A text is read as an import exactly if it is written like that.** -/
theorem ImportValue.parse_eq_ok {text : String} {v : ImportValue} :
    ImportValue.parse text = .ok v ↔ v.Written text := by
  constructor
  · intro h
    unfold ImportValue.parse at h
    split at h
    · exact nomatch h
    · next library symbol hcut =>
      obtain ⟨htext, hlibrary⟩ := cut_eq.1 hcut
      split at h
      · exact nomatch h
      · next hparts =>
        obtain ⟨hl, hs⟩ : library.isEmpty = false ∧ symbol.isEmpty = false := by simpa using hparts
        obtain ⟨s, hsymbol, h⟩ := bind_eq_ok.1 h
        cases h
        replace hlibrary := isPart_ofList hl hlibrary
        rcases ImportSymbol.parse_eq_ok.1 hsymbol with
          ⟨digits, ordinal, rfl, rfl, hordinal⟩ | ⟨hhash, rfl⟩
        · have heq : text = String.ofList library ++ ":#" ++ String.ofList digits :=
            String.toList_inj.1 (by simp [htext])
          rw [heq]
          exact .byOrdinal hlibrary hordinal
        · have heq : text = String.ofList library ++ ":" ++ String.ofList symbol :=
            String.toList_inj.1 (by simp [htext])
          rw [heq]
          exact .byName hlibrary (mt String.ofList_eq_empty_iff.1 (List.isEmpty_eq_false_iff.1 hs))
            (by rwa [String.toList_ofList])
  · intro h
    cases h with
    | @byName library symbol hlibrary hsymbol hhash =>
      have htext : (library ++ ":" ++ symbol).toList = library.toList ++ ':' :: symbol.toList := by
        simp
      refine parse_of_cut hlibrary htext (by simpa using hsymbol)
        (ImportSymbol.parse_eq_ok.2 (.inr ⟨hhash, ?_⟩))
      rw [String.ofList_toList]
    | @byOrdinal library number ordinal hlibrary hordinal =>
      have htext : (library ++ ":#" ++ number).toList =
          library.toList ++ ':' :: '#' :: number.toList := by simp
      refine parse_of_cut hlibrary htext rfl
        (ImportSymbol.parse_eq_ok.2 (.inl ⟨number.toList, ordinal, rfl, rfl, ?_⟩))
      rw [String.ofList_toList]
      exact hordinal

/-! ## Printing and reading again -/

/-- The parts of a section that is written are written when they are printed. -/
theorem SectionValue.Written.spelled {v : SectionValue} {text : String} (h : v.Written text) :
    v.Written v.spelled := by
  cases h with
  | floating hname hword hfile =>
    rw [SectionValue.spelled, String.append_empty]
    exact .floating hname hword.word hfile
  | fixed hname hword hfile hbase =>
    rw [SectionValue.spelled, ← String.append_assoc]
    exact .fixed hname hword.word hfile (numeral_toString hbase.lt)

theorem ExportValue.Written.spelled {v : ExportValue} {text : String} (h : v.Written text) :
    v.Written v.spelled := by
  obtain ⟨hname, hposition⟩ := h
  refine .intro hname ?_
  cases hposition with
  | start hsection => exact .behind hsection (numeral_toString (by decide))
  | behind hsection hoffset => exact .behind hsection (numeral_toString hoffset.lt)

theorem ImportValue.Written.spelled {v : ImportValue} {text : String} (h : v.Written text) :
    v.Written v.spelled := by
  cases h with
  | byName hlibrary hsymbol hhash => exact .byName hlibrary hsymbol hhash
  | byOrdinal hlibrary hordinal => exact .byOrdinal hlibrary (numeral_toString hordinal.lt)

/-- **A text is read as a value exactly if it is a text of the value in the form of its kind.**  What is
read has just the parts, flags and numbers of the text, so that it can be printed and read again. -/
theorem parse_iff_written (text : String) :
    (∀ v, SectionValue.parse text = .ok v ↔ v.Written text) ∧
    (∀ v, ExportValue.parse text = .ok v ↔ v.Written text) ∧
    (∀ v, ImportValue.parse text = .ok v ↔ v.Written text) ∧
    (∀ v, SectionValue.parse text = .ok v → SectionValue.parse v.spelled = .ok v) ∧
    (∀ v, ExportValue.parse text = .ok v → ExportValue.parse v.spelled = .ok v) ∧
    ∀ v, ImportValue.parse text = .ok v → ImportValue.parse v.spelled = .ok v := by
  refine ⟨fun v => SectionValue.parse_eq_ok, fun v => ExportValue.parse_eq_ok,
    fun v => ImportValue.parse_eq_ok, fun v h => ?_, fun v h => ?_, fun v h => ?_⟩
  · exact SectionValue.parse_eq_ok.2 (SectionValue.parse_eq_ok.1 h).spelled
  · exact ExportValue.parse_eq_ok.2 (ExportValue.parse_eq_ok.1 h).spelled
  · exact ImportValue.parse_eq_ok.2 (ImportValue.parse_eq_ok.1 h).spelled

/-- Capital letters, blanks and a sign in a section, a separator in the section of an export, and numbers
in hexadecimal. -/
theorem parse_iff_written_variants :
    (⟨".data", ⟨0xd0000000⟩, "a=b.bin", some 31⟩ : SectionValue).Written
        ".data:RWShared:a=b.bin: 0X+1f\t" ∧
      SectionValue.parse ".data:rwshared:a=b.bin:31" =
        .ok ⟨".data", ⟨0xd0000000⟩, "a=b.bin", some 31⟩ ∧
      ExportValue.parse "go=.text=1+16" = .ok ⟨"go", ⟨".text=1", 16⟩⟩ ∧
      ImportValue.parse "k32:#7" = .ok ⟨"k32", .ordinal 7⟩ := by
  have hsection := parse_iff_written ".data:RWShared:a=b.bin: 0X+1f\t"
  have hexport := parse_iff_written "go=.text=1+0x10"
  have himport := parse_iff_written "k32:#0x7"
  have hread : SectionValue.parse ".data:RWShared:a=b.bin: 0X+1f\t" =
      .ok ⟨".data", ⟨0xd0000000⟩, "a=b.bin", some 31⟩ := by decide +kernel
  refine ⟨(hsection.1 _).1 hread, ?_, ?_, ?_⟩
  · exact hsection.2.2.2.1 _ hread
  · exact hexport.2.2.2.2.1 ⟨"go", ⟨".text=1", 16⟩⟩ (by decide +kernel)
  · exact himport.2.2.2.2.2 ⟨"k32", .ordinal 7⟩ (by decide +kernel)

end CommandLine

end PortableImage
