/-
  Defaults of flags.

  The text of such a default is cut into parts at its bars.  A part marks the bits of an
  integer, or those of the flag that it names; the default has the bits that some part of
  it marks.  So neither the order of the parts nor their repetition matters, and a default
  is refused just if one of its parts is.

  * `Text.split_of_not_mem`, `Text.trim_trim`: parts cannot be cut or trimmed any further.
-/
import MessageSchema.Proofs.Entities
import Mathlib.Data.List.DropRight
import Mathlib.Data.Nat.Bitwise

namespace MessageSchema

open List QualifiedName Text

/-! ## Parts of a text -/

namespace Text

variable {d : Char} {s : String}

theorem splitFrom_of_not_mem {s : List Char} (h : d ∉ s) (part : List Char) :
    splitFrom (atChar d) 0 part s = [part.reverse ++ s] := by
  induction s generalizing part with
  | nil => simp [splitFrom]
  | cons c s ih =>
    obtain ⟨hc, hs⟩ := not_or.1 (mt mem_cons.2 h)
    rw [splitFrom, show atChar d (c :: s) = 0 from if_neg (Ne.symm hc)]
    simp [ih hs]

theorem split_of_not_mem (h : d ∉ s.toList) : split (atChar d) s = [s] := by
  rw [split, splitFrom_of_not_mem h]
  simp

theorem not_mem_of_mem_splitFrom {s part p : List Char} (hpart : d ∉ part)
    (hp : p ∈ splitFrom (atChar d) 0 part s) : d ∉ p := by
  induction s generalizing part with
  | nil =>
    obtain rfl := mem_singleton.1 hp
    simpa using hpart
  | cons c s ih =>
    rw [splitFrom] at hp
    by_cases hc : c = d
    · rw [show atChar d (c :: s) = 1 from if_pos hc] at hp
      rcases mem_cons.1 hp with rfl | hp
      · simpa using hpart
      · exact ih not_mem_nil hp
    · rw [show atChar d (c :: s) = 0 from if_neg hc] at hp
      exact ih (mt mem_cons.1 (not_or.2 ⟨Ne.symm hc, hpart⟩)) hp

theorem not_mem_of_mem_split {p : String} (hp : p ∈ split (atChar d) s) : d ∉ p.toList := by
  obtain ⟨q, hq, rfl⟩ := mem_map.1 hp
  rw [String.toList_ofList]
  exact not_mem_of_mem_splitFrom not_mem_nil hq

theorem toList_trim (s : String) :
    (trim s).toList = (s.toList.dropWhile isBlank).rdropWhile isBlank := by
  rw [trim, trimEnd, String.toList_ofList, String.toList_ofList]
  rfl

theorem mem_of_mem_trim {c : Char} (h : c ∈ (trim s).toList) : c ∈ s.toList := by
  rw [toList_trim] at h
  exact (dropWhile_suffix isBlank).subset ((List.rdropWhile_prefix isBlank _).subset h)

theorem trim_trim (s : String) : trim (trim s) = trim s := by
  rw [← String.toList_inj, toList_trim (trim s)]
  have hleft : (trim s).toList.dropWhile isBlank = (trim s).toList := by
    rw [dropWhile_eq_self_iff]
    intro hlength
    -- the first character is that of the text without the blanks at its start
    have hfirst := List.rdropWhile_prefix isBlank (s.toList.dropWhile isBlank)
    rw [← toList_trim] at hfirst
    rw [hfirst.getElem hlength]
    exact dropWhile_get_zero_not isBlank s.toList _
  rw [hleft, toList_trim, rdropWhile_idempotent]

end Text

namespace DefaultValue

open Model (EnumValue)

/-! ## What a part says -/

/-- The parts of a default of flags. -/
def flagParts (text : String) : List String := (split (atChar '|') text).map trim

theorem flagParts_of_mem {text part : String} (h : part ∈ flagParts text) :
    flagParts part = [part] := by
  obtain ⟨p, hp, rfl⟩ := mem_map.1 h
  have hbar : '|' ∉ (trim p).toList := fun hmem =>
    not_mem_of_mem_split hp (mem_of_mem_trim hmem)
  rw [flagParts, split_of_not_mem hbar, map_singleton, trim_trim]

/-- A text is a name with a qualifier that agrees with the last parts of the name of an
    enumeration, none of them if the name stands by itself. -/
def Names (enumeration text name : String) : Prop :=
  ∃ qualifier suffix, nameParts text = qualifier ++ [name] ∧ suffix <:+ parts enumeration ∧
    suffix.length = qualifier.length ∧ joinAll suffix = joinAll qualifier

theorem valueName?_eq_some_iff {text enumeration name : String} :
    valueName? text enumeration = some name ↔ Names enumeration text name := by
  rw [valueName?]
  simp only [Option.ite_none_right_eq_some, Bool.or_eq_true, List.isEmpty_iff, Bool.and_eq_true,
    decide_eq_true_eq, beq_iff_eq]
  constructor
  · rintro ⟨hqualifier, hlast⟩
    have hparts := (dropLast_append_getLast? name hlast).symm
    rcases hqualifier with hnil | ⟨hle, heq⟩
    · exact ⟨_, [], hparts, nil_suffix, by rw [hnil], by rw [hnil]⟩
    · exact ⟨_, _, hparts, drop_suffix _ _, by rw [length_drop]; omega, heq⟩
  · rintro ⟨qualifier, suffix, hparts, hsuffix, hlength, heq⟩
    have hdrop := suffix_iff_eq_drop.1 hsuffix
    rw [hlength] at hdrop
    rw [hparts, dropLast_concat, getLast?_concat, ← hdrop, ← hlength]
    exact ⟨.inr ⟨hsuffix.length_le, heq⟩, rfl⟩

/-- What a part marks, with its name if it is one: an integer of at most 64 bits its own
    bits, any other part those of the first flag that it names. -/
inductive Marks (options : String) (values : List EnumValue) (part : String) :
    List String × Nat → Prop
  | number {n : Nat} : Numeral.integer? part = some n → (n : Int) ≤ EnumKind.maxNumber →
      Marks options values part ([], n)
  | flag {v : EnumValue} {n : Nat} : Numeral.integer? part = none → Names options part v.name →
      values.find? (fun x => x.name = v.name) = some v → v.number = n →
      Marks options values part ([v.name], n)

section
variable {options : String} {values : List EnumValue} {part : String} {parts : List String}

theorem findValue?_eq_some_iff {v : EnumValue} : findValue? part options values = some v ↔
    Names options part v.name ∧ values.find? (fun x => x.name = v.name) = some v := by
  rw [findValue?, Option.bind_eq_some_iff]
  constructor
  · rintro ⟨name, hname, hfind⟩
    obtain rfl : v.name = name := by simpa using find?_some hfind
    exact ⟨valueName?_eq_some_iff.1 hname, hfind⟩
  · rintro ⟨hname, hfind⟩
    exact ⟨v.name, valueName?_eq_some_iff.2 hname, hfind⟩

variable (hvalues : ∀ v ∈ values, 0 ≤ v.number)
include hvalues

/-! ## Reading parts -/

theorem readFlag_eq_ok_iff {names : List String} {k : Int} :
    readFlag options values part = .ok (names, k) ↔ ∃ n : Nat, k = n ∧
      Marks options values part (names, n) := by
  rw [readFlag]
  constructor
  · intro h
    split at h
    · next n hn =>
      split at h
      · next hrange =>
        cases h
        simp only [Bool.and_eq_true, decide_eq_true_eq] at hrange
        obtain ⟨m, rfl⟩ := Int.eq_ofNat_of_zero_le hrange.1
        exact ⟨m, rfl, .number hn hrange.2⟩
      · cases h
    · next hn =>
      split at h
      · next v hv =>
        cases h
        obtain ⟨hnames, hfind⟩ := findValue?_eq_some_iff.1 hv
        obtain ⟨m, hm⟩ := Int.eq_ofNat_of_zero_le (hvalues v (mem_of_find?_eq_some hfind))
        exact ⟨m, hm, .flag hn hnames hfind hm⟩
      · cases h
  · rintro ⟨n, rfl, hmarks⟩
    cases hmarks with
    | number hn hrange => simp [hn, hrange]
    | flag hn hnames hfind hnumber => simp [hn, findValue?_eq_some_iff.2 ⟨hnames, hfind⟩, hnumber]

theorem Marks.unique {m m' : List String × Nat} (h : Marks options values part m)
    (h' : Marks options values part m') : m = m' := by
  obtain ⟨names, n⟩ := m
  obtain ⟨names', n'⟩ := m'
  have hread := (readFlag_eq_ok_iff hvalues).2 ⟨n, rfl, h⟩
  have hread' := (readFlag_eq_ok_iff hvalues).2 ⟨n', rfl, h'⟩
  rw [hread] at hread'
  obtain ⟨rfl, hn⟩ := Prod.mk.inj (Except.ok.inj hread')
  rw [Int.ofNat_inj.1 hn]

omit hvalues in
def unionAll (ms : List (List String × Nat)) : Nat := ms.foldr (fun m n => m.2 ||| n) 0

omit hvalues in
theorem testBit_unionAll (ms : List (List String × Nat)) (i : Nat) :
    (unionAll ms).testBit i = true ↔ ∃ m ∈ ms, m.2.testBit i = true := by
  induction ms with
  | nil => simp [unionAll]
  | cons m ms ih =>
    rw [show unionAll (m :: ms) = m.2 ||| unionAll ms from rfl, Nat.testBit_or, Bool.or_eq_true, ih]
    simp

theorem testBit_unionAll_iff {ms : List (List String × Nat)}
    (hms : Forall₂ (Marks options values) parts ms) (i : Nat) :
    (unionAll ms).testBit i = true ↔ ∃ part ∈ parts, ∃ m, Marks options values part m ∧
      m.2.testBit i = true := by
  rw [testBit_unionAll]
  constructor
  · rintro ⟨m, hm, hbit⟩
    obtain ⟨part, hpart, hmarks⟩ := exists_left_of_mem hms hm
    exact ⟨part, hpart, m, hmarks, hbit⟩
  · rintro ⟨part, hpart, m, hmarks, hbit⟩
    obtain ⟨m', hm', hmarks'⟩ := exists_right_of_mem hms hpart
    exact ⟨m', hm', hmarks.unique hvalues hmarks' ▸ hbit⟩

omit hvalues in
theorem exists_forall₂ (h : ∀ part ∈ parts, ∃ m, Marks options values part m) :
    ∃ ms, Forall₂ (Marks options values) parts ms := by
  induction parts with
  | nil => exact ⟨[], .nil⟩
  | cons part parts ih =>
    obtain ⟨m, hm⟩ := h part mem_cons_self
    obtain ⟨ms, hms⟩ := ih fun p hp => h p (mem_cons_of_mem _ hp)
    exact ⟨m :: ms, .cons hm hms⟩

/-- **What is read of several parts**: the names among them in order, and all that they
    mark. -/
theorem readFlags_eq_ok_iff {r : List String × Int} :
    readFlags options values parts = .ok r ↔ ∃ ms, Forall₂ (Marks options values) parts ms ∧
      r = (ms.flatMap Prod.fst, (unionAll ms : Int)) := by
  induction parts generalizing r with
  | nil =>
    simp only [readFlags, forall₂_nil_left_iff, exists_eq_left, Except.ok.injEq]
    exact eq_comm
  | cons part parts ih =>
    constructor
    · intro h
      obtain ⟨⟨names, k⟩, hone, h⟩ := bind_eq_ok h
      obtain ⟨⟨more, l⟩, hrest, h⟩ := bind_eq_ok h
      obtain ⟨n, rfl, hmarks⟩ := (readFlag_eq_ok_iff hvalues).1 hone
      obtain ⟨ms, hms, heq⟩ := ih.1 hrest
      cases heq
      cases h
      exact ⟨(names, n) :: ms, .cons hmarks hms, rfl⟩
    · rintro ⟨_, hms, rfl⟩
      cases hms with
      | @cons _ m _ ms hmarks hms =>
        have hone := (readFlag_eq_ok_iff hvalues).2 ⟨m.2, rfl, hmarks⟩
        simp only [readFlags, hone, ih.2 ⟨ms, hms, rfl⟩, bind, Except.bind, pure, Except.pure]
        rfl

end

/-! ## Reading texts -/

section
variable {valuesOf : String → List EnumValue} {options : String}
  (hvalues : ∀ v ∈ valuesOf options, 0 ≤ v.number)
include hvalues

variable {text : String}

/-- **What is read of a default of flags.** -/
theorem read_options_iff {D : DefaultValue} :
    read valuesOf text (.entity ⟨.options, options⟩) = .ok D ↔
      ∃ ms, Forall₂ (Marks options (valuesOf options)) (flagParts text) ms ∧
        D = .flags (ms.flatMap Prod.fst) (unionAll ms) := by
  constructor
  · intro h
    obtain ⟨⟨names, n⟩, hread, h⟩ := bind_eq_ok h
    obtain ⟨ms, hms, heq⟩ := (readFlags_eq_ok_iff hvalues).1 hread
    cases heq
    cases h
    exact ⟨ms, hms, rfl⟩
  · rintro ⟨ms, hms, rfl⟩
    have hread := (readFlags_eq_ok_iff hvalues).2 ⟨ms, hms, rfl⟩
    rw [flagParts] at hread
    simp only [read, hread, bind, Except.bind, pure, Except.pure]

/-- Defaults of the same parts are read as the same number. -/
theorem read_options_of_parts {text' : String}
    (hparts : ∀ part, part ∈ flagParts text ↔ part ∈ flagParts text') {names : List String}
    {n : Int} (h : read valuesOf text (.entity ⟨.options, options⟩) = .ok (.flags names n)) :
    ∃ names', read valuesOf text' (.entity ⟨.options, options⟩) = .ok (.flags names' n) := by
  obtain ⟨ms, hms, heq⟩ := (read_options_iff hvalues).1 h
  have hmarked : ∀ part ∈ flagParts text', ∃ m, Marks options (valuesOf options) part m := by
    intro part hpart
    obtain ⟨m, -, hm⟩ := exists_right_of_mem hms ((hparts part).2 hpart)
    exact ⟨m, hm⟩
  obtain ⟨ms', hms'⟩ := exists_forall₂ hmarked
  obtain ⟨-, rfl⟩ := flags.inj heq
  refine ⟨ms'.flatMap Prod.fst, (read_options_iff hvalues).2 ⟨ms', hms', ?_⟩⟩
  have hunion : unionAll ms = unionAll ms' := by
    refine Nat.eq_of_testBit_eq fun i => Bool.eq_iff_iff.2 ?_
    rw [testBit_unionAll_iff hvalues hms, testBit_unionAll_iff hvalues hms']
    simp only [hparts]
  rw [hunion]

/-- A default of flags is refused just if one of its parts marks nothing. -/
theorem read_options_eq_error_iff :
    (∃ cause, read valuesOf text (.entity ⟨.options, options⟩) = .error cause) ↔
      ∃ part ∈ flagParts text, ∀ m, ¬ Marks options (valuesOf options) part m := by
  constructor
  · rintro ⟨cause, hcause⟩
    by_contra hall
    push Not at hall
    obtain ⟨ms, hms⟩ := exists_forall₂ hall
    rw [(read_options_iff hvalues).2 ⟨ms, hms, rfl⟩] at hcause
    cases hcause
  · rintro ⟨part, hpart, hnone⟩
    cases h : read valuesOf text (.entity ⟨.options, options⟩) with
    | error cause => exact ⟨cause, rfl⟩
    | ok D =>
      obtain ⟨ms, hms, -⟩ := (read_options_iff hvalues).1 h
      obtain ⟨m, -, hm⟩ := exists_right_of_mem hms hpart
      exact absurd hm (hnone m)

/-- **Defaults of flags are unions.**  Reading a default gives the names among its parts in
    order, and a number that has a bit just if some part marks it.  It is refused just if one
    of its parts marks nothing, that is, if this part is refused as a default of its own.  So
    defaults of the same parts, in whatever order and however often, are read as the same
    number, or refused all alike. -/
theorem read_options_union (text : String) :
    let readAs (t : String) := read valuesOf t (.entity ⟨.options, options⟩)
    (∀ D, readAs text = .ok D → ∃ (ms : List (List String × Nat)) (n : Nat),
      Forall₂ (Marks options (valuesOf options)) (flagParts text) ms ∧
      D = .flags (ms.flatMap Prod.fst) n ∧
        ∀ i, n.testBit i = true ↔ ∃ m ∈ ms, m.2.testBit i = true) ∧
    ((∃ cause, readAs text = .error cause) ↔
      ∃ part ∈ flagParts text, ∀ m, ¬ Marks options (valuesOf options) part m) ∧
    ((∃ cause, readAs text = .error cause) ↔ ∃ part ∈ flagParts text, ∃ cause, readAs part =
    .error cause) ∧ ∀ text', (∀ part, part ∈ flagParts text' ↔ part ∈ flagParts text) →
      ∀ n, (∃ names, readAs text' = .ok (.flags names n)) ↔
      ∃ names, readAs text = .ok (.flags names n) := by
  intro readAs
  refine ⟨fun D hD => ?_, read_options_eq_error_iff hvalues, ?_, fun text' hparts n => ?_⟩
  · obtain ⟨ms, hms, rfl⟩ := (read_options_iff hvalues).1 hD
    exact ⟨ms, unionAll ms, hms, rfl, testBit_unionAll ms⟩
  · rw [read_options_eq_error_iff hvalues]
    refine exists_congr fun part => and_congr_right fun hpart => ?_
    rw [read_options_eq_error_iff hvalues, flagParts_of_mem hpart]
    simp
  · exact ⟨fun ⟨_, h⟩ => read_options_of_parts hvalues hparts h,
      fun ⟨_, h⟩ => read_options_of_parts hvalues (fun part => (hparts part).symm) h⟩

end

/-- A flag of a set, and one that it has from elsewhere beyond 32 bits. -/
def rights : List EnumValue :=
  [⟨"Read", 1, true, ⟨.none, "", 1, "a"⟩⟩, ⟨"Own", 4294967296, false, ⟨.none, "", 2, "a"⟩⟩]

theorem read_options_union_rights : ∃ names names',
    read (fun _ => rights) "Own | 9|a.Set::Read" (.entity ⟨.options, "s::a::Set"⟩) =
      .ok (.flags names 4294967305) ∧
    read (fun _ => rights) "a.Set::Read|9 | Own|9" (.entity ⟨.options, "s::a::Set"⟩) =
      .ok (.flags names' 4294967305) := by
  have hread : read (fun _ => rights) "Own | 9|a.Set::Read" (.entity ⟨.options, "s::a::Set"⟩) =
      .ok (.flags ["Own", "Read"] 4294967305) := by rfl
  obtain ⟨-, -, -, hparts⟩ :=
    @read_options_union (fun _ => rights) "s::a::Set" (by decide) "Own | 9|a.Set::Read"
  obtain ⟨names', hread'⟩ := (hparts "a.Set::Read|9 | Own|9" (by
    intro part
    rw [show flagParts "a.Set::Read|9 | Own|9" = ["a.Set::Read", "9", "Own", "9"] by decide +kernel,
      show flagParts "Own | 9|a.Set::Read" = ["Own", "9", "a.Set::Read"] by decide +kernel]
    simp [or_comm, or_left_comm]) 4294967305).2 ⟨_, hread⟩
  exact ⟨_, names', hread, hread'⟩

end DefaultValue

end MessageSchema
