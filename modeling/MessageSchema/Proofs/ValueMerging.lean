/-
  Values of enumerations with those of their parents.

  Numbers are counted twice: when values are read, and again when they are put behind
  inherited ones.
-/
import MessageSchema.Proofs.InheritanceLoops

namespace MessageSchema

theorem EnumKind.nextNumber_eq {kind : EnumKind} (h : kind ≠ .flags) (previous : Option Int) :
    kind.nextNumber previous = EnumKind.closed.nextNumber previous := by
  cases kind with
  | closed => rfl
  | extensible => cases previous <;> rfl
  | flags => exact absurd rfl h

/-! ## Numbering -/

namespace Draft

/-- A numbered value as a value of a model. -/
def EnumValue.asOwn (v : EnumValue) : Model.EnumValue := ⟨v.name, v.number, false, v.origin⟩

section
variable {kind : EnumKind} {file home : String} {previous : Option Int} {raws : List RawValue}
  {values : List EnumValue}

theorem numberFrom_cons_eq_ok_iff {raw : RawValue} {n : Int}
    (hn : raw.number.getD (kind.nextNumber previous) = n) :
    numberFrom kind file home previous (raw :: raws) = .ok values ↔ EnumKind.inRange n = true ∧
      ∃ rest, numberFrom kind file home (some n) raws = .ok rest ∧
        values = ⟨raw.name, n, raw.number.isSome, ⟨raw.toNotes, file, raw.line, home⟩⟩ :: rest := by
  subst hn
  rw [numberFrom]
  constructor
  · intro h
    split at h
    · next hrange =>
      obtain ⟨rest, hrest, h⟩ := bind_eq_ok h
      cases h
      exact ⟨hrange, rest, hrest, rfl⟩
    · cases h
  · rintro ⟨hrange, rest, hrest, rfl⟩
    simp only [hrange, hrest, if_true]
    rfl

/-- **Numbering two lists one after the other.** -/
theorem numberFrom_append {raws' : List RawValue} {values' : List EnumValue}
    (h : numberFrom kind file home previous raws = .ok values)
    (h' : numberFrom kind file home ((values.getLast?.map (·.number)).or previous) raws' =
      .ok values') :
    numberFrom kind file home previous (raws ++ raws') = .ok (values ++ values') := by
  induction raws generalizing previous values with
  | nil =>
    cases h
    exact h'
  | cons raw raws ih =>
    obtain ⟨hrange, rest, hrest, rfl⟩ := (numberFrom_cons_eq_ok_iff rfl).1 h
    refine (numberFrom_cons_eq_ok_iff rfl).2 ⟨hrange, rest ++ values', ih hrest ?_, rfl⟩
    rw [List.getLast?_cons] at h'
    cases hlast : rest.getLast? with
    | none => simpa [hlast] using h'
    | some v => simpa [hlast] using h'

theorem numberFrom_eq_closed (h : kind ≠ .flags) :
    numberFrom kind file home previous raws = numberFrom .closed file home previous raws := by
  induction raws generalizing previous with
  | nil => rfl
  | cons raw raws ih => rw [numberFrom, numberFrom, EnumKind.nextNumber_eq h, ih]

theorem numberFrom_elsewhere (h : numberFrom kind file home previous raws = .ok values)
    (file' home' : String) : ∃ values', numberFrom kind file' home' previous raws = .ok values' ∧
      values'.map (fun v => (v.name, v.number)) = values.map fun v => (v.name, v.number) := by
  induction raws generalizing previous values with
  | nil =>
    cases h
    exact ⟨[], rfl, rfl⟩
  | cons raw raws ih =>
    obtain ⟨hrange, rest, hrest, rfl⟩ := (numberFrom_cons_eq_ok_iff rfl).1 h
    obtain ⟨rest', hrest', hmap⟩ := ih hrest
    refine ⟨_, (numberFrom_cons_eq_ok_iff rfl).2 ⟨hrange, rest', hrest', rfl⟩, ?_⟩
    rw [List.map_cons, List.map_cons, hmap]

theorem origin_numberFrom (h : numberFrom kind file home previous raws = .ok values) :
    values.map (·.origin) = raws.map fun raw => (⟨raw.toNotes, file, raw.line, home⟩ : Origin) := by
  induction raws generalizing previous values with
  | nil =>
    cases h
    rfl
  | cons raw raws ih =>
    obtain ⟨-, rest, hrest, rfl⟩ := (numberFrom_cons_eq_ok_iff rfl).1 h
    rw [List.map_cons, List.map_cons, ih hrest]

end

end Draft

namespace Model

/-! ## Values behind inherited ones -/

section
variable {kind : EnumKind} {file home : String} {raws : List Draft.RawValue}
  {own : List Draft.EnumValue}

/-- A value as the children of its enumeration have it. -/
def EnumValue.handedDown (v : EnumValue) : EnumValue := { v with inherited := true }

theorem mergeFrom_eq {taken used : List String} {previous before : Option Int}
    (hown : Draft.numberFrom kind file home before raws = .ok own)
    (hduplicates : (mergeFrom true taken used previous own).duplicates = [])
    (hoverflows : (mergeFrom true taken used previous own).overflows = []) :
    ∃ values, Draft.numberFrom .closed file home previous raws = .ok values ∧
      (mergeFrom true taken used previous own).values = values.map Draft.EnumValue.asOwn := by
  induction raws generalizing used previous before own with
  | nil =>
    cases hown
    exact ⟨[], rfl, rfl⟩
  | cons raw raws ih =>
    obtain ⟨-, rest, hrest, rfl⟩ := (Draft.numberFrom_cons_eq_ok_iff rfl).1 hown
    -- a written number is kept, any other counts on
    have hnumber : (if raw.number.isSome || !true then raw.number.getD (kind.nextNumber before)
        else EnumKind.closed.nextNumber previous) =
        raw.number.getD (EnumKind.closed.nextNumber previous) := by
      cases raw.number <;> rfl
    rw [mergeFrom] at hduplicates hoverflows ⊢
    simp only [hnumber] at hduplicates hoverflows ⊢
    generalize hn : raw.number.getD (EnumKind.closed.nextNumber previous) =
      n at hduplicates hoverflows ⊢
    split at hduplicates
    · cases hduplicates
    · next hfree =>
      rw [if_neg hfree] at hoverflows ⊢
      split at hoverflows
      · next hrange =>
        rw [if_pos hrange] at hduplicates ⊢
        obtain ⟨values, hvalues, heq⟩ := ih hrest hduplicates hoverflows
        refine ⟨_, (Draft.numberFrom_cons_eq_ok_iff hn).2 ⟨hrange, values, hvalues, rfl⟩, ?_⟩
        rw [List.map_cons, ← heq]
        rfl
      · cases hoverflows

/-- **Putting values behind inherited ones** is numbering what was written on from the
    last inherited number. -/
theorem mergeValues_eq (hkind : kind ≠ .flags) {inherited values : List EnumValue}
    (hown : Draft.number kind file home raws = .ok own)
    (h : mergeValues (kind ≠ .flags) inherited own = { values }) :
    ∃ below, Draft.numberFrom .closed file home (inherited.getLast?.map (·.number)) raws =
      .ok below ∧
      values = inherited.map EnumValue.handedDown ++ below.map Draft.EnumValue.asOwn := by
  rw [decide_eq_true hkind] at h
  obtain ⟨hvalues, hduplicates, hoverflows⟩ := Merged.mk.inj h
  obtain ⟨below, hbelow, heq⟩ := mergeFrom_eq hown hduplicates hoverflows
  exact ⟨below, hbelow, by rw [← hvalues, heq]; rfl⟩

end

/-! ## Finished enumerations -/

/-- The values that an enumeration inherits from its parent, if it has one. -/
inductive Binder.Hands (b : Binder) (finished : Table Enumeration) :
    Option TypeRef → List EnumValue → Prop
  | none : Hands b finished none []
  | own {ref parent} : b.declared.contains ref.name = true → finished.find? ref.name = some parent →
      Hands b finished (some ref) parent.values
  | imported {ref} : b.enumeration? ref.name = .none →
      Hands b finished (some ref) (b.importedValues ref.name)

/-- Every finished enumeration has the values of its finished parent before its own, as
    far as no fault has come up. -/
def Enumerations.Linked (b : Binder) (es : Enumerations) : Prop :=
  es.faults = [] → ∀ q result, es.finished.find? q = some result →
    ∃ e inherited, b.declared.find? q = some (.enumeration e) ∧
      b.Hands es.finished result.parent inherited ∧
        mergeValues (e.kind ≠ .flags) inherited e.values = { values := result.values }

namespace Binder

section
variable {b : Binder} {q k : String} {e : Draft.Enumeration} {es : Enumerations}
  {parent : Option TypeRef} {inherited : List EnumValue} {chain : List String}
  {r : Enumerations × Option Enumeration}

theorem Hands.mono {finished finished' : Table Enumeration} (h : b.Hands finished parent inherited)
    (hkeep : ∀ k r, finished.find? k = some r → finished'.find? k = some r) :
    b.Hands finished' parent inherited := by
  cases h with
  | none => exact .none
  | own hdeclared hparent => exact .own hdeclared (hkeep _ _ hparent)
  | imported hname => exact .imported hname

theorem find?_finish_of_ne (hk : k ≠ q) :
    (finish q e parent inherited es).1.finished.find? k = es.finished.find? k := by
  rw [finish, Table.find?_insert, if_neg hk]

theorem find?_finish_of_new (hnew : es.finished.find? q = none) {r : Enumeration}
    (hk : es.finished.find? k = some r) :
    (finish q e parent inherited es).1.finished.find? k = some r := by
  rw [find?_finish_of_ne, hk]
  rintro rfl
  rw [hnew] at hk
  cases hk

theorem Finishing.find? (hrun : b.Finishing chain q e es r) :
    (∀ k x, es.finished.find? k = some x → r.1.finished.find? k = some x) ∧
      ∀ k ∈ chain, r.1.finished.find? k = es.finished.find? k := by
  have hne : ∀ {chain : List String} {q}, q ∉ chain → ∀ k ∈ chain, k ≠ q :=
    fun hmem k hk heq => hmem (heq ▸ hk)
  induction hrun with
  | done _ => exact ⟨fun _ _ hk => hk, fun _ _ => rfl⟩
  | back _ _ => exact ⟨fun _ _ hk => hk, fun _ _ => rfl⟩
  | lost hnew hmem _ | root hnew hmem _ | imported hnew hmem _ _ =>
    exact ⟨fun _ _ hk => find?_finish_of_new hnew hk,
      fun k hk => find?_finish_of_ne (hne hmem k hk)⟩
  | own hnew hmem _ _ _ ih =>
    obtain ⟨hkeep, hwait⟩ := ih
    -- the enumeration itself waits for its parent
    have hnew' := (hwait _ (by simp)).trans hnew
    refine ⟨fun k x hk => find?_finish_of_new hnew' (hkeep k x hk), fun k hk => ?_⟩
    exact (find?_finish_of_ne (hne hmem k hk)).trans (hwait k (List.mem_append_left _ hk))

theorem linked_finish (h : es.Linked b) (hq : b.declared.find? q = some (.enumeration e))
    (hnew : es.finished.find? q = none)
    (hhands : es.faults = [] → b.Hands es.finished parent inherited) :
    (finish q e parent inherited es).1.Linked b := by
  intro hfaults k result hk
  obtain ⟨hes, hmerge⟩ := List.append_eq_nil_iff.1 hfaults
  have hkeep : ∀ k r, es.finished.find? k = some r →
      (finish q e parent inherited es).1.finished.find? k = some r :=
      fun _ _ => find?_finish_of_new hnew
  by_cases hkq : k = q
  · subst hkq
    rw [finish, Table.find?_insert, if_pos rfl] at hk
    cases hk
    exact ⟨e, inherited, hq, (hhands hes).mono hkeep, eq_of_mergeFaults hmerge⟩
  · rw [find?_finish_of_ne hkq] at hk
    obtain ⟨e', inherited', he', hhands', hvalues⟩ := h hes k result hk
    exact ⟨e', inherited', he', hhands'.mono hkeep, hvalues⟩

theorem not_faultless_fault {f : Fault} : (es.fault f).faults ≠ [] := by simp [Enumerations.fault]

/-- **Finishing an enumeration with its ancestors** links it to its parent, and gives what
    is finished. -/
theorem Finishing.linked (hrun : b.Finishing chain q e es r)
    (hq : b.declared.find? q = some (.enumeration e)) (h : es.Linked b) :
    r.1.Linked b ∧
      (r.1.faults = [] → ∃ result, r.2 = some result ∧ r.1.finished.find? q = some result) := by
  have hresult : ∀ {q e parent inherited} {es : Enumerations}, ∃ result,
      some (finish q e parent inherited es).2 = some result ∧
        (finish q e parent inherited es).1.finished.find? q = some result := by
    intro q e parent inherited es
    refine ⟨_, rfl, ?_⟩
    rw [finish, Table.find?_insert, if_pos rfl]
  induction hrun with
  | done hdone => exact ⟨h, fun _ => ⟨_, rfl, hdone⟩⟩
  | back _ _ =>
    exact ⟨fun hfaults => absurd hfaults not_faultless_fault,
      fun hfaults => absurd hfaults not_faultless_fault⟩
  | lost hnew _ _ =>
    exact ⟨linked_finish (fun hfaults => absurd hfaults not_faultless_fault) hq hnew fun hfaults =>
      absurd hfaults not_faultless_fault, fun _ => hresult⟩
  | root hnew _ _ => exact ⟨linked_finish h hq hnew fun _ => .none, fun _ => hresult⟩
  | imported hnew _ _ hp => exact ⟨linked_finish h hq hnew fun _ => .imported hp, fun _ => hresult⟩
  | own hnew _ _ hp hrun ih =>
    have hdeclared := enumeration?_eq_some_iff.1 hp
    obtain ⟨hlinked, hparent⟩ := ih hdeclared h
    refine ⟨linked_finish hlinked hq ((hrun.find?.2 _ (by simp)).trans hnew) fun hfaults => ?_,
      fun _ => hresult⟩
    obtain ⟨parent, hreturned, hfind⟩ := hparent hfaults
    rw [hreturned]
    exact .own (Table.contains_of_find? hdeclared) hfind

end

/-- **Finished enumerations are linked**, in whatever order they are declared. -/
theorem linked_enumerations (b : Binder) : b.enumerations.Linked b := by
  refine enumerations_induct (fun _ q result hq => ?_) fun q e es r hq h hrun =>
    (hrun.linked hq h).1
  simp [Table.find?_empty] at hq

end Binder

variable {lib : Library} {d : Draft} {m : Model} {q : String} {result : Enumeration}

theorem Models.exists_finishes (h : Models lib d m) (hq : m.own? q = some (.enumeration result)) :
    ∃ e, (Index.ofDraft d).declared.find? q = some (.enumeration e) ∧
      (enumsOf lib d m.imports).find? q = some result ∧
        Finishes (binderOf lib d m.imports) q e result := by
  obtain ⟨-, -, -, x, -, -, hx, hbecomes⟩ := h.becomes_of_own? hq
  cases hbecomes with
  | @enumeration e _ hresult =>
    obtain ⟨result', hbuilt, hfin⟩ := Binder.find?_enumerations h.faultless.enums hx
    cases hbuilt.symm.trans hresult
    exact ⟨e, hx, hresult, hfin⟩

/-- **An enumeration of a model** is declared, and has the values that it inherits before
    its own. -/
theorem Models.exists_inherited (h : Models lib d m) (hq : m.own? q = some (.enumeration result)) :
    ∃ e inherited, (Index.ofDraft d).declared.find? q = some (.enumeration e) ∧
      e.kind = result.kind ∧
      (binderOf lib d m.imports).Hands (enumsOf lib d m.imports) result.parent inherited ∧
        mergeValues (e.kind ≠ .flags) inherited e.values = { values := result.values } := by
  obtain ⟨e, hx, hresult, hfin⟩ := h.exists_finishes hq
  obtain ⟨e', inherited, he', hhands, hvalues⟩ :=
    Binder.linked_enumerations _ h.faultless.enums q result hresult
  obtain rfl := Declaration.enumeration.inj (Option.some.inj (hx.symm.trans he'))
  exact ⟨e, inherited, hx, hfin.kind.symm, hhands, hvalues⟩

end Model

end MessageSchema
