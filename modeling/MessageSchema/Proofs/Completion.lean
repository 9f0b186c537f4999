/-
  What declarations become, whatever their order.

  * `messageCycleFaults_eq_nil_iff`, `faults_messages_eq_nil_iff`: when nothing is wrong with
    messages.
-/
import MessageSchema.Proofs.ValueMerging

namespace MessageSchema

open List

namespace Model.Binder

/-! ## Enumerations -/

/-- The enumeration declared under a name is finished with a parent and the values of
    that, and no value is in the way of another. -/
def Ends (b : Binder) (q : String) (parent : Option TypeRef) (inherited : List EnumValue)
    (result : Enumeration) : Prop :=
  ∃ e, b.declared.find? q = some (.enumeration e) ∧ b.enumParent q e = .ok parent ∧
    mergeFaults q parent (mergeValues (e.kind ≠ .flags) inherited e.values) = [] ∧
    (finish q e parent inherited {}).2 = result

/-- What the enumeration declared under a name becomes, if nothing is wrong with it and
    with its ancestors. -/
inductive Yields (b : Binder) : String → Enumeration → Prop
  | root {q result} : b.Ends q none [] result → Yields b q result
  | imported {q ref result} : b.enumeration? ref.name = none →
      b.Ends q (some ref) (b.importedValues ref.name) result → Yields b q result
  | own {q ref p above result} : b.enumeration? ref.name = some p → Yields b ref.name above →
      b.Ends q (some ref) above.values result → Yields b q result

section
variable {b : Binder} {q : String} {e : Draft.Enumeration} {parent : Option TypeRef}
  {inherited : List EnumValue}

theorem Ends.parent_unique {parent' : Option TypeRef} {inherited' : List EnumValue}
    {result result' : Enumeration} (h : b.Ends q parent inherited result)
    (h' : b.Ends q parent' inherited' result') : parent = parent' := by
  obtain ⟨e, he, hparent, -⟩ := h
  obtain ⟨e', he', hparent', -⟩ := h'
  rw [he] at he'
  cases he'
  exact Except.ok.inj (hparent.symm.trans hparent')

theorem Ends.unique {result result' : Enumeration} (h : b.Ends q parent inherited result)
    (h' : b.Ends q parent inherited result') : result = result' := by
  obtain ⟨e, he, -, -, rfl⟩ := h
  obtain ⟨e', he', -, -, rfl⟩ := h'
  rw [he] at he'
  cases he'
  rfl

/-- **An enumeration becomes one thing only.** -/
theorem Yields.unique {result result' : Enumeration} (h : b.Yields q result)
    (h' : b.Yields q result') : result = result' := by
  induction h generalizing result' with
  | root hends =>
    cases h' with
    | root hends' => exact hends.unique hends'
    | imported _ hends' => cases hends.parent_unique hends'
    | own _ _ hends' => cases hends.parent_unique hends'
  | imported hnone hends =>
    cases h' with
    | root hends' => cases hends.parent_unique hends'
    | imported _ hends' =>
      cases hends.parent_unique hends'
      exact hends.unique hends'
    | own hsome _ hends' =>
      cases hends.parent_unique hends'
      rw [hnone] at hsome
      cases hsome
  | own hsome _ hends ih =>
    cases h' with
    | root hends' => cases hends.parent_unique hends'
    | imported hnone hends' =>
      cases hends.parent_unique hends'
      rw [hnone] at hsome
      cases hsome
    | own _ habove hends' =>
      cases hends.parent_unique hends'
      rw [← ih habove] at hends'
      exact hends.unique hends'

theorem Yields.not_mem_loop {result : Enumeration} (h : b.Yields q result) {c : List String}
    (hc : Loop (Inherits b.declared .enumeration) c) : q ∉ c := by
  induction h with
  | root hends =>
    intro hq
    obtain ⟨y, -, hy⟩ := hc.exists_next hq
    obtain ⟨e, he, hparent, -⟩ := hends
    rw [(enumParent_of_inherits he hy).1] at hparent
    cases hparent
  | imported hnone hends =>
    intro hq
    obtain ⟨y, -, hy⟩ := hc.exists_next hq
    obtain ⟨e, he, hparent, -⟩ := hends
    obtain ⟨hparent', p, hp⟩ := enumParent_of_inherits he hy
    rw [hparent'] at hparent
    cases hparent
    rw [hnone] at hp
    cases hp
  | own _ _ hends ih =>
    intro hq
    obtain ⟨y, hmem, hy⟩ := hc.exists_next hq
    obtain ⟨e, he, hparent, -⟩ := hends
    rw [(enumParent_of_inherits he hy).1] at hparent
    cases hparent
    exact ih hmem

end

end Binder

/-- What has been finished is what the declarations become, as far as no fault has come
    up. -/
def Enumerations.Exact (b : Binder) (es : Enumerations) : Prop :=
  es.faults = [] → ∀ q result, es.finished.find? q = some result → b.Yields q result

namespace Binder

section
variable {b : Binder} {q : String} {e : Draft.Enumeration} {es : Enumerations} {chain : List String}
  {parent : Option TypeRef} {inherited : List EnumValue}

theorem exact_fault (f : Fault) : (es.fault f).Exact b :=
  fun hfaults => absurd hfaults not_faultless_fault

theorem exact_finish (h : es.Exact b) (parent : Option TypeRef) (inherited : List EnumValue)
    (hyields : es.faults = [] →
      mergeFaults q parent (mergeValues (e.kind ≠ .flags) inherited e.values) = [] →
      b.Yields q (finish q e parent inherited es).2) :
    (finish q e parent inherited es).1.Exact b ∧
      ((finish q e parent inherited es).1.faults = [] →
        b.Yields q (finish q e parent inherited es).2) := by
  have hresult : (finish q e parent inherited es).1.faults = [] →
      b.Yields q (finish q e parent inherited es).2 := by
    intro hfaults
    obtain ⟨hes, hmerge⟩ := append_eq_nil_iff.1 hfaults
    exact hyields hes hmerge
  refine ⟨fun hfaults k result hk => ?_, hresult⟩
  rw [finish, Table.find?_insert] at hk
  split at hk
  · next hkq =>
    cases hk
    rw [hkq]
    exact hresult hfaults
  · exact h (append_eq_nil_iff.1 hfaults).1 k result hk

/-- **What finishing an enumeration gives** is what it becomes, unless a fault comes up. -/
theorem Finishing.exact {r : Enumerations × Option Enumeration} (hrun : b.Finishing chain q e es r)
    (hq : b.declared.find? q = some (.enumeration e)) (h : es.Exact b) :
    r.1.Exact b ∧ (r.1.faults = [] → ∃ result, r.2 = some result ∧ b.Yields q result) := by
  induction hrun with
  | done hdone => exact ⟨h, fun hfaults => ⟨_, rfl, h hfaults _ _ hdone⟩⟩
  | back _ _ => exact ⟨exact_fault _, fun hfaults => absurd hfaults not_faultless_fault⟩
  | lost _ _ _ =>
    obtain ⟨hexact, hresult⟩ :=
      exact_finish (exact_fault _) none [] fun hfaults => absurd hfaults not_faultless_fault
    exact ⟨hexact, fun hfaults => ⟨_, rfl, hresult hfaults⟩⟩
  | root _ _ hparent =>
    obtain ⟨hexact, hresult⟩ :=
      exact_finish h none [] fun _ hmerge => .root ⟨_, hq, hparent, hmerge, rfl⟩
    exact ⟨hexact, fun hfaults => ⟨_, rfl, hresult hfaults⟩⟩
  | imported _ _ hparent hp =>
    obtain ⟨hexact, hresult⟩ := exact_finish h (some _) (b.importedValues _) fun _ hmerge =>
      .imported hp ⟨_, hq, hparent, hmerge, rfl⟩
    exact ⟨hexact, fun hfaults => ⟨_, rfl, hresult hfaults⟩⟩
  | @own _ q e _ ref _ r _ _ hparent hp _ ih =>
    obtain ⟨habove, hfound⟩ := ih (enumeration?_eq_some_iff.1 hp) h
    obtain ⟨hexact, hresult⟩ :=
        @exact_finish b q e _ habove (some ref) ((r.2.map (·.values)).getD []) <| by
      intro hfaults hmerge
      obtain ⟨above, heq, hyields⟩ := hfound hfaults
      rw [heq] at hmerge ⊢
      exact .own hp hyields ⟨e, hq, hparent, hmerge, rfl⟩
    exact ⟨hexact, fun hfaults => ⟨_, rfl, hresult hfaults⟩⟩

theorem Ends.enumParent {result : Enumeration}
    (h : b.Ends q parent inherited result) (hq : b.declared.find? q = some (.enumeration e)) :
    b.enumParent q e = .ok parent := by
  obtain ⟨e', he', hparent, -⟩ := h
  rw [hq] at he'
  cases he'
  exact hparent

theorem Ends.finish {result : Enumeration} (h : b.Ends q parent inherited result)
    (hyields : b.Yields q result) (hq : b.declared.find? q = some (.enumeration e))
    (hfaults : es.faults = []) (hexact : es.Exact b) :
    ∃ es', finish q e parent inherited es = (es', result) ∧ es'.faults = [] ∧ es'.Exact b := by
  obtain ⟨e', he', -, hmerge, rfl⟩ := h
  rw [hq] at he'
  cases he'
  obtain ⟨hexact', -⟩ := exact_finish hexact parent inherited fun _ _ => hyields
  exact ⟨_, rfl, append_eq_nil_iff.2 ⟨hfaults, hmerge⟩, hexact'⟩

/-- **An enumeration that becomes something is finished as that**, whatever has been
    finished before. -/
theorem enumFrom_of_yields {n : Nat} (hn : unlisted b.declared.keys chain < n)
    (hq : b.declared.find? q = some (.enumeration e)) {result : Enumeration} (h : b.Yields q result)
    (hfaults : es.faults = []) (hexact : es.Exact b) (hnodup : chain.Nodup)
    (hchain : (chain ++ [q]).IsChain (Inherits b.declared .enumeration)) :
    ∃ es', b.enumFrom n chain q e es = (es', some result) ∧ es'.faults = [] ∧ es'.Exact b := by
  induction n generalizing chain q e result with
  | zero => omega
  | succ n ih =>
    have hnew : q ∉ chain := fun hmem => h.not_mem_loop (.of_chain hnodup hchain hmem) (by simp)
    have hyields := h
    rw [enumFrom]
    split
    · next done hdone =>
      rw [h.unique (hexact hfaults q done hdone)]
      exact ⟨es, rfl, hfaults, hexact⟩
    · rw [if_neg fun hmem => hnew (contains_iff_mem.1 hmem)]
      cases h with
      | root hends =>
        obtain ⟨es', hfinish, hrest⟩ := hends.finish hyields hq hfaults hexact
        simp only [hends.enumParent hq, hfinish]
        exact ⟨es', rfl, hrest⟩
      | imported hnone hends =>
        obtain ⟨es', hfinish, hrest⟩ := hends.finish hyields hq hfaults hexact
        simp only [hends.enumParent hq, hnone, hfinish]
        exact ⟨es', rfl, hrest⟩
      | @own _ ref p above _ hp habove hends =>
        have hparent := hends.enumParent hq
        have hlt : unlisted b.declared.keys (chain ++ [q]) < unlisted b.declared.keys chain :=
          unlisted_lt (subset_append_left _ _) (Table.mem_keys_of_find? hq) hnew (by simp)
        have hedge := inherits_of_enumParent hq hparent hp
        obtain ⟨es₁, hfound, hfaults₁, hexact₁⟩ :=
          ih (by omega) (enumeration?_eq_some_iff.1 hp) habove (nodup_concat hnodup hnew)
          (isChain_concat hchain (by simpa using hedge))
        obtain ⟨es', hfinish, hrest⟩ := hends.finish hyields hq hfaults₁ hexact₁
        simp only [hparent, hp, hfound, Option.map_some, Option.getD_some, hfinish]
        exact ⟨es', rfl, hrest⟩

end

variable {b : Binder}

theorem exact_enumerations (b : Binder) : b.enumerations.Exact b := by
  refine enumerations_induct (fun _ q result hq => ?_) fun q e es r hq h hrun => (hrun.exact hq h).1
  simp [Table.find?_empty] at hq

/-- **What is finished without a fault is what the declarations become.** -/
theorem yields_of_find? (h : b.enumerations.faults = []) {q : String} {result : Enumeration}
    (hq : b.enumerations.finished.find? q = some result) : b.Yields q result :=
  exact_enumerations b h q result hq

/-- **If every enumeration becomes something, all are finished without a fault.** -/
theorem faults_enumerations_of_yields
    (h : ∀ q e, b.declared.find? q = some (.enumeration e) → ∃ result, b.Yields q result) :
    b.enumerations.faults = [] := by
  have hall : b.enumerations.faults = [] ∧ b.enumerations.Exact b := by
    refine foldlRecOn (motive := fun es : Enumerations => es.faults = [] ∧ es.Exact b)
      b.declared.entries _ ⟨rfl, ?_⟩ fun es hes d hd => ?_
    · intro _ q result hq
      simp [Table.find?_empty] at hq
    · have hfind := (Table.mem_entries_iff _ _ _).1 hd
      obtain ⟨hfaults, hexact⟩ := hes
      obtain ⟨q, x⟩ := d
      cases x with
      | message | compound => exact ⟨hfaults, hexact⟩
      | enumeration e =>
        have hn : unlisted b.declared.keys [] < b.declared.size + 1 :=
          Nat.lt_succ_of_le (unlisted_keys_le b.declared [])
        obtain ⟨result, hyields⟩ := h q e hfind
        obtain ⟨es', hfound, hrest⟩ :=
          enumFrom_of_yields hn hfind hyields hfaults hexact nodup_nil
          (isChain_singleton q)
        simp only [Declaration.enumeration?, hfound]
        exact hrest
  exact hall.1

theorem find?_enumerations_iff (h : b.enumerations.faults = []) {q : String}
    {result : Enumeration} : b.enumerations.finished.find? q = some result ↔ b.Yields q result := by
  refine ⟨yields_of_find? h, fun hyields => ?_⟩
  obtain ⟨e, he⟩ : ∃ e, b.declared.find? q = some (.enumeration e) := by
    cases hyields with
    | root hends | imported _ hends | own _ _ hends =>
      obtain ⟨e, he, -⟩ := hends
      exact ⟨e, he⟩
  obtain ⟨result', hfound, -⟩ := find?_enumerations h he
  rw [hfound, hyields.unique (yields_of_find? h hfound)]

/-! ## Messages -/

/-- **No cycle of messages is reported just if there is none.** -/
theorem messageCycleFaults_eq_nil_iff (b : Binder) :
    b.messageCycleFaults = [] ↔ ∀ c, ¬ Loop b.Follows c := by
  constructor
  · intro h c
    have hreports := reports_follows b
    rw [h] at hreports
    exact hreports.not_loop
  · intro h
    refine foldlRecOn (motive := fun s : List String × List Fault => s.2 = [])
      b.declared.entries _ rfl fun s hs d _ => ?_
    obtain ⟨reported, faults⟩ := s
    simp only at hs ⊢
    split
    · rw [addMessageCycle]
      split
      · exact hs
      · rcases messageCycle?_cases b d.1 with ⟨hnone, -⟩ | ⟨_, cycle, -, hloop, -⟩
        · rw [hnone]
          exact hs
        · exact absurd hloop (h cycle)
    · exact hs

theorem faults_messages_eq_nil_iff {enums : Table Enumeration} : (b.messages enums).2 = [] ↔
    ∀ q m, b.declared.find? q = some (.message m) → (b.message enums q m).2 = [] := by
  constructor
  · intro h q m hq
    exact (find?_messages h hq).2
  · intro h
    rw [messages_eq]
    refine flatMap_eq_nil_iff.2 fun e he => ?_
    obtain ⟨x, hx, hmessage⟩ := Table.mem_selected_iff.1 he
    cases x with
    | message m =>
      cases hmessage
      exact h e.1 _ hx
    | enumeration | compound => cases hmessage

end Binder

end Model

end MessageSchema
