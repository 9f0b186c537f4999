/-
  Which names the faults of a model are about.
-/
import MessageSchema.Proofs.FaultSources

namespace MessageSchema.Model

open List QualifiedName Index Table

/-! ## The index, with or without faults -/

namespace Index

section
variable {home q : String} {ds : List Declaration} {lines : Table Nat} {ix : Index}

/-- Names that were met have entries, and so has everything that is added. -/
theorem contains_addAll
    (hlines : ∀ n, lines.contains n = true → ix.declared.contains (join (some home) n) = true)
    (h : ix.declared.contains q = true ∨ ∃ x ∈ ds, join (some home) x.name = q) :
    (addAll home ds lines ix).declared.contains q = true := by
  induction ds generalizing lines ix with
  | nil => simpa [addAll] using h
  | cons d ds ih =>
    rw [addAll]
    split
    · next line hline =>
      refine ih hlines ?_
      rcases h with h | ⟨x, hx, rfl⟩
      · exact .inl h
      · rcases mem_cons.1 hx with rfl | hx
        · exact .inl (hlines _ (contains_of_find? hline))
        · exact .inr ⟨x, hx, rfl⟩
    · refine ih (fun n hn => ?_) ?_
      · rcases contains_insert_iff.1 hn with rfl | hn
        · exact contains_insert_iff.2 (.inl rfl)
        · exact contains_insert_iff.2 (.inr (hlines n hn))
      · rcases h with h | ⟨x, hx, rfl⟩
        · exact .inl (contains_insert_iff.2 (.inr h))
        · rcases mem_cons.1 hx with rfl | hx
          · exact .inl (contains_insert_iff.2 (.inl rfl))
          · exact .inr ⟨x, hx, rfl⟩

theorem find?_addAll {x : Declaration} (h : (addAll home ds lines ix).declared.find? q = some x) :
    (x ∈ ds ∧ join (some home) x.name = q) ∨ ix.declared.find? q = some x := by
  induction ds generalizing lines ix with
  | nil => exact .inr h
  | cons d ds ih =>
    rw [addAll] at h
    split at h
    · exact (ih h).imp_left (And.imp_left (mem_cons_of_mem _))
    · rcases ih h with h | h
      · exact .inl (h.imp_left (mem_cons_of_mem _))
      · rw [find?_insert] at h
        split at h
        · next hq =>
          cases h
          exact .inl ⟨mem_cons_self, hq.symm⟩
        · exact .inr h

end

variable {arena : List Draft.Namespace} {ix : Index} {s : Draft.Site} {q : String}

theorem contains_addNamespace (h : ix.declared.contains q = true ∨
    ∃ x ∈ declarationsOf s.ns.scope, join (some (homeOf arena s)) x.name = q) :
    (addNamespace arena ix s).declared.contains q = true := by
  refine contains_addAll (fun n hn => by cases hn) (h.imp_left fun h => ?_)
  split
  · exact h
  · exact h

theorem find?_addNamespace {x : Declaration}
    (h : (addNamespace arena ix s).declared.find? q = some x) :
    (x ∈ declarationsOf s.ns.scope ∧ join (some (homeOf arena s)) x.name = q) ∨
      ix.declared.find? q = some x := by
  refine (find?_addAll h).imp_right fun h => ?_
  split at h
  · exact h
  · exact h

end Index

variable {d : Draft} {q : String} {x : Declaration}

/-- **Everything that is declared has an entry.** -/
theorem contains_declared (hd : d.Finished)
    (h : (q, x) ∈ declarations d) : (Index.ofDraft d).declared.contains q = true := by
  obtain ⟨v, hv, hx, rfl⟩ := mem_declarations.1 h
  have hhome : homeOf d.arena v.site = v.site.qualified := nameOf_eq hd hv
  obtain ⟨before, after, hsplit⟩ := append_of_mem (mem_map_of_mem (f := (·.site)) hv)
  rw [Index.ofDraft, hsplit, foldl_append, foldl_cons]
  refine foldlRecOn (motive := fun ix : Index => ix.declared.contains _ = true) after _ ?_
    fun ix hix s _ => contains_addNamespace (.inl hix)
  exact contains_addNamespace (.inr ⟨x, hx, by rw [hhome]⟩)

theorem exists_visit_of_find?_declared (h : (Index.ofDraft d).declared.find? q = some x) :
    ∃ v ∈ d.walk, x ∈ declarationsOf v.site.ns.scope ∧
      join (some (homeOf d.arena v.site)) x.name = q := by
  rw [Index.ofDraft] at h
  revert h
  refine foldlRecOn (motive := fun ix : Index => ix.declared.find? q = some x →
      ∃ v ∈ d.walk, x ∈ declarationsOf v.site.ns.scope ∧
        join (some (homeOf d.arena v.site)) x.name = q) _ _
    (fun h => by cases h) fun ix hix s hs h => ?_
  rcases find?_addNamespace h with h | h
  · obtain ⟨v, hv, rfl⟩ := mem_map.1 hs
    exact ⟨v, hv, h⟩
  · exact hix h

/-! ## Faults about unresolved names -/

theorem mentions_subset_of_find?_declared
    (h : (Index.ofDraft d).declared.find? q = some x) : x.mentions ⊆ d.mentions := by
  obtain ⟨v, hv, hx, -⟩ := exists_visit_of_find?_declared h
  intro y hy
  exact Draft.mem_mentions.2 (.inr ⟨v.site.ns, mem_of_getElem? (Draft.getElem?_site_of_mem_walk hv),
    mem_flatMap.2 ⟨x, hx, hy⟩⟩)

/-- **A fault about an unresolved name is about a mention that is bound to nothing.** -/
theorem unbound_of_mem_ofDraft {lib : Library} {imports : Table String} {f : Fault}
    (hf : f ∈ (ofDraft lib d imports).2) (hcode : f.code = .unresolvedReference) :
    (binderOf lib d imports).Unbound d.mentions f := by
  cases faulted_of_mem hf with
  | outside | namespaceTwice | definitionTwice | namespaceInFiles => cases hcode
  | cycle h =>
    obtain ⟨-, -, names, -, hcause, -⟩ :=
      Binder.exists_cycle_of_mem_messageCycleFaults h
    rw [Fault.code, hcause] at hcode
    cases hcode
  | enumeration hq h =>
    cases h with
    | unbound h => exact h.mono (mentions_subset_of_find?_declared hq)
    | parent h => cases h.symm.trans hcode
    | cycle => cases hcode
    | value _ h =>
      have hmem : Code.unresolvedReference ∈ [Code.duplicateEnumValue, .invalidType] := hcode ▸ h
      simp at hmem
  | message hq h =>
    cases h with
    | unbound h => exact h.mono (mentions_subset_of_find?_declared hq)
    | parent h => cases h.symm.trans hcode
    | field _ h =>
      have hmem : Code.unresolvedReference ∈ Binder.fieldCodes := hcode ▸ h
      simp [Binder.fieldCodes] at hmem
    | twice | inherited => cases hcode

end MessageSchema.Model
