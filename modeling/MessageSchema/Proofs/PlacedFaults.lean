/-
  Where the faults of a model are put.

  A draft that stands at the places `Q` has all its faults there: each is put at a
  declaration, a namespace, a field or a value of the draft, or at one of its imports.

  * `Model.placed_of_find?_declared`: the declarations that names are bound to are among
    those of the draft.
-/
import MessageSchema.Proofs.Ancestors
import MessageSchema.Proofs.FaultSources
import MessageSchema.Proofs.PlacedPasses

namespace MessageSchema.Model

open List Draft

variable {Q : String → Nat → Prop}

/-- All faults of a list are at places `Q`. -/
def AllPlaced (Q : String → Nat → Prop) (fs : List Fault) : Prop := ∀ f ∈ fs, f.Placed Q

/-! ## Declarations -/

def Declaration.Placed (Q : String → Nat → Prop) : Declaration → Prop
  | .message m => m.Placed Q
  | .enumeration e => e.Placed Q
  | .compound c => c.origin.Placed Q

variable {x : Declaration}

theorem Declaration.Placed.origin (h : x.Placed Q) : x.origin.Placed Q := by
  cases x with
  | message m => exact Message.Placed.origin h
  | enumeration e => exact Enumeration.Placed.origin h
  | compound c => exact h

theorem placed_of_mem_declarationsOf {s : Scope} (h : s.Placed Q) (hx : x ∈ declarationsOf s) :
    x.Placed Q := by
  simp only [declarationsOf, mem_append, mem_map] at hx
  rcases hx with ((⟨m, hm, rfl⟩ | ⟨e, he, rfl⟩) | ⟨e, he, rfl⟩) | ⟨c, hc, rfl⟩
  · exact h.message m hm
  · exact h.enumeration e he
  · exact h.options e he
  · exact h.compound c hc

section
variable {d : Draft} (hd : d.Placed Q)
include hd

theorem placed_of_mem_walk {v : Visit} (hv : v ∈ d.walk) : v.site.ns.Placed Q :=
  hd.arena _ (mem_of_getElem? (getElem?_site_of_mem_walk hv))

theorem placed_of_find?_declared {q : String} {x : Declaration}
    (h : (Index.ofDraft d).declared.find? q = some x) : x.Placed Q := by
  obtain ⟨v, hv, hx, -⟩ := exists_visit_of_find?_declared h
  exact placed_of_mem_declarationsOf (placed_of_mem_walk hd hv).scope hx

end

/-! ## Cycles of messages -/

namespace Binder

variable {b : Binder}

/-- A cycle of messages starts at a declared one. -/
theorem exists_declaration_of_messageCycle? {q again : String} {cycle : List String}
    (h : b.messageCycle? q = some (again, cycle)) : ∃ x, b.declared.find? again = some x := by
  have hagain : again ∈ cycle := by
    unfold messageCycle? at h
    split at h
    · cases h
      exact mem_append_right _ mem_cons_self
    · cases h
  rcases b.messageCycle?_cases q with ⟨hnone, -⟩ | ⟨again', cycle', hsome, hloop, -⟩
  · rw [h] at hnone
    cases hnone
  · rw [h] at hsome
    cases hsome
    obtain ⟨y, -, m, p, hm, -⟩ := hloop.exists_next hagain
    exact ⟨_, message?_eq_some_iff.1 hm⟩

/-- A cycle is put at the message that it starts with. -/
theorem exists_declaration_of_mem_messageCycleFaults {f : Fault} (h : f ∈ b.messageCycleFaults) :
    ∃ q x cause, b.declared.find? q = some x ∧ f = faultAt x.origin cause := by
  obtain ⟨q, again, cycle, hcycle, -, hfault⟩ := exists_cycle_of_mem_messageCycleFaults h
  obtain ⟨x, hx⟩ := exists_declaration_of_messageCycle? hcycle
  exact ⟨again, x, _, hx, hfault x hx⟩

end Binder

/-- **All faults of a model are put at places of its draft.** -/
theorem allPlaced_ofDraft (lib : Library) {d : Draft} (hd : d.Placed Q) {imports : Table String}
    (hkeys : ∀ e ∈ imports.entries, Q d.file (importLine d e.1)) :
    AllPlaced Q (ofDraft lib d imports).2 := by
  intro f hf
  cases faulted_of_mem hf with
  | outside hx => exact ⟨_, rfl, (placed_of_mem_declarationsOf hd.top hx).origin⟩
  | namespaceTwice hv => exact ⟨_, rfl, (placed_of_mem_walk hd hv).line⟩
  | definitionTwice hv hx =>
    exact ⟨_, rfl, (placed_of_mem_declarationsOf (placed_of_mem_walk hd hv).scope hx).origin⟩
  | namespaceInFiles he => exact ⟨_, rfl, hkeys _ he⟩
  | cycle h =>
    obtain ⟨q, x, cause, hx, rfl⟩ := Binder.exists_declaration_of_mem_messageCycleFaults h
    exact ⟨_, rfl, (placed_of_find?_declared hd hx).origin⟩
  | @enumeration q e _ hq h =>
    have he : e.Placed Q := placed_of_find?_declared hd hq
    cases h with
    | unbound h =>
      obtain ⟨y, hy, context, -, rfl⟩ := h
      obtain ⟨p, -, rfl⟩ := Enumeration.mem_mentions.1 hy
      exact ⟨_, rfl, he.origin⟩
    | parent | cycle => exact ⟨_, rfl, he.origin⟩
    | value hv => exact ⟨_, rfl, he.value _ hv⟩
  | @message q m _ hq h =>
    have hm : m.Placed Q := placed_of_find?_declared hd hq
    cases h with
    | unbound h =>
      obtain ⟨y, hy, context, -, rfl⟩ := h
      rcases Message.mem_mentions.1 hy with ⟨p, -, rfl⟩ | ⟨g, hg, n, -, rfl⟩
      · exact ⟨_, rfl, hm.origin⟩
      · exact ⟨_, rfl, (hm.field g hg).origin⟩
    | parent => exact ⟨_, rfl, hm.origin⟩
    | field hg => exact ⟨_, rfl, (hm.field _ hg).origin⟩
    | twice hfields =>
      exact ⟨_, rfl, (hm.field _ (hfields ▸ mem_append_right _ mem_cons_self)).origin⟩
    | inherited hg => exact ⟨_, rfl, (hm.field _ hg).origin⟩

end MessageSchema.Model
