/-
  Names and numbers as they are read from texts.
-/
import MessageSchema.Proofs.Reading

namespace MessageSchema

open List

/-! ## Names that are not empty -/

theorem image_ne_empty_of_mem_tokens {text : String} {t : Token}
    (h : t ∈ (Scan.ofText text).tokens) : t.image ≠ "" := by
  obtain ⟨piece, hp, ht⟩ := mem_filterMap.1 h
  have hne : piece.image ≠ [] := Lexer.image_ne_nil hp
  unfold Piece.token? at ht
  split at ht
  · cases ht
    intro hempty
    have hlist := String.toList_inj.2 hempty
    simp only [Piece.lexeme, String.toList_ofList, String.toList_empty] at hlist
    exact hne hlist
  · cases ht

namespace Tree

/-- A tree that follows the grammar, without empty tokens. -/
abbrev Lettered (t : Tree) : Prop := t.Valid fun t => t.image ≠ ""

theorem Valid.image_ne_empty {cs : List Tree} (h : (Tree.node .name cs).Lettered) :
    (Tree.node .name cs).image ≠ "" := by
  obtain ⟨t, rest, rfl, -, hrest⟩ := Derives.of_oneOf h.derives
  obtain rfl := hrest.of_nil
  have ht : t.image ≠ "" := (h.child (c := .leaf t) mem_cons_self).leaf_of
  intro hempty
  have hlist := String.toList_inj.2 hempty
  rw [toList_image_node, charsOfAll_singleton, toList_image_leaf] at hlist
  exact ht (String.toList_inj.1 hlist)

end Tree

/-! ## Numbered values -/

namespace Draft

/-- An enumeration in the namespace `home`, whose values are those written in a file,
    numbered in their order. -/
def Enumeration.NumberedIn (file home : String) (e : Enumeration) : Prop :=
  e.origin.home = home ∧ ∃ raws, number e.kind file home raws = .ok e.values

/-- The declarations of a scope are written in a file, and know that they are in the
    namespace `home`. -/
structure Scope.WrittenIn (file home : String) (s : Scope) : Prop where
  message : ∀ m ∈ s.messages, m.origin.home = home
  field : ∀ m ∈ s.messages, ∀ f ∈ m.fields, f.origin.file = file ∧ f.origin.home = home
  enumeration : ∀ e ∈ s.enums ++ s.options, e.NumberedIn file home
  compound : ∀ c ∈ s.compounds, c.origin.home = home

theorem Scope.WrittenIn.of_children (file home : String) (is : List Nat) :
    Scope.WrittenIn file home { children := is } := ⟨by simp, by simp, by simp, by simp⟩

theorem Scope.WrittenIn.append {file home : String} {s t : Scope} (hs : s.WrittenIn file home)
    (ht : t.WrittenIn file home) : (s ++ t).WrittenIn file home where
  message := forall_mem_append.2 ⟨hs.message, ht.message⟩
  field := forall_mem_append.2 ⟨hs.field, ht.field⟩
  compound := forall_mem_append.2 ⟨hs.compound, ht.compound⟩
  enumeration := by
    obtain ⟨henums, hoptions⟩ := forall_mem_append.1 hs.enumeration
    obtain ⟨henums', hoptions'⟩ := forall_mem_append.1 ht.enumeration
    exact forall_mem_append.2 ⟨forall_mem_append.2 ⟨henums, henums'⟩,
      forall_mem_append.2 ⟨hoptions, hoptions'⟩⟩

namespace Reader

variable {r : Reader} {home : String} {t : Tree}

theorem nameOf_ne_empty {cs : List Tree} (h : (Tree.node .namespaceBlock cs).Lettered) :
    nameOf (.node .namespaceBlock cs) ≠ "" := by
  obtain ⟨ds, hds⟩ := Tree.exists_find?_of_derives (r := .name) h.derives (by simp [Rule.body])
  rw [nameOf, hds]
  exact (h.child (Tree.mem_of_find? hds).1).image_ne_empty

theorem numberedIn_enumeration {kind : EnumKind} {e : Enumeration}
    (h : r.enumeration home kind t = .ok e) : e.NumberedIn r.source.file home := by
  obtain ⟨raws, -, h⟩ := bind_eq_ok h
  obtain ⟨values, hvalues, h⟩ := bind_eq_ok h
  cases h
  exact ⟨rfl, raws, hvalues⟩

theorem writtenIn_message {m : Message} (h : r.message home t = .ok m) :
    Scope.WrittenIn r.source.file home { messages := [m] } := by
  obtain ⟨fields, hfields, h⟩ := bind_eq_ok h
  cases h
  refine ⟨forall_mem_singleton.2 rfl, forall_mem_singleton.2 fun f hf => ?_, by simp, by simp⟩
  obtain ⟨c, -, hc⟩ := exists_of_mem_mapM hfields hf
  obtain ⟨type, -, hc⟩ := bind_eq_ok hc
  cases hc
  exact ⟨rfl, rfl⟩

/-- What trees contribute to a namespace is written in the file, and namespaces have names. -/
structure Contribution.WrittenIn (file home : String) (c : Contribution) : Prop where
  scope : c.scope.WrittenIn file home
  arena : ∀ ns ∈ c.arena, ns.name ≠ "" ∧ ns.scope.WrittenIn file ns.name

theorem Contribution.WrittenIn.of_scope {file : String} {s : Scope} (h : s.WrittenIn file home) :
    Contribution.WrittenIn file home { scope := s } := ⟨h, by simp⟩

theorem Contributes.writtenIn {p : Place} {ts : List Tree} {c : Contribution}
    (h : Contributes r p ts c) (hts : ∀ t ∈ ts, t.Lettered) : c.WrittenIn r.source.file p.home := by
  induction h with
  | nil | other => exact .of_scope (.of_children _ _ [])
  | cons _ _ ihone ihrest =>
    obtain ⟨ht, hts⟩ := forall_mem_cons.1 hts
    have hone := ihone (by simpa using ht)
    have hrest := ihrest hts
    exact ⟨hone.scope.append hrest.scope, forall_mem_append.2 ⟨hone.arena, hrest.arena⟩⟩
  | declaration _ ih => exact ih fun c hc => (hts _ (mem_singleton_self _)).child hc
  | namespaceBlock ht _ ih =>
    subst ht
    have hlettered := hts _ (mem_singleton_self _)
    have hinner := ih fun c hc => hlettered.child hc
    exact ⟨.of_children _ _ _,
      forall_mem_cons.2 ⟨⟨nameOf_ne_empty hlettered, hinner.scope⟩, hinner.arena⟩⟩
  | message hm => exact .of_scope (writtenIn_message hm)
  | enumeration hq he =>
    have hnumbered := numberedIn_enumeration he
    rcases hq with ⟨rfl, rfl⟩ | ⟨rfl, rfl⟩ <;>
      exact .of_scope ⟨by simp, by simp, by simpa using hnumbered, by simp⟩
  | compound => exact .of_scope ⟨by simp, by simp, by simp, forall_mem_singleton.2 rfl⟩

end Reader

/-- **What is read of a file is written in it**, in namespaces that have names. -/
theorem writtenIn_of_read {file text : String} {d : Draft} (h : read file text = .ok d) :
    d.top.WrittenIn file d.stem ∧ ∀ ns ∈ d.arena, ns.name ≠ "" ∧
      ns.scope.WrittenIn file ns.name := by
  obtain ⟨s, hs, h⟩ := bind_eq_ok h
  have hlettered : s.tree.Lettered :=
    (Source.read_valid hs).mono fun t ht => image_ne_empty_of_mem_tokens ht
  obtain ⟨all, hall, h⟩ := bind_eq_ok h
  cases h
  have hwritten := (Reader.contributes_of_contributions _ _ hall).writtenIn fun t ht =>
    hlettered.child ht
  rw [show (Reader.ofSource s).source.file = file from (Source.read_elim hs).1] at hwritten
  exact ⟨hwritten.scope, hwritten.arena⟩

end Draft

end MessageSchema
