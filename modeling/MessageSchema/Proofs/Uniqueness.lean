/-
  Names are unique among the models of a compilation.

  * `System.lookup?_iff`: looking up a name finds the entity with that name, in
    whichever model it is.
-/
import MessageSchema.Proofs.Compiling

namespace MessageSchema

open Option List

theorem findSome?_eq_some_iff {α β : Type} {f : α → Option β} {xs : List α}
    (h : ∀ a ∈ xs, ∀ b ∈ xs, ∀ x y, f a = some x → f b = some y → x = y) {y : β} :
    xs.findSome? f = some y ↔ ∃ a ∈ xs, f a = some y := by
  refine ⟨exists_of_findSome?_eq_some, fun ⟨a, ha, hy⟩ => ?_⟩
  have hsome : (xs.findSome? f).isSome = true :=
    findSome?_isSome_iff.2 ⟨a, ha, by rw [hy]; rfl⟩
  obtain ⟨x, hx⟩ := isSome_iff_exists.1 hsome
  obtain ⟨b, hb, hbx⟩ := exists_of_findSome?_eq_some hx
  rw [hx, h b hb a ha x y hbx hy]

namespace System

variable {ext : String} {source : String → Option String} {final : String → Option Draft}
  {lib : Library} (h : System ext source final lib)
include h

theorem nodup_reachable (f : String) : (lib.reachable f).Nodup :=
  .of_map (·.file) (by rw [h.map_file_reachable]; exact Library.nodup_reachableFiles lib f)

section
variable {f : String} {root : Model} (hroot : lib.find? f = some root) {m m' : Model}
  (hm : m ∈ lib.reachable f) (hm' : m' ∈ lib.reachable f)
include hroot hm hm'

theorem eq_of_qualified {ns ns' : Model.Namespace} (hns : ns ∈ m.namespaces)
    (hns' : ns' ∈ m'.namespaces) (heq : ns.qualified = ns'.qualified) : m = m' := by
  obtain ⟨owner, howner⟩ := h.exists_owner hroot
  have hfile : m.file = m'.file := by
    refine some.inj ((howner m hm ns hns).symm.trans ?_)
    rw [heq]
    exact howner m' hm' ns' hns'
  have hfind := (h.mem_reachable hm).2
  rw [hfile, (h.mem_reachable hm').2] at hfind
  exact (some.inj hfind).symm

/-- **No two models reachable from a file own one name.** -/
theorem eq_of_own? {q : String} {e e' : Model.Entity} (he : m.own? q = some e)
    (he' : m'.own? q = some e') : m = m' := by
  obtain ⟨d, hmodels⟩ := h.models (h.mem_reachable hm).2
  obtain ⟨d', hmodels'⟩ := h.models (h.mem_reachable hm').2
  obtain ⟨-, v, hv, x, hx, hq, -⟩ := hmodels.own?_elim he
  obtain ⟨-, v', hv', x', hx', hq', -⟩ := hmodels'.own?_elim he'
  -- a qualified name determines the namespace that it is declared in
  obtain ⟨hqualified, -⟩ := QualifiedName.join_some_inj (hmodels.finished.isWord v hv x hx)
    (hmodels'.finished.isWord v' hv' x' hx') (hq.trans hq'.symm)
  refine h.eq_of_qualified hroot hm hm' (hmodels.mem_namespaces.2 ⟨v, hv, rfl⟩)
    (hmodels'.mem_namespaces.2 ⟨v', hv', rfl⟩) ?_
  exact (Model.nameOf_eq hmodels.finished hv).trans
    (hqualified.trans (Model.nameOf_eq hmodels'.finished hv').symm)

end

section
variable {f : String} {root : Model} (hroot : lib.find? f = some root)
include hroot

variable {q : String} {e : Model.Entity}

/-- **What is found for a name is what a reachable model owns**, in whichever order
    the models are searched. -/
theorem findSome?_own?_iff {ms : List Model} (hms : ms.Perm (lib.reachable f)) :
    ms.findSome? (·.own? q) = some e ↔ ∃ m ∈ lib.reachable f, m.own? q = some e := by
  refine (findSome?_eq_some_iff fun m hm m' hm' x y hx hy => ?_).trans
    (exists_congr fun m => and_congr_left fun _ => hms.mem_iff)
  have heq := h.eq_of_own? hroot (hms.mem_iff.1 hm) (hms.mem_iff.1 hm') hx hy
  rw [heq, hy] at hx
  exact (some.inj hx).symm

theorem lookup?_iff : lib.lookup? f q = some e ↔ ∃ m ∈ lib.reachable f, m.own? q = some e :=
  h.findSome?_own?_iff hroot (.refl _)

/-- **No two namespaces of the models reachable from a file have the same name.** -/
theorem nodup_namespaces :
    ((lib.reachable f).flatMap fun m => m.namespaces.map (·.qualified)).Nodup := by
  refine nodup_flatMap.2 ⟨fun m hm => ?_, ?_⟩
  · obtain ⟨d, hmodels⟩ := h.models (h.mem_reachable hm).2
    exact hmodels.nodup_namespaces
  · refine (h.nodup_reachable f).pairwise_of_forall_ne fun m hm m' hm' hne => ?_
    intro q hq hq'
    obtain ⟨ns, hns, rfl⟩ := mem_map.1 hq
    obtain ⟨ns', hns', heq⟩ := mem_map.1 hq'
    exact hne (h.eq_of_qualified hroot hm hm' hns hns' heq.symm)

/-- **No two entities of the models reachable from a file have the same name.** -/
theorem nodup_entities : ((lib.reachable f).flatMap fun m =>
    (m.namespaces.flatMap Model.Namespace.entities).map Model.Entity.qualified).Nodup := by
  refine nodup_flatMap.2 ⟨fun m hm => ?_, ?_⟩
  · obtain ⟨d, hmodels⟩ := h.models (h.mem_reachable hm).2
    exact hmodels.nodup_entities
  · refine (h.nodup_reachable f).pairwise_of_forall_ne fun m hm m' hm' hne => ?_
    intro q hq hq'
    obtain ⟨d, hmodels⟩ := h.models (h.mem_reachable hm).2
    obtain ⟨d', hmodels'⟩ := h.models (h.mem_reachable hm').2
    obtain ⟨e, he, heq⟩ := mem_map.1 hq
    obtain ⟨e', he', heq'⟩ := mem_map.1 hq'
    exact hne
      (h.eq_of_own? hroot hm hm' (hmodels.own?_iff.2 ⟨he, heq⟩) (hmodels'.own?_iff.2 ⟨he', heq'⟩))

end

end System

/-- Names are unique among the models reachable from a file. -/
structure Library.UniqueNames (lib : Library) (f : String) : Prop where
  namespaces : ((lib.reachable f).flatMap fun m => m.namespaces.map (·.qualified)).Nodup
  entities : ((lib.reachable f).flatMap fun m =>
    (m.namespaces.flatMap Model.Namespace.entities).map Model.Entity.qualified).Nodup
  owner : ∀ m ∈ lib.reachable f, ∀ m' ∈ lib.reachable f, ∀ q,
    (m.own? q).isSome → (m'.own? q).isSome → m = m'
  /-- the order of the models does not matter -/
  lookup? : ∀ ms : List Model, ms.Perm (lib.reachable f) → ∀ q,
    ms.findSome? (·.own? q) = lib.lookup? f q

theorem System.uniqueNames {ext : String} {source : String → Option String}
    {final : String → Option Draft} {lib : Library} (h : System ext source final lib) {f : String}
    (hf : lib.contains f = true) : lib.UniqueNames f := by
  obtain ⟨root, hroot⟩ := (Table.contains_iff _ _).1 hf
  refine ⟨h.nodup_namespaces hroot, h.nodup_entities hroot, ?_, ?_⟩
  · intro m hm m' hm' q hq hq'
    obtain ⟨e, he⟩ := isSome_iff_exists.1 hq
    obtain ⟨e', he'⟩ := isSome_iff_exists.1 hq'
    exact h.eq_of_own? hroot hm hm' he he'
  · intro ms hms q
    refine Option.ext fun e => ?_
    rw [h.findSome?_own?_iff hroot hms, h.lookup?_iff hroot]

namespace Compilation

/-- **Names are unique in a compilation**: among the models of the compiled file and of
    all that it imports, and so among those of each of these files. -/
theorem uniqueNames_of_compiles {fs : FileSystem} {ext path : String}
    {source : String → Option String} {lib : Library} (h : Compiles fs ext path source lib) :
    Path.absolute path ∈ lib.reachableFiles (Path.absolute path) ∧
      ∀ f ∈ lib.reachableFiles (Path.absolute path), lib.UniqueNames f := by
  obtain ⟨final, hsys, hroot⟩ := h.system
  refine ⟨?_, fun f hf => hsys.uniqueNames (Library.reaches_of_mem_reachableFiles hf).2⟩
  exact (Library.mem_reachableFiles_iff hsys.closed hroot).2 .refl

theorem uniqueNames_shop : ∃ lib, Compiles shop ".def" "/shop/order.def" shop.texts.find? lib ∧
    lib.reachableFiles "/shop/order.def" =
      ["/shop/order.def", "/shop/item.def", "/shop/base.def", "/shop/party.def"] ∧
    lib.UniqueNames "/shop/order.def" ∧ lib.UniqueNames "/shop/item.def" := by
  obtain ⟨lib, hlib, hfiles, -⟩ := ofFile_shop
  obtain ⟨-, hunique⟩ := uniqueNames_of_compiles (.ofFile hlib)
  rw [absolute_order, hfiles] at hunique
  exact ⟨lib, .ofFile hlib, hfiles, hunique _ (by decide), hunique _ (by decide)⟩

end Compilation

end MessageSchema
