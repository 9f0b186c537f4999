/-
  References of models resolve.
-/
import MessageSchema.Proofs.Binding
import MessageSchema.Proofs.Uniqueness

namespace MessageSchema

open List Option

/-! ## The references of a model -/

/-- The references in a type, at any depth. -/
def FieldType.refs : FieldType → List TypeRef
  | primitive _ => []
  | entity ref => [ref]
  | compound _ _ ref => ref.toList
  | array element => element.refs
  | map key value => key.refs ++ value.refs

namespace Model

/-- The references in a field: those in its type, and the one that it is known by. -/
def Field.refs (f : Field) : List TypeRef := f.type.refs ++ f.type.outermost?.toList

def Message.refs (m : Message) : List TypeRef := m.parent.toList ++ m.fields.flatMap Field.refs

def Namespace.refs (ns : Namespace) : List TypeRef :=
  ns.messages.flatMap Message.refs ++ (ns.enums ++ ns.options).filterMap (·.parent)

/-- All references of a model. -/
def refs (m : Model) : List TypeRef := m.namespaces.flatMap Namespace.refs

end Model

theorem FieldType.mem_refs_of_outermost? {T : FieldType} {ref : TypeRef}
    (h : T.outermost? = some ref) : ref ∈ T.refs := by
  induction T with
  | primitive p => cases h
  | entity r => cases h; exact mem_singleton_self _
  | compound base components r => cases h
  | array element ih => exact ih h
  | map key value ihk ihv =>
    cases hv : value.outermost? with
    | none =>
      simp only [outermost?, hv] at h
      exact mem_append_left _ (ihk h)
    | some r =>
      simp only [outermost?, hv] at h
      exact mem_append_right _ (ihv (hv.trans h))

/-! ## Where references come from -/

namespace Draft

section
variable {P : TypeName → TypeRef → Prop} {Q : TypeRef → Prop} {ref : TypeRef}
  {T : MessageSchema.FieldType}

theorem ScalarType.Bound.exists_of_mem {s : ScalarType} (h : s.Bound P T) (href : ref ∈ T.refs) :
    ∃ n, P n ref := by
  cases h with
  | primitive p => cases href
  | entity hn _ => cases mem_singleton.1 href; exact ⟨_, hn⟩
  | compound hn _ => cases mem_singleton.1 href; exact ⟨_, hn⟩

theorem ElementType.Bound.exists_of_mem {t : ElementType} (h : t.Bound P Q T)
    (href : ref ∈ T.refs) : (∃ n, P n ref) ∨ Q ref := by
  cases h with
  | scalar hs => exact .inl (hs.exists_of_mem href)
  | inline hq => cases mem_singleton.1 href; exact .inr hq
  | compound p components => cases href

theorem FieldType.Bound.exists_of_mem {t : FieldType} (h : t.Bound P Q T) (href : ref ∈ T.refs) :
    (∃ n, P n ref) ∨ Q ref := by
  induction h with
  | element he => exact he.exists_of_mem href
  | array he => exact he.exists_of_mem href
  | map hk _ ih =>
    rcases mem_append.1 href with href | href
    · exact .inl (hk.exists_of_mem href)
    · exact ih href

theorem exists_of_rel_some {R : TypeName → TypeRef → Prop} {o : Option TypeName}
    (h : Rel R o (some ref)) : ∃ n, o = some n ∧ R n ref := by
  cases h with
  | some h => exact ⟨_, rfl, h⟩

theorem Message.Bound.exists_of_mem {m : Message} {result : Model.Message} (h : m.Bound P Q result)
    (href : ref ∈ result.refs) : (∃ n, P n ref) ∨ Q ref := by
  rcases mem_append.1 href with href | href
  · have hparent := h.parent
    rw [mem_toList.1 href] at hparent
    obtain ⟨n, -, hn, -⟩ := exists_of_rel_some hparent
    exact .inl ⟨n, hn⟩
  · obtain ⟨F, hF, href⟩ := mem_flatMap.1 href
    obtain ⟨f, -, -, hbound⟩ := exists_left_of_mem h.fields hF
    rcases mem_append.1 href with href | href
    · exact hbound.exists_of_mem href
    · exact hbound.exists_of_mem (FieldType.mem_refs_of_outermost? (mem_toList.1 href))

/-- Every reference in a namespace is what a name or a type written in place became. -/
theorem Scope.Bound.exists_of_mem {s : Scope} {ns : Model.Namespace} (h : s.Bound P Q ns)
    (href : ref ∈ ns.refs) : (∃ n, P n ref) ∨ Q ref := by
  rcases mem_append.1 href with href | href
  · obtain ⟨result, hresult, href⟩ := mem_flatMap.1 href
    obtain ⟨m, -, hbound⟩ := exists_left_of_mem h.messages hresult
    exact hbound.exists_of_mem href
  · obtain ⟨result, hresult, hparent⟩ := mem_filterMap.1 href
    obtain ⟨e, -, hbound⟩ := exists_left_of_mem (rel_append h.enums h.options) hresult
    obtain ⟨n, -, hn, -⟩ := exists_of_rel_some (hparent ▸ hbound.parent)
    exact .inl ⟨n, hn⟩

end

end Draft

/-! ## References and entities -/

/-- Looking up a reference from a file gives an entity of its name and kind. -/
def Library.Resolves (lib : Library) (f : String) (ref : TypeRef) : Prop :=
  ∃ e, lib.resolve? f ref = some e ∧ e.qualified = ref.name ∧ e.kind = ref.kind

namespace System

variable {ext : String} {source : String → Option String} {final : String → Option Draft}
  {lib : Library} (h : System ext source final lib)
include h

variable {f : String}

theorem mem_reachable_self {m : Model} (hm : lib.find? f = some m) : m ∈ lib.reachable f :=
  (Library.mem_reachable_iff h.closed (Table.contains_of_find? hm)).2 ⟨f, .refl, hm⟩

theorem mem_reachable_of_imported {root m : Model} (hroot : lib.find? f = some root)
    (hm : m ∈ Model.Binder.importedModels lib root.imports) : m ∈ lib.reachable f := by
  obtain ⟨k, hk, hfind⟩ := mem_filterMap.1 hm
  obtain ⟨g, hg, hk⟩ := mem_flatMap.1 (mem_eraseDups.1 hk)
  obtain ⟨hreach, -⟩ := Library.reaches_of_mem_reachableFiles hk
  refine (Library.mem_reachable_iff h.closed (Table.contains_of_find? hroot)).2 ⟨k, ?_, hfind⟩
  exact .head ⟨root, hroot, hg⟩ hreach

section
variable {f : String} {m : Model} (hm : lib.find? f = some m) {ref : TypeRef}
include hm

variable {ns : Model.Namespace}

theorem resolve?_of_own? {m' : Model} (hm' : m' ∈ lib.reachable f) {e : Model.Entity}
    (he : m'.own? ref.name = some e) (hkind : e.kind = ref.kind) :
    lib.resolve? f ref = some e ∧ e.qualified = ref.name := by
  obtain ⟨d, hmodels⟩ := h.models (h.mem_reachable hm').2
  have hlookup : lib.lookup? f ref.name = some e := (h.lookup?_iff hm).2 ⟨m', hm', he⟩
  refine ⟨?_, (hmodels.own?_elim he).1⟩
  rw [Library.resolve?, hlookup]
  exact filter_eq_some_iff.2 ⟨rfl, by simpa using hkind⟩

/-- **What a name is bound to can be looked up.** -/
theorem resolves_of_puts {d : Draft} (hmodels : Model.Models lib d m) {n : Draft.TypeName}
    (hn : (Model.binderOf lib d m.imports).Puts n ref) : lib.Resolves f ref := by
  obtain ⟨-, hname, ⟨x, hx, hkind⟩ | ⟨-, e, he, hkind⟩⟩ := hn.cases
  · obtain ⟨e, he, hek⟩ := hmodels.own?_of_declared hx
    rw [← hname] at he
    obtain ⟨hres, hq⟩ := h.resolve?_of_own? hm (h.mem_reachable_self hm) he (hek.trans hkind.symm)
    exact ⟨e, hres, hq, hek.trans hkind.symm⟩
  · obtain ⟨m', hm', he⟩ := exists_of_findSome?_eq_some he
    rw [← hname] at he
    obtain ⟨hres, hq⟩ := h.resolve?_of_own? hm (h.mem_reachable_of_imported hm hm') he hkind.symm
    exact ⟨e, hres, hq, hkind.symm⟩

theorem resolves_of_mem_refs (href : ref ∈ m.refs) : lib.Resolves f ref := by
  obtain ⟨d, hmodels⟩ := h.models hm
  obtain ⟨ns, hns, href⟩ := mem_flatMap.1 href
  obtain ⟨v, hv, rfl⟩ := hmodels.mem_namespaces.1 hns
  rcases (hmodels.bound hv (Q := fun _ => False)).exists_of_mem href with ⟨n, hn⟩ | hfalse
  · exact h.resolves_of_puts hm hmodels hn
  · exact hfalse.elim

theorem kind_of_message_parent (hns : ns ∈ m.namespaces) {x : Model.Message}
    (hx : x ∈ ns.messages) (href : x.parent = some ref) : ref.kind = .message := by
  obtain ⟨d, hmodels⟩ := h.models hm
  obtain ⟨v, hv, rfl⟩ := hmodels.mem_namespaces.1 hns
  obtain ⟨y, -, hbound⟩ :=
    exists_left_of_mem (hmodels.bound hv (Q := fun _ => False)).messages hx
  obtain ⟨n, -, -, hkind⟩ := Draft.exists_of_rel_some (href ▸ hbound.parent)
  exact hkind

theorem kind_of_enumeration_parent (hns : ns ∈ m.namespaces) {x : Model.Enumeration}
    (hx : x ∈ ns.enums ++ ns.options) (href : x.parent = some ref) : ref.kind = .enumeration := by
  obtain ⟨d, hmodels⟩ := h.models hm
  obtain ⟨v, hv, rfl⟩ := hmodels.mem_namespaces.1 hns
  have hscope := hmodels.bound hv (Q := fun _ => False)
  obtain ⟨y, -, hbound⟩ := exists_left_of_mem (rel_append hscope.enums hscope.options) hx
  obtain ⟨n, -, -, hkind⟩ := Draft.exists_of_rel_some (href ▸ hbound.parent)
  exact hkind

end

end System

variable {e : Model.Entity}

theorem Model.Entity.eq_message (h : e.kind = .message) : ∃ m, e = .message m := by
  cases e with
  | message m => exact ⟨m, rfl⟩
  | enumeration e => simp only [kind] at h; split at h <;> cases h
  | compound c => cases h

theorem Model.Entity.eq_enumeration (h : e.kind = .enumeration) :
    ∃ x, e = .enumeration x ∧ x.kind ≠ .flags := by
  cases e with
  | message m => cases h
  | enumeration x =>
    simp only [kind] at h
    split at h
    · cases h
    · next hkind => exact ⟨x, rfl, hkind⟩
  | compound c => cases h

namespace Compilation

/-- **Every reference resolves**: in each model of a compilation, to an entity of its
    name and kind; the parent of a message to a message, and the parent of an
    enumeration to an enumeration that is no set of flags. -/
theorem resolves_of_compiles {fs : FileSystem} {ext path : String} {source : String → Option String}
    {lib : Library} (h : Compiles fs ext path source lib) :
    lib.contains (Path.absolute path) = true ∧ ∀ m ∈ lib.reachable (Path.absolute path),
      (∀ ref ∈ m.refs, lib.Resolves m.file ref) ∧ ∀ ns ∈ m.namespaces,
        (∀ x ∈ ns.messages, ∀ ref, x.parent = some ref →
          ∃ p, lib.resolve? m.file ref = some (.message p)) ∧
        ∀ x ∈ ns.enums ++ ns.options, ∀ ref, x.parent = some ref →
          ∃ p, lib.resolve? m.file ref = some (.enumeration p) ∧ p.kind ≠ .flags := by
  obtain ⟨final, hsys, hroot⟩ := h.system
  refine ⟨hroot, fun m hm => ?_⟩
  have hfind := (hsys.mem_reachable hm).2
  have hrefs : ∀ ref ∈ m.refs, lib.Resolves m.file ref :=
    fun _ href => hsys.resolves_of_mem_refs hfind href
  refine ⟨hrefs, fun ns hns => ⟨fun x hx ref href => ?_, fun x hx ref href => ?_⟩⟩
  · have hmem : ref ∈ m.refs := mem_flatMap.2 ⟨ns, hns, mem_append_left _
      (mem_flatMap.2 ⟨x, hx, mem_append_left _ (mem_toList.2 href)⟩)⟩
    obtain ⟨e, he, -, hkind⟩ := hrefs ref hmem
    rw [hsys.kind_of_message_parent hfind hns hx href] at hkind
    obtain ⟨p, rfl⟩ := Model.Entity.eq_message hkind
    exact ⟨p, he⟩
  · have hmem : ref ∈ m.refs := mem_flatMap.2 ⟨ns, hns, mem_append_right _
      (mem_filterMap.2 ⟨x, hx, href⟩)⟩
    obtain ⟨e, he, -, hkind⟩ := hrefs ref hmem
    rw [hsys.kind_of_enumeration_parent hfind hns hx href] at hkind
    obtain ⟨p, rfl, hp⟩ := Model.Entity.eq_enumeration hkind
    exact ⟨p, he, hp⟩

theorem resolves_shop : ∃ lib m, Compiles shop ".def" "/shop/order.def" shop.texts.find? lib ∧
    m ∈ lib.reachable "/shop/order.def" ∧ m.file = "/shop/item.def" ∧
    m.refs = [⟨.compound, "base::Spot"⟩, ⟨.enumeration, "base::Size"⟩, ⟨.enumeration, "base::Size"⟩,
      ⟨.enumeration, "base::Size"⟩] ∧
    lib.Resolves "/shop/item.def" ⟨.compound, "base::Spot"⟩ ∧
    lib.Resolves "/shop/item.def" ⟨.enumeration, "base::Size"⟩ := by
  obtain ⟨lib, hlib, hrefs⟩ :=
    exists_of_map_toOption (x := (ofFile shop ".def" "/shop/order.def").result)
    (p := fun lib => (lib.reachable "/shop/order.def").map fun m => (m.file, m.refs))
    (b := [("/shop/order.def", [⟨.message, "party::Party"⟩, ⟨.message, "item::Item"⟩,
        ⟨.message, "item::Item"⟩, ⟨.enumeration, "order::Order_state"⟩,
        ⟨.enumeration, "order::Order_state"⟩]),
      ("/shop/item.def", [⟨.compound, "base::Spot"⟩, ⟨.enumeration, "base::Size"⟩,
        ⟨.enumeration, "base::Size"⟩, ⟨.enumeration, "base::Size"⟩]),
      ("/shop/base.def", []), ("/shop/party.def", [⟨.message, "base::Record"⟩])])
    (by decide +kernel)
  obtain ⟨m, hm, hfields⟩ : ∃ m ∈ lib.reachable "/shop/order.def", (m.file, m.refs) =
      ("/shop/item.def", [⟨.compound, "base::Spot"⟩, ⟨.enumeration, "base::Size"⟩,
        ⟨.enumeration, "base::Size"⟩, ⟨.enumeration, "base::Size"⟩]) :=
    mem_map.1 (by rw [hrefs]; simp)
  obtain ⟨hfile, hlist⟩ := Prod.mk.inj hfields
  have hall := ((resolves_of_compiles (.ofFile hlib)).2 m (by rw [absolute_order]; exact hm)).1
  rw [hfile, hlist] at hall
  exact ⟨lib, m, .ofFile hlib, hm, hfile, hlist, hall _ (by simp), hall _ (by simp)⟩

end Compilation

end MessageSchema
