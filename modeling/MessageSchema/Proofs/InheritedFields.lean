/-
  The fields of messages with those of their ancestors.
-/
import MessageSchema.Proofs.FieldOwners
import MessageSchema.Proofs.Keeping
import Mathlib.Order.WellFounded

namespace MessageSchema

open List Option Model.Binder Table

open Relation (ReflTransGen TransGen)

namespace Model

/-! ## Messages without faults -/

namespace Binder

variable {b : Binder} {enums : Table Enumeration} {q : String}

theorem free_of_fields {inherited : Table String} {own : List String} {fs : List Draft.Field}
    (h : (b.fields enums q inherited own fs).2 = []) : (fs.map (·.name)).Nodup ∧
      ∀ g ∈ fs, g.name ∉ own ∧ inherited.find? g.name = none := by
  induction fs generalizing own with
  | nil => exact ⟨nodup_nil, forall_mem_nil _⟩
  | cons x fs ih =>
    rw [fields] at h
    split at h
    · cases h
    · next hown =>
      split at h
      · cases h
      · next hinherited =>
        obtain ⟨hnodup, hfree⟩ := ih (append_eq_nil_iff.1 h).2
        constructor
        · refine nodup_cons.2 ⟨fun hmem => ?_, hnodup⟩
          obtain ⟨g, hg, hname⟩ := mem_map.1 hmem
          exact (hfree g hg).1 (hname ▸ mem_cons_self)
        · refine forall_mem_cons.2 ⟨⟨mt contains_iff_mem.2 hown, hinherited⟩, fun g hg => ?_⟩
          exact ⟨fun hmem => (hfree g hg).1 (mem_cons_of_mem _ hmem), (hfree g hg).2⟩

theorem names_message {m : Draft.Message} (h : (b.message enums q m).2 = []) :
    (b.message enums q m).1.fields.map (·.name) = m.fields.map (·.name) :=
  (map_eq_of_forall₂ ((kept_message h).fields.imp fun _ _ hkept => hkept.name.symm)).symm

theorem outline?_of_declared {m : Draft.Message} (hq : b.declared.find? q = some (.message m))
    (h : (b.message enums q m).2 = []) : b.outline? q =
      some ((b.message enums q m).1.fields.map (·.name),
        (b.message enums q m).1.parent.map (·.name)) := by
  have hparent : m.parent.map (·.text) = (b.messageParent q m).1.map (·.name) := by
    rcases rel_cases (bound_messageParent (append_eq_nil_iff.1 h).1) with
      ⟨hm, hresult⟩ | ⟨n, ref, hm, hresult, hputs, -⟩
    · rw [hm, hresult]
      rfl
    · obtain ⟨-, hname, -⟩ := hputs.cases
      rw [hm, hresult, map_some, map_some, hname]
  rw [names_message h]
  simp only [outline?, message?_eq_some_iff.2 hq, hparent]
  rfl

end Binder

namespace Models

variable {lib : Library} {d : Draft} {m : Model} (h : Models lib d m)
include h

theorem own?_of_mem {e : Entity} (he : e ∈ m.entities) : m.own? e.qualified = some e := by
  obtain ⟨q, hq⟩ := (mem_values_iff _ _).1 he
  obtain ⟨hqualified, -⟩ := h.becomes_of_own? hq
  rw [hqualified]
  exact hq

theorem mem_entities {ns : Namespace} (hns : ns ∈ m.namespaces) {M : Message}
    (hM : M ∈ ns.messages) : .message M ∈ m.entities := by
  have hmem : Entity.message M ∈ ns.entities := by simp [Namespace.entities, hM]
  exact (mem_values_iff _ _).2 ⟨_, h.own?_iff.2 ⟨mem_flatMap.2 ⟨ns, hns, hmem⟩, rfl⟩⟩

theorem exists_message {M : Message} (hM : .message M ∈ m.entities) : ∃ x,
    (Index.ofDraft d).declared.find? M.qualified = some (.message x) ∧
      M = ((binderOf lib d m.imports).message (enumsOf lib d m.imports) M.qualified x).1 ∧
      ((binderOf lib d m.imports).message (enumsOf lib d m.imports) M.qualified x).2 = [] := by
  obtain ⟨-, v, -, x, -, -, hx, hbecomes⟩ := h.becomes_of_own? (h.own?_of_mem hM)
  cases hbecomes with
  | @message x _ hresult =>
    obtain ⟨hbuilt, hnil⟩ := Binder.find?_messages h.faultless.messages hx
    exact ⟨x, hx, (some.inj (hbuilt.symm.trans hresult)).symm, hnil⟩

end Models

end Model

/-! ## Ancestors -/

/-- The ancestors of a message, the first one without a parent: all of them messages of the
    models that a file reaches. -/
inductive Library.Ancestry (lib : Library) (f : String) : List Model.Message → Model.Message → Prop
  | root {m M} : m ∈ lib.reachable f → .message M ∈ m.entities → M.parent = none →
    Ancestry lib f [] M
  | child {above P m M ref} : Ancestry lib f above P → m ∈ lib.reachable f →
    .message M ∈ m.entities → M.parent = some ref → lib.message? f ref.name = some P →
    Ancestry lib f (above ++ [P]) M

namespace Library.Ancestry

variable {lib : Library} {f : String} {above : List Model.Message} {M : Model.Message}

theorem owner_of_mem (h : lib.Ancestry f above M) {A : Model.Message} (hA : A ∈ above ++ [M]) :
    ∃ m ∈ lib.reachable f, .message A ∈ m.entities := by
  induction h with
  | root hm hM =>
    cases mem_singleton.1 hA
    exact ⟨_, hm, hM⟩
  | child _ hm hM _ _ ih =>
    rcases mem_append.1 hA with hA | hA
    · exact ih hA
    · cases mem_singleton.1 hA
      exact ⟨_, hm, hM⟩

theorem fieldsFrom_eq (h : lib.Ancestry f above M) {n : Nat} {seen : List String}
    (hn : above.length < n) (hseen : ∀ A ∈ above ++ [M], A.qualified ∉ seen)
    (hnodup : ((above ++ [M]).map (·.qualified)).Nodup) :
    lib.fieldsFrom f n seen M = (above ++ [M]).flatMap (·.fields) := by
  induction h generalizing n seen with
  | @root m M hm hM hparent =>
    obtain ⟨n, rfl⟩ := Nat.exists_eq_succ_of_ne_zero (Nat.ne_of_gt hn)
    have hnew := hseen M mem_cons_self
    rw [fieldsFrom, if_neg (mt contains_iff_mem.1 hnew), hparent, nil_append, flatMap_singleton]
    rfl
  | @child above P m M ref _ hm hM href hfound ih =>
    obtain ⟨n, rfl⟩ := Nat.exists_eq_succ_of_ne_zero (Nat.ne_of_gt (Nat.zero_lt_of_lt hn))
    rw [length_append, length_singleton] at hn
    have hnew := hseen M (mem_append_right _ mem_cons_self)
    rw [map_append, nodup_append] at hnodup
    obtain ⟨hleft, -, hdisjoint⟩ := hnodup
    rw [fieldsFrom, if_neg (mt contains_iff_mem.1 hnew), href, bind_some, hfound,
      flatMap_append, flatMap_singleton]
    refine congrArg (· ++ M.fields) (ih (by omega) (fun A hA hmem => ?_) hleft)
    rcases mem_cons.1 hmem with hq | hmem
    · exact hdisjoint _ (mem_map_of_mem hA) _ mem_cons_self hq
    · exact hseen A (mem_append_left _ hA) hmem

end Library.Ancestry

namespace System

variable {ext : String} {source : String → Option String} {final : String → Option Draft}
  {lib : Library} (h : System ext source final lib)
include h

/-- **A message is met as it is in its model**, from every file that reaches it. -/
theorem outline?_eq {f : String} {m : Model} (hm : lib.find? f = some m) {d : Draft}
    (hd : Model.Models lib d m) {m' : Model} (hm' : m' ∈ lib.reachable f) {M : Model.Message}
    (hM : .message M ∈ m'.entities) :
    (Model.binderOf lib d m.imports).outline? M.qualified =
      some (M.fields.map (·.name), M.parent.map (·.name)) := by
  obtain ⟨d', hd'⟩ := h.models (h.mem_reachable hm').2
  have hown : m'.own? M.qualified = some (.message M) := hd'.own?_of_mem hM
  rcases h.mem_reachable_cases hm hm' with rfl | ⟨g, hg, hreach⟩
  · obtain ⟨x, hx, hbuilt, hnil⟩ := hd.exists_message hM
    rw [outline?_of_declared hx hnil, ← hbuilt]
  · cases hx : (Model.Index.ofDraft d).declared.find? M.qualified with
    | some x =>
      -- two files would own the name
      obtain ⟨e, he, -⟩ := hd.own?_of_declared hx
      obtain rfl := h.eq_of_own? hm (h.mem_reachable_self hm) hm' he hown
      obtain ⟨x, hx, hbuilt, hnil⟩ := hd.exists_message hM
      rw [outline?_of_declared hx hnil, ← hbuilt]
    | none =>
      have hmem : m' ∈ (Model.binderOf lib d m.imports).imported := by
        obtain ⟨hreaches, hfind⟩ := h.mem_reachable hreach
        refine mem_filterMap.2 ⟨m'.file, mem_eraseDups.2 (mem_flatMap.2 ⟨g, hg, ?_⟩), hfind⟩
        rw [← h.map_file_reachable]
        exact mem_map_of_mem hreach
      have himported : (Model.binderOf lib d m.imports).importedEntity? M.qualified =
          some (.message M) := by
        have hsome : ((Model.binderOf lib d m.imports).importedEntity? M.qualified).isSome = true :=
          findSome?_isSome_iff.2 ⟨m', hmem, by rw [hown]; rfl⟩
        obtain ⟨e, he⟩ := isSome_iff_exists.1 hsome
        obtain ⟨m₁, hm₁, he₁⟩ := exists_of_findSome?_eq_some he
        obtain rfl := h.eq_of_own? hm (h.mem_reachable_of_imported hm hm₁) hm' he₁ hown
        rw [he, ← he₁, hown]
      have hnone : (Model.binderOf lib d m.imports).message? M.qualified = none := by
        rw [message?, show (Model.binderOf lib d m.imports).declared.find? M.qualified =
          none from hx]
        rfl
      rw [outline?, hnone, himported]
      rfl

variable {f : String} {root : Model} (hroot : lib.find? f = some root)
include hroot

theorem exists_parent_of_message {m : Model} (hm : m ∈ lib.reachable f) {M : Model.Message}
    (hM : .message M ∈ m.entities) {ref : TypeRef} (href : M.parent = some ref) :
    ∃ m' ∈ lib.reachable m.file, ∃ P, .message P ∈ m'.entities ∧ P.qualified = ref.name ∧
      lib.resolve? f ref = some (.message P) ∧ lib.message? f ref.name = some P := by
  obtain ⟨hkind, m', hm', p, hp, hpkind, hname, hresolve⟩ := h.exists_parent_of_mem hroot hm hM href
  obtain ⟨P, rfl⟩ := Model.Entity.eq_message (hpkind.trans hkind)
  refine ⟨m', hm', P, hp, hname, hresolve, ?_⟩
  rw [Library.message?, (filter_eq_some_iff.1 hresolve).1]
  rfl

/-- **Every message has ancestors up to one without a parent.** -/
theorem exists_ancestry {m : Model} (hm : m ∈ lib.reachable f) {M : Model.Message}
    (hM : .message M ∈ m.entities) : ∃ above, lib.Ancestry f above M := by
  generalize hentity : Model.Entity.message M = entity at hM
  induction entity using (h.wellFounded_isParent hroot).induction generalizing m M with
  | h entity ih =>
    subst hentity
    cases href : M.parent with
    | none => exact ⟨[], .root hm hM href⟩
    | some ref =>
      obtain ⟨m', hm', P, hP, -, hresolve, hfound⟩ := h.exists_parent_of_message hroot hm hM href
      obtain ⟨above, habove⟩ :=
        ih _ ⟨m, hm, hM, ref, href, hresolve⟩ (h.mem_reachable_trans hroot hm hm') rfl hP
      exact ⟨above ++ [P], .child habove hm hM href hfound⟩

theorem eq_of_qualified_message {A B : Model.Message}
    (hA : ∃ m ∈ lib.reachable f, .message A ∈ m.entities)
    (hB : ∃ m ∈ lib.reachable f, .message B ∈ m.entities) (hname : A.qualified = B.qualified) :
    A = B := by
  obtain ⟨m, hm, hA⟩ := hA
  obtain ⟨m', hm', hB⟩ := hB
  obtain ⟨d, hd⟩ := h.models (h.mem_reachable hm).2
  obtain ⟨d', hd'⟩ := h.models (h.mem_reachable hm').2
  have hown : m.own? B.qualified = some (.message A) := hname ▸ hd.own?_of_mem hA
  have hown' : m'.own? B.qualified = some (.message B) := hd'.own?_of_mem hB
  obtain rfl := h.eq_of_own? hroot hm hm' hown hown'
  cases hown.symm.trans hown'
  rfl

section
variable {above : List Model.Message} {M : Model.Message} (habove : lib.Ancestry f above M)
include habove

variable {A : Model.Message}

theorem transGen_isParent (hA : A ∈ above) :
    TransGen (lib.IsParent f) (.message A) (.message M) := by
  induction habove with
  | root => cases hA
  | @child above P m M ref _ hm hM href hfound ih =>
    obtain ⟨-, -, P', -, -, hresolve, hfound'⟩ := h.exists_parent_of_message hroot hm hM href
    cases hfound.symm.trans hfound'
    have hstep : lib.IsParent f (.message P) (.message M) := ⟨m, hm, hM, ref, href, hresolve⟩
    rcases mem_append.1 hA with hA | hA
    · exact (ih hA).tail hstep
    · rw [mem_singleton.1 hA]
      exact .single hstep

/-- **No ancestor comes twice.** -/
theorem nodup_ancestry : ((above ++ [M]).map (·.qualified)).Nodup := by
  induction habove with
  | root => exact nodup_singleton _
  | @child above P m M ref hP hm hM href hfound ih =>
    have hchild : lib.Ancestry f (above ++ [P]) M := .child hP hm hM href hfound
    rw [map_append]
    refine nodup_append.2 ⟨ih, nodup_singleton _, ?_⟩
    intro q hq q' hq' heq
    obtain ⟨A, hA, rfl⟩ := mem_map.1 hq
    rw [map_singleton, mem_singleton] at hq'
    -- it would be an ancestor of itself
    obtain rfl := h.eq_of_qualified_message hroot (hP.owner_of_mem hA) ⟨m, hm, hM⟩ (heq.trans hq')
    exact (h.wellFounded_isParent hroot).transGen.irrefl.irrefl _
      (h.transGen_isParent hroot hchild hA)

theorem length_ancestry_lt : above.length < lib.entityCount + 1 := by
  have hsub : (above ++ [M]).map (·.qualified) ⊆
      (lib.values.flatMap Model.entities).map Model.Entity.qualified := by
    intro q hq
    obtain ⟨A, hA, rfl⟩ := mem_map.1 hq
    obtain ⟨m, hm, hA⟩ := habove.owner_of_mem hA
    have hvalue : m ∈ lib.values := (mem_values_iff _ _).2 ⟨m.file, (h.mem_reachable hm).2⟩
    exact mem_map.2 ⟨.message A, mem_flatMap.2 ⟨m, hvalue, hA⟩, rfl⟩
  have hle := (h.nodup_ancestry hroot habove).length_le_of_subset hsub
  rw [length_map, length_map, length_append, length_singleton] at hle
  exact hle.trans (Nat.le_succ _)

/-- **The walk along the ancestors is never cut short.** -/
theorem allFields_eq : lib.allFields f M = (above ++ [M]).flatMap (·.fields) :=
  habove.fieldsFrom_eq (h.length_ancestry_lt hroot habove) (fun _ _ => not_mem_nil)
    (h.nodup_ancestry hroot habove)

theorem leads_ancestry {m : Model} (hm : m ∈ lib.reachable f) {d : Draft}
    (hd : Model.Models lib d m) (howner : ∃ m' ∈ lib.reachable m.file, .message M ∈ m'.entities)
    (hA : A ∈ above ++ [M]) :
    ReflTransGen (Model.binderOf lib d m.imports).Leads M.qualified A.qualified ∧
      ∃ m' ∈ lib.reachable m.file, .message A ∈ m'.entities := by
  induction habove with
  | root =>
    cases mem_singleton.1 hA
    exact ⟨.refl, howner⟩
  | @child above P _ M ref hP _ _ href hfound ih =>
    rcases mem_append.1 hA with hA | hA
    · have hfind := (h.mem_reachable hm).2
      obtain ⟨m', hm', hM⟩ := howner
      obtain ⟨m₁, hm₁, P', hP', hname, -, hfound'⟩ :=
        h.exists_parent_of_message hroot (h.mem_reachable_trans hroot hm hm') hM href
      cases hfound.symm.trans hfound'
      obtain ⟨hpath, howner⟩ := ih ⟨m₁, h.mem_reachable_trans hfind hm' hm₁, hP'⟩ hA
      refine ⟨.head ⟨M.fields.map (·.name), ?_⟩ hpath, howner⟩
      rw [h.outline?_eq hfind hd hm' hM, href, hname, map_some]
    · cases mem_singleton.1 hA
      exact ⟨.refl, howner⟩

/-- **No two fields of a message and its ancestors have the same name.** -/
theorem nodup_fields : (((above ++ [M]).flatMap (·.fields)).map (·.name)).Nodup := by
  have hown : ∀ {M : Model.Message} {m : Model}, m ∈ lib.reachable f → .message M ∈ m.entities →
      (M.fields.map (·.name)).Nodup := by
    intro M m hm hM
    obtain ⟨d, hd⟩ := h.models (h.mem_reachable hm).2
    obtain ⟨x, -, hbuilt, hnil⟩ := hd.exists_message hM
    rw [hbuilt, names_message hnil]
    exact (free_of_fields (append_eq_nil_iff.1 hnil).2).1
  induction habove with
  | root hm hM =>
    rw [nil_append, flatMap_singleton]
    exact hown hm hM
  | @child above P m M ref hP hm hM href hfound ih =>
    rw [flatMap_append, flatMap_singleton, map_append]
    refine nodup_append.2 ⟨ih, hown hm hM, ?_⟩
    rintro n hn _ hn' rfl
    -- the name would be one of an ancestor, which the builder does not let pass
    obtain ⟨hreach, hfind⟩ := h.mem_reachable hm
    obtain ⟨d, hd⟩ := h.models hfind
    obtain ⟨x, hx, hbuilt, hnil⟩ := hd.exists_message hM
    obtain ⟨m', hm', P', hP', hname, -, hfound'⟩ := h.exists_parent_of_message hroot hm hM href
    cases hfound.symm.trans hfound'
    obtain ⟨F, hF, rfl⟩ := mem_map.1 hn
    obtain ⟨A, hA, hF⟩ := mem_flatMap.1 hF
    obtain ⟨hpath, m₁, hm₁, hA⟩ := h.leads_ancestry hroot hP hm hd ⟨m', hm', hP'⟩ hA
    have hfield : (Model.binderOf lib d m.imports).HasField A.qualified F.name :=
      ⟨_, _, h.outline?_eq hfind hd hm₁ hA, mem_map_of_mem hF⟩
    have htaken : ((Model.binderOf lib d m.imports).inheritedOf M.qualified x).contains F.name =
        true := by
      have hparent : ((Model.binderOf lib d m.imports).messageParent M.qualified x).1 = some ref :=
        (congrArg Model.Message.parent hbuilt).symm.trans href
      rw [inheritedOf, hparent]
      exact contains_fieldOwners (hname ▸ hpath) hfield
    rw [hbuilt, names_message hnil] at hn'
    obtain ⟨g, hg, hgname⟩ := mem_map.1 hn'
    obtain ⟨-, hfree⟩ := (free_of_fields (append_eq_nil_iff.1 hnil).2).2 g hg
    obtain ⟨owner, howner⟩ := (contains_iff _ _).1 htaken
    cases (hgname ▸ howner).symm.trans hfree

end

end System

namespace Compilation

/-- **The fields of a message are those of its parent and then its own.**  This holds for
    all messages of the files of a compilation, looked at from any file that reaches them.
    Their ancestors end with one without a parent, none of them comes twice, and the fields
    are those of all of them in order, no two with the same name. -/
theorem allFields_of_compiles {fs : FileSystem} {ext path : String}
    {source : String → Option String} {lib : Library} (h : Compiles fs ext path source lib)
    {f : String} (hf : f ∈ lib.reachableFiles (Path.absolute path)) {m : Model}
    (hm : m ∈ lib.reachable f) {ns : Model.Namespace} (hns : ns ∈ m.namespaces) {M : Model.Message}
    (hM : M ∈ ns.messages) :
    (M.parent = none → lib.allFields f M = M.fields) ∧
    (∀ ref, M.parent = some ref → ∃ P, lib.message? f ref.name = some P ∧ P.qualified = ref.name ∧
      lib.allFields f M = lib.allFields f P ++ M.fields) ∧
    (∃ above, lib.Ancestry f above M ∧ ((above ++ [M]).map (·.qualified)).Nodup ∧
      lib.allFields f M = (above ++ [M]).flatMap (·.fields)) ∧
    ((lib.allFields f M).map (·.name)).Nodup := by
  obtain ⟨final, hsys, -⟩ := h.system
  obtain ⟨root, hroot⟩ := (contains_iff _ _).1 (Library.reaches_of_mem_reachableFiles hf).2
  obtain ⟨d, hd⟩ := hsys.models (hsys.mem_reachable hm).2
  have hmem : .message M ∈ m.entities := hd.mem_entities hns hM
  obtain ⟨above, habove⟩ := hsys.exists_ancestry hroot hm hmem
  have hall := hsys.allFields_eq hroot habove
  refine ⟨fun hparent => ?_, fun ref href => ?_,
    ⟨above, habove, hsys.nodup_ancestry hroot habove, hall⟩, ?_⟩
  · cases habove with
    | root => rw [hall, nil_append, flatMap_singleton]
    | child _ _ _ href => cases hparent.symm.trans href
  · cases habove with
    | root _ _ hparent => cases hparent.symm.trans href
    | @child above P _ _ ref' hP _ _ href' hfound =>
      cases href.symm.trans href'
      obtain ⟨-, -, P', -, hname, -, hfound'⟩ := hsys.exists_parent_of_message hroot hm hmem href
      cases hfound.symm.trans hfound'
      refine ⟨P, hfound, hname, ?_⟩
      rw [hall, hsys.allFields_eq hroot hP, flatMap_append, flatMap_singleton]
  · rw [hall]
    exact hsys.nodup_fields hroot habove

/-- A message whose parent is declared after it, and whose grandparent is imported. -/
def climbing : FileSystem where
  texts := empty
    |>.insert "/b.def" "import \"a.def\" message C:B\x7bz:int\x7dmessage B:A\x7by:int\x7d"
    |>.insert "/a.def" "message A\x7bx:int\x7d"
  unreadable := []
  refusal := id

/-- The messages that a file reaches: their parents and the names of all their fields. -/
def fieldNames (lib : Library) (f : String) : List (Option TypeRef × List String) :=
  (lib.reachable f).flatMap fun m => m.namespaces.flatMap fun ns => ns.messages.map fun M =>
    (M.parent, (lib.allFields f M).map (·.name))

theorem allFields_climbing :
    ∃ lib m ns M P, Compiles climbing ".def" "/b.def" climbing.texts.find? lib ∧
    "/b.def" ∈ lib.reachableFiles (Path.absolute "/b.def") ∧ m ∈ lib.reachable "/b.def" ∧
      ns ∈ m.namespaces ∧
    M ∈ ns.messages ∧ M.parent = some ⟨.message, "b::B"⟩ ∧ lib.message? "/b.def" "b::B" = some P ∧
    lib.allFields "/b.def" M = lib.allFields "/b.def" P ++ M.fields ∧
    (lib.allFields "/b.def" M).map (·.name) = ["x", "y", "z"] := by
  obtain ⟨lib, hlib, hfound⟩ :=
    exists_of_map_toOption (x := (ofFile climbing ".def" "/b.def").result)
    (p := fun lib => (fieldNames lib "/b.def", lib.reachableFiles (Path.absolute "/b.def")))
    (b := ([(some ⟨.message, "b::B"⟩, ["x", "y", "z"]), (some ⟨.message, "a::A"⟩, ["x", "y"]),
    (none, ["x"])],
      ["/b.def", "/a.def"])) (by decide +kernel)
  obtain ⟨hnames, hfiles⟩ := Prod.mk.inj hfound
  have hmem : (some ⟨.message, "b::B"⟩, ["x", "y", "z"]) ∈ fieldNames lib "/b.def" := by
    rw [hnames]
    exact mem_cons_self
  obtain ⟨m, hm, hmem⟩ := mem_flatMap.1 hmem
  obtain ⟨ns, hns, hmem⟩ := mem_flatMap.1 hmem
  obtain ⟨M, hM, heq⟩ := mem_map.1 hmem
  obtain ⟨hparent, hall⟩ := Prod.mk.inj heq
  have hfile : "/b.def" ∈ lib.reachableFiles (Path.absolute "/b.def") := by
    rw [hfiles]
    exact mem_cons_self
  obtain ⟨-, hparents, -⟩ := allFields_of_compiles (.ofFile hlib) hfile hm hns hM
  obtain ⟨P, hP, -, hfields⟩ := hparents _ hparent
  exact ⟨lib, m, ns, M, P, .ofFile hlib, hfile, hm, hns, hM, hparent, hP, hfields, hall⟩

end Compilation

end MessageSchema
