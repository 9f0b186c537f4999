/-
  Names of fields that are taken.

  While a model is built, the message of a qualified name is the one that is declared, or
  else the one that is imported, and its parent is known by its name: `b.Leads` relates
  the names of messages to those of their parents.
-/
import MessageSchema.Proofs.Ancestors
import Mathlib.Logic.Relation

namespace MessageSchema

open List Option Table

namespace Table

variable {α : Type}

theorem find?_insertNew (t : Table α) (k k' : String) (v : α) :
    (t.insertNew k v).find? k' = (t.find? k').or (if k' = k then some v else none) := by
  unfold insertNew
  by_cases hk : t.contains k = true
  · obtain ⟨w, hw⟩ := (contains_iff _ _).1 hk
    rw [if_pos hk]
    split
    · next heq => rw [heq, hw, some_or]
    · rw [or_none]
  · have hnone : t.find? k = none := by
      rw [contains, Bool.not_eq_true, isSome_eq_false_iff, isNone_iff_eq_none] at hk
      exact hk
    rw [if_neg hk, find?_insert]
    split
    · next heq => rw [heq, hnone, none_or]
    · rw [or_none]

theorem find?_foldl_insertNew (ks : List String) (v : α) (t : Table α) (k : String) :
    (ks.foldl (fun t k => t.insertNew k v) t).find? k =
      (t.find? k).or (if k ∈ ks then some v else none) := by
  induction ks generalizing t with
  | nil => rw [foldl_nil, if_neg not_mem_nil, or_none]
  | cons l ks ih =>
    rw [foldl_cons, ih, find?_insertNew, Option.or_assoc]
    congr 1
    by_cases hl : k = l
    · subst hl
      rw [if_pos rfl, if_pos mem_cons_self, some_or]
    · by_cases hk : k ∈ ks
      · rw [if_neg hl, if_pos hk, if_pos (mem_cons_of_mem _ hk), none_or]
      · rw [if_neg hl, if_neg hk, if_neg (mt mem_cons.1 (not_or.2 ⟨hl, hk⟩)), none_or]

end Table

namespace Model

open Relation (ReflTransGen TransGen)

namespace Binder

variable {q : String} {owners : Table String} {f : String} {seen : List String}

/-! ## Messages by name -/

/-- The names of the fields and of the parent of the message with a qualified name. -/
def outline? (b : Binder) (q : String) : Option (List String × Option String) :=
  match b.message? q with
  | some m => some (m.fields.map (·.name), m.parent.map (·.text))
  | none => ((b.importedEntity? q).bind Entity.message?).map fun m =>
    (m.fields.map (·.name), m.parent.map (·.name))

/-- The parent of a message, by name. -/
def Leads (b : Binder) (child parent : String) : Prop :=
  ∃ fs, b.outline? child = some (fs, some parent)

/-- A message declares a field with this name. -/
def HasField (b : Binder) (q f : String) : Prop := ∃ fs p, b.outline? q = some (fs, p) ∧ f ∈ fs

/-- A field with this name is on the way from the parent of a message to its parents; it
    belongs to `owner`. -/
def InheritsField (b : Binder) (q : String) (m : Draft.Message) (f owner : String) : Prop :=
  ∃ ref, (b.messageParent q m).1 = some ref ∧ ReflTransGen b.Leads ref.name owner ∧
    b.HasField owner f

/-- All names that messages can have. -/
def messageNames (b : Binder) : List String :=
  b.declared.keys ++ b.imported.flatMap (·.symbols.keys)

variable {b : Binder}

theorem length_messageNames : b.messageNames.length = b.messageCount := by
  have hlength : ∀ m : Model, m.symbols.keys.length = m.entities.length := fun m => by
    rw [length_keys, entities, values, length_map, size]
  rw [messageNames, messageCount, length_append, length_keys, length_flatMap, length_flatMap]
  simp only [hlength]

theorem mem_messageNames {o : List String × Option String} (h : b.outline? q = some o) :
    q ∈ b.messageNames := by
  unfold outline? at h
  split at h
  · next m hm => exact mem_append_left _ (mem_keys_of_find? (message?_eq_some_iff.1 hm))
  · obtain ⟨m, hm, -⟩ := map_eq_some_iff.1 h
    obtain ⟨e, he, -⟩ := bind_eq_some_iff.1 hm
    obtain ⟨model, hmodel, hown⟩ := exists_of_findSome?_eq_some he
    exact mem_append_right _ (mem_flatMap.2 ⟨model, hmodel, mem_keys_of_find? hown⟩)

theorem leads_of_messageParent {m : Draft.Message} (hq : b.declared.find? q = some (.message m))
    {ref : TypeRef} (h : (b.messageParent q m).1 = some ref) : b.Leads q ref.name := by
  have hname : m.parent.map (·.text) = some ref.name := by
    unfold messageParent at h
    split at h
    · cases h
    · next p hp =>
      split at h
      · cases h
      · next ref' href =>
        split at h
        · cases h
          obtain ⟨-, hname, -⟩ := (show b.Puts p ref from href).cases
          rw [hp, map_some, hname]
        · cases h
  refine ⟨m.fields.map (·.name), ?_⟩
  simp only [outline?, message?_eq_some_iff.2 hq, hname]

theorem InheritsField.transGen {m : Draft.Message} (hq : b.declared.find? q = some (.message m))
    {owner : String} (h : b.InheritsField q m f owner) : TransGen b.Leads q owner := by
  obtain ⟨ref, href, hpath, -⟩ := h
  exact .head' (leads_of_messageParent hq href) hpath

/-! ## The walk along parents -/

theorem fieldOwnersFrom_cases (b : Binder) (n : Nat) (seen : List String) (q : String)
    (owners : Table String) :
    (q ∈ seen ∧ b.fieldOwnersFrom (n + 1) seen (some q) owners = owners) ∨
    (b.outline? q = none ∧ b.fieldOwnersFrom (n + 1) seen (some q) owners = owners) ∨
    ∃ fs p, q ∉ seen ∧ b.outline? q = some (fs, p) ∧
      b.fieldOwnersFrom (n + 1) seen (some q) owners =
      b.fieldOwnersFrom n (q :: seen) p (fs.foldl (fun t f => t.insertNew f q) owners) := by
  rw [fieldOwnersFrom]
  by_cases hq : q ∈ seen
  · exact .inl ⟨hq, if_pos (contains_iff_mem.2 hq)⟩
  · refine .inr ?_
    rw [if_neg (mt contains_iff_mem.1 hq), outline?]
    cases b.message? q with
    | some m => exact .inr ⟨_, _, hq, rfl, rfl⟩
    | none =>
      cases (b.importedEntity? q).bind Entity.message? with
      | some m => exact .inr ⟨_, _, hq, rfl, rfl⟩
      | none => exact .inl ⟨rfl, rfl⟩

theorem owner_of_fieldOwnersFrom {n : Nat} {start : Option String} {owner : String}
    (h : (b.fieldOwnersFrom n seen start owners).find? f = some owner) :
    owners.find? f = some owner ∨ ∃ q, start = some q ∧ ReflTransGen b.Leads q owner ∧
      b.HasField owner f := by
  induction n generalizing seen start owners with
  | zero => exact .inl h
  | succ n ih =>
    cases start with
    | none => exact .inl h
    | some q =>
      rcases b.fieldOwnersFrom_cases n seen q owners with ⟨-, heq⟩ | ⟨-, heq⟩ | ⟨fs, p, -,
        houtline, heq⟩
      · exact .inl (heq ▸ h)
      · exact .inl (heq ▸ h)
      · rw [heq] at h
        rcases ih h with h | ⟨q', rfl, hpath, hfield⟩
        · rw [find?_foldl_insertNew] at h
          rcases or_eq_some_iff.1 h with h | ⟨-, h⟩
          · exact .inl h
          · split at h
            · next hmem =>
              rw [← some.inj h]
              exact .inr ⟨q, rfl, .refl, fs, p, houtline, hmem⟩
            · cases h
        · exact .inr ⟨q, rfl, .head ⟨fs, houtline⟩ hpath, hfield⟩

/-- **An owner is on the way from a message to its parents, and has the field.** -/
theorem owner_of_fieldOwners {owner : String} (h : (b.fieldOwners q).find? f = some owner) :
    ReflTransGen b.Leads q owner ∧ b.HasField owner f := by
  rcases owner_of_fieldOwnersFrom h with h | ⟨q', hq', hrest⟩
  · cases h
  · cases hq'
    exact hrest

/-- The fields of all messages that were met have owners, and what these lead to was met
    as well or is next. -/
structure Covers (b : Binder) (seen : List String) (start : Option String) (owners : Table String) :
    Prop where
  next : ∀ y ∈ seen, ∀ p, b.Leads y p → p ∈ seen ∨ start = some p
  owned : ∀ y ∈ seen, ∀ f, b.HasField y f → owners.contains f = true

theorem Covers.mem_of_reflTransGen (h : b.Covers seen (some q) owners) (hq : q ∈ seen)
    {x y : String} (hx : x ∈ seen) (hpath : ReflTransGen b.Leads x y) : y ∈ seen := by
  induction hpath with
  | refl => exact hx
  | tail _ hyz ih =>
    rcases h.next _ ih _ hyz with hz | hz
    · exact hz
    · cases hz
      exact hq

theorem contains_fieldOwnersFrom {n : Nat} {start : Option String}
    (hcovers : b.Covers seen start owners) (hn : unlisted b.messageNames seen < n) {owner : String}
    (howner : owner ∈ seen ∨ ∃ q, start = some q ∧ ReflTransGen b.Leads q owner)
    (hf : b.HasField owner f) : (b.fieldOwnersFrom n seen start owners).contains f = true := by
  induction n generalizing seen start owners with
  | zero => cases hn
  | succ n ih =>
    cases start with
    | none =>
      rcases howner with hmem | ⟨q, hq, -⟩
      · exact hcovers.owned owner hmem f hf
      · cases hq
    | some q =>
      rcases b.fieldOwnersFrom_cases n seen q owners with ⟨hq, heq⟩ | ⟨hnone, heq⟩ | ⟨fs, p, hnew,
        houtline, heq⟩
      · -- what was met leads nowhere else
        rw [heq]
        refine hcovers.owned owner ?_ f hf
        rcases howner with hmem | ⟨q', hq', hpath⟩
        · exact hmem
        · cases hq'
          exact hcovers.mem_of_reflTransGen hq hq hpath
      · rw [heq]
        rcases howner with hmem | ⟨q', hq', hpath⟩
        · exact hcovers.owned owner hmem f hf
        · cases hq'
          rcases ReflTransGen.cases_head hpath with rfl | ⟨y, ⟨fs, hy⟩, -⟩
          · obtain ⟨fs, p, houtline, -⟩ := hf
            cases hnone.symm.trans houtline
          · cases hnone.symm.trans hy
      · rw [heq]
        have hkept : ∀ g, owners.contains g = true ∨ g ∈ fs →
            (fs.foldl (fun t f => t.insertNew f q) owners).contains g = true := by
          intro g hg
          rw [Table.contains, Table.find?_foldl_insertNew, isSome_or, Bool.or_eq_true]
          refine hg.imp id fun hmem => ?_
          rw [if_pos hmem]
          rfl
        refine ih ⟨?_, ?_⟩ ?_ ?_
        · intro y hy z hz
          rcases mem_cons.1 hy with rfl | hy
          · obtain ⟨fs', hz⟩ := hz
            cases houtline.symm.trans hz
            exact .inr rfl
          · rcases hcovers.next y hy z hz with hmem | hstart
            · exact .inl (mem_cons_of_mem _ hmem)
            · cases hstart
              exact .inl mem_cons_self
        · intro y hy g hg
          rcases mem_cons.1 hy with rfl | hy
          · obtain ⟨fs', p', hg, hmem⟩ := hg
            cases houtline.symm.trans hg
            exact hkept g (.inr hmem)
          · exact hkept g (.inl (hcovers.owned y hy g hg))
        · have hlt := unlisted_lt (subset_cons_self q seen) (mem_messageNames houtline) hnew
            mem_cons_self
          omega
        · rcases howner with hmem | ⟨q', hq', hpath⟩
          · exact .inl (mem_cons_of_mem _ hmem)
          · cases hq'
            rcases ReflTransGen.cases_head hpath with rfl | ⟨y, ⟨fs', hy⟩, hrest⟩
            · exact .inl mem_cons_self
            · cases houtline.symm.trans hy
              exact .inr ⟨y, rfl, hrest⟩

/-- **Every field on the way from a message to its parents has an owner.** -/
theorem contains_fieldOwners {owner : String} (hpath : ReflTransGen b.Leads q owner)
    (hf : b.HasField owner f) : (b.fieldOwners q).contains f = true := by
  refine contains_fieldOwnersFrom ⟨?_, ?_⟩ ?_ (.inr ⟨q, rfl, hpath⟩) hf
  · exact fun y hy => absurd hy not_mem_nil
  · exact fun y hy => absurd hy not_mem_nil
  · exact Nat.lt_succ_of_le (length_messageNames ▸ unlisted_le b.messageNames [])

theorem contains_fieldOwners_iff :
    (b.fieldOwners q).contains f = true ↔ ∃ owner, ReflTransGen b.Leads q owner ∧
      b.HasField owner f := by
  refine ⟨fun h => ?_, fun ⟨_, hpath, hf⟩ => contains_fieldOwners hpath hf⟩
  obtain ⟨owner, howner⟩ := (contains_iff _ _).1 h
  exact ⟨owner, owner_of_fieldOwners howner⟩

/-! ## Faults about the names of fields -/

/-- A fault about a field of the message `q` whose name is taken. -/
def Taken (q : String) (g : Draft.Field) (f : Fault) : Prop :=
  f = faultAt g.origin (.fieldTwice g.name q) ∨
    ∃ owner, f = faultAt g.origin (.fieldInherited g.name q owner)

/-- A field is faulted if an earlier one has its name, or an ancestor does. -/
theorem exists_taken (enums : Table Enumeration) (q : String) (inherited : Table String)
    (own : List String) {before : List Draft.Field} {g : Draft.Field} (after : List Draft.Field)
    (h : g.name ∈ own ∨ g.name ∈ before.map (·.name) ∨ inherited.contains g.name = true) :
    ∃ f ∈ (b.fields enums q inherited own (before ++ g :: after)).2, Taken q g f := by
  induction before generalizing own with
  | nil =>
    rw [nil_append, fields]
    split
    · exact ⟨_, mem_cons_self, .inl rfl⟩
    · next hown =>
      rcases h with h | h | h
      · exact absurd (contains_iff_mem.2 h) hown
      · cases h
      · obtain ⟨owner, howner⟩ := (contains_iff _ _).1 h
        rw [howner]
        exact ⟨_, mem_cons_self, .inr ⟨owner, rfl⟩⟩
  | cons x before ih =>
    rw [cons_append, fields]
    rw [map_cons, mem_cons] at h
    split
    · next hown =>
      obtain ⟨f, hf, htaken⟩ := ih own (by
        rcases h with h | (h | h) | h
        · exact .inl h
        · exact .inl (h ▸ contains_iff_mem.1 hown)
        · exact .inr (.inl h)
        · exact .inr (.inr h))
      exact ⟨f, mem_cons_of_mem _ hf, htaken⟩
    · split
      · next howner =>
        obtain ⟨f, hf, htaken⟩ := ih own (by
          rcases h with h | (h | h) | h
          · exact .inl h
          · exact .inr (.inr (h ▸ contains_of_find? howner))
          · exact .inr (.inl h)
          · exact .inr (.inr h))
        exact ⟨f, mem_cons_of_mem _ hf, htaken⟩
      · obtain ⟨f, hf, htaken⟩ := ih (x.name :: own) (by
          rcases h with h | (h | h) | h
          · exact .inl (mem_cons_of_mem _ h)
          · exact .inl (h ▸ mem_cons_self)
          · exact .inr (.inl h)
          · exact .inr (.inr h))
        exact ⟨f, mem_append_right _ hf, htaken⟩

end Binder

section
variable {lib : Library} {d : Draft} {imports : Table String} {f : Fault}

theorem exists_message_of_taken (hf : f ∈ (ofDraft lib d imports).2)
    (h : (∃ n q, f.cause = .fieldTwice n q) ∨ ∃ n q owner, f.cause = .fieldInherited n q owner) :
    ∃ q m, (Index.ofDraft d).declared.find? q = some (.message m) ∧
      (binderOf lib d imports).FaultsMessage q m f ∧ f.code = .duplicateDefinition := by
  have hcode : f.code = .duplicateDefinition := by
    rcases h with ⟨n, q, h⟩ | ⟨n, q, owner, h⟩ <;> rw [Fault.code, h, Cause.code]
  cases faulted_of_mem hf with
  | outside | namespaceTwice | definitionTwice | namespaceInFiles =>
    rcases h with ⟨n, q, h⟩ | ⟨n, q, owner, h⟩ <;> cases h
  | cycle hcycle =>
    obtain ⟨-, -, names, -, hcause, -⟩ :=
      Binder.exists_cycle_of_mem_messageCycleFaults hcycle
    rw [Fault.code, hcause] at hcode
    cases hcode
  | enumeration _ he => exact absurd hcode he.code_ne
  | message hq hm => exact ⟨_, _, hq, hm, hcode⟩

end

/-- **Fields are faulted for their names just if these are taken.**  If a field is said to
    come twice, an earlier field of the message has its name.  If it is said to be declared
    in another message, that one is on the way from the parent to its parents and has the
    field; it is not the message itself, unless the way leads back to it.  And all fields
    are faulted whose names are taken like this. -/
theorem fieldFaults_ofDraft (lib : Library) (d : Draft) (imports : Table String) :
    (∀ f ∈ (ofDraft lib d imports).2, ∀ n q, f.cause = .fieldTwice n q → ∃ m before g after,
      (Index.ofDraft d).declared.find? q = some (.message m) ∧ m.fields = before ++ g :: after ∧
      g.name = n ∧ n ∈ before.map (·.name) ∧ f = faultAt g.origin (.fieldTwice n q)) ∧
    (∀ f ∈ (ofDraft lib d imports).2, ∀ n q owner, f.cause = .fieldInherited n q owner →
      ∃ m, ∃ g ∈ m.fields,
      (Index.ofDraft d).declared.find? q = some (.message m) ∧ g.name = n ∧
      f = faultAt g.origin (.fieldInherited n q owner) ∧
      (binderOf lib d imports).InheritsField q m n owner ∧
      (owner ≠ q ∨ TransGen (binderOf lib d imports).Leads q q)) ∧
    ∀ q m before g after, (Index.ofDraft d).declared.find? q = some (.message m) →
      m.fields = before ++ g :: after →
      (g.name ∈ before.map (·.name) ∨
        ∃ owner, (binderOf lib d imports).InheritsField q m g.name owner) →
      ∃ f ∈ (ofDraft lib d imports).2, Binder.Taken q g f := by
  refine ⟨fun f hf n q hcause => ?_, fun f hf n q owner hcause => ?_, ?_⟩
  · obtain ⟨q', m, hq, hfault, hcode⟩ := exists_message_of_taken hf (Or.inl ⟨n, q, hcause⟩)
    rcases hfault.taken_cases hcode with ⟨before, g, after, hfields, hbefore, rfl⟩ | ⟨_, _,
      _, -, -, -, rfl⟩
    · cases hcause
      exact ⟨m, before, g, after, hq, hfields, rfl, hbefore, rfl⟩
    · cases hcause
  · obtain ⟨q', m, hq, hfault, hcode⟩ := exists_message_of_taken hf (Or.inr ⟨n, q, owner, hcause⟩)
    rcases hfault.taken_cases hcode with ⟨_, _, _, -, -, rfl⟩ | ⟨g, ref, owner', hg,
      href, hfind, rfl⟩
    · cases hcause
    · cases hcause
      have hinherits : (binderOf lib d imports).InheritsField q m g.name owner :=
        ⟨ref, href, Binder.owner_of_fieldOwners hfind⟩
      refine ⟨m, g, hg, hq, rfl, rfl, hinherits, ?_⟩
      by_cases hown : owner = q
      · exact Or.inr (hown ▸ hinherits.transGen hq)
      · exact Or.inl hown
  · intro q m before g after hq hfields htaken
    have hmem : (q, m) ∈ (binderOf lib d imports).declaredMessages :=
      mem_selected_iff.2 ⟨_, hq, rfl⟩
    have hinherited : (∃ owner, (binderOf lib d imports).InheritsField q m g.name owner) →
        ((binderOf lib d imports).inheritedOf q m).contains g.name = true := by
      rintro ⟨owner, ref, href, hpath, hfield⟩
      rw [Binder.inheritedOf, href]
      exact Binder.contains_fieldOwners hpath hfield
    obtain ⟨f, hf, hfault⟩ :=
      Binder.exists_taken (b := binderOf lib d imports) (enumsOf lib d imports) q
      ((binderOf lib d imports).inheritedOf q m) [] after (Or.inr (htaken.imp id hinherited))
    refine ⟨f, mem_append_right _ ?_, hfault⟩
    show f ∈ ((binderOf lib d imports).messages (enumsOf lib d imports)).2
    rw [Binder.messages_eq]
    rw [← hfields] at hf
    exact mem_flatMap.2 ⟨(q, m), hmem, mem_append_right _ hf⟩

theorem fieldFaults_grandchild : ∃ d f,
    alone "/a.def" "message A\x7bx:int\x7dmessage B:A\x7b\x7dmessage C:B\x7by:int y:int x:int\x7d" =
      some d ∧
    f ∈ (ofDraft .empty d .empty).2 ∧ f.cause = .fieldInherited "x" "a::C" "a::A" ∧
    ∃ m, ∃ g ∈ m.fields, (Index.ofDraft d).declared.find? "a::C" = some (.message m) ∧
      g.name = "x" ∧
      (binderOf .empty d .empty).InheritsField "a::C" m "x" "a::A" := by
  have hcauses :
    (alone "/a.def"
    "message A\x7bx:int\x7dmessage B:A\x7b\x7dmessage C:B\x7by:int y:int x:int\x7d").map
      (fun d => (ofDraft .empty d .empty).2.map (·.cause)) =
        some [.fieldTwice "y" "a::C", .fieldInherited "x" "a::C" "a::A"] := by decide +kernel
  obtain ⟨d, hd, hcauses⟩ := map_eq_some_iff.1 hcauses
  obtain ⟨f, hf, hcause⟩ := mem_map.1
    (hcauses ▸ mem_cons_of_mem _ mem_cons_self :
      Cause.fieldInherited "x" "a::C" "a::A" ∈ (ofDraft .empty d .empty).2.map (·.cause))
  obtain ⟨-, hinherited, -⟩ := fieldFaults_ofDraft .empty d .empty
  obtain ⟨m, g, hg, hq, hname, -, hinherits, -⟩ := hinherited f hf _ _ _ hcause
  exact ⟨d, f, hd, hf, hcause, m, g, hg, hq, hname, hinherits⟩

theorem fieldFaults_ownParent :
    (alone "/a.def" "message A:A\x7bx:int\x7d").map
      (fun d => (ofDraft .empty d .empty).2.map (·.cause)) =
      some [.inheritanceCycle ["a::A", "a::A"], .fieldInherited "x" "a::A" "a::A"] := by
  decide +kernel

end Model

end MessageSchema
