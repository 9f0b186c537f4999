/-
  What the declarations of a draft become.

  If no fault comes up, every declaration becomes one entity: of its kind, under
  its qualified name, in the namespace that it stands in.

  * `Binder.find?_messages`, `Binder.find?_enumerations`, `find?_compoundsOf`: what
    is built, by qualified name;
  * `Models.own?_elim`, `Models.own?_of_declared`: a model owns what its draft
    declares, under the same kinds.
-/
import MessageSchema.Model.Build
import MessageSchema.Proofs.Declarations
import Mathlib.Data.List.Forall2
import Mathlib.Data.List.Perm.Basic

namespace MessageSchema.Model

open List QualifiedName Table

theorem forall₂_imp_of_mem {α β : Type} {R S : α → β → Prop} {xs : List α} {ys : List β}
    (h : Forall₂ R xs ys) (hS : ∀ x ∈ xs, ∀ y, R x y → S x y) : Forall₂ S xs ys := by
  have hall := (forall₂_and_left _ _).2 ⟨fun x (hx : x ∈ xs) => hx, h⟩
  exact hall.imp fun x y hxy => hS x hxy.1 y hxy.2

theorem forall₂_of_map {α α' β : Type} {R : α' → β → Prop} {S : α → β → Prop} {g : α → α'}
    {xs : List α} {ys : List β} (h : Forall₂ R (xs.map g) ys)
    (hS : ∀ x ∈ xs, ∀ y, R (g x) y → S x y) : Forall₂ S xs ys :=
  forall₂_imp_of_mem (forall₂_map_left_iff.1 h) hS

/-! ## Messages and compounds -/

namespace Binder

variable {b : Binder}

theorem message?_eq_some_iff {q : String} {m : Draft.Message} :
    b.message? q = some m ↔ b.declared.find? q = some (.message m) := by
  rw [message?, Option.bind_eq_some_iff]
  constructor
  · rintro ⟨x, hx, hm⟩
    cases x <;> cases hm
    exact hx
  · intro h
    exact ⟨_, h, rfl⟩

theorem enumeration?_eq_some_iff {q : String} {e : Draft.Enumeration} :
    b.enumeration? q = some e ↔ b.declared.find? q = some (.enumeration e) := by
  rw [enumeration?, Option.bind_eq_some_iff]
  constructor
  · rintro ⟨x, hx, he⟩
    cases x <;> cases he
    exact hx
  · intro h
    exact ⟨_, h, rfl⟩

def declaredMessages (b : Binder) : List (String × Draft.Message) :=
  b.declared.selected Declaration.message?

/-- Building one message after the other, with any way to build one. -/
theorem foldl_messages (build : String → Draft.Message → Message × List Fault)
    (es : List (String × Declaration)) (t : Table Message) (fs : List Fault) :
    es.foldl (fun (done, faults) d =>
      match d.2.message? with
      | some m =>
        let (built, more) := build d.1 m
        (done.insert d.1 built, faults ++ more)
      | none => (done, faults)) (t, fs) =
    ((es.filterMap fun e => e.2.message?.map fun m => (e.1, m)).foldl
        (fun t e => t.insert e.1 (build e.1 e.2).1) t,
      fs ++ (es.filterMap fun e => e.2.message?.map fun m => (e.1, m)).flatMap
        fun e => (build e.1 e.2).2) := by
  induction es generalizing t fs with
  | nil => simp
  | cons e es ih =>
    rw [foldl_cons, filterMap_cons]
    cases hm : e.2.message? with
    | none => exact ih t fs
    | some m =>
      simp only [Option.map_some, foldl_cons, flatMap_cons]
      rw [ih, append_assoc]

theorem messages_eq (b : Binder) (enums : Table Enumeration) :
    b.messages enums =
      (b.declaredMessages.foldl (fun t e => t.insert e.1 (b.message enums e.1 e.2).1) .empty,
        b.declaredMessages.flatMap fun e => (b.message enums e.1 e.2).2) :=
  (foldl_messages (b.message enums) _ _ _).trans (by rw [nil_append]; rfl)

theorem find?_messages {enums : Table Enumeration} (h : (b.messages enums).2 = [])
    {q : String} {m : Draft.Message} (hq : b.declared.find? q = some (.message m)) :
    (b.messages enums).1.find? q = some (b.message enums q m).1 ∧ (b.message enums q m).2 = [] := by
  rw [messages_eq] at h ⊢
  have hmem : (q, m) ∈ b.declaredMessages := mem_selected_iff.2 ⟨_, hq, rfl⟩
  refine ⟨?_, flatMap_eq_nil_iff.1 h _ hmem⟩
  have hselect : Declaration.message? (.message m) = some m := rfl
  exact find?_foldl_selected (g := fun q m => (b.message enums q m).1) hq hselect

end Binder

theorem find?_compoundsOf {declared : Table Declaration} {q : String} {c : Draft.Compound}
    (hq : declared.find? q = some (.compound c)) :
    (compoundsOf declared).find? q = some (.ofDraft q c) := by
  have hfold : compoundsOf declared = (declared.selected Declaration.compound?).foldl
      (fun t e => t.insert e.1 (Compound.ofDraft e.1 e.2)) .empty := by
    rw [compoundsOf, selected, foldl_filterMap]
    congr 1
    funext t e
    cases e.2.compound? <;> rfl
  rw [hfold]
  exact find?_foldl_selected hq rfl

/-! ## Enumerations -/

/-- What the enumeration declared under a qualified name becomes. -/
structure Finishes (b : Binder) (q : String) (e : Draft.Enumeration) (result : Enumeration) :
    Prop where
  name : result.name = e.name
  qualified : result.qualified = q
  kind : result.kind = e.kind
  parent : b.enumParent q e = .ok result.parent
  origin : result.origin = e.origin
  width : result.width = storageWidth (e.kind = .extensible) (result.values.map (·.number))
  /-- no value is left out -/
  values : ∃ inherited, mergeValues (e.kind ≠ .flags) inherited e.values =
    { values := result.values }

/-- The finished enumerations are what declared ones become, as far as no fault has
    come up. -/
def Enumerations.Fit (b : Binder) (es : Enumerations) : Prop :=
  ∀ q result, es.finished.find? q = some result → ∃ e, b.declared.find? q = some (.enumeration e) ∧
    (es.faults = [] → Finishes b q e result)

theorem Enumerations.Fit.fault {b : Binder} {es : Enumerations} (h : es.Fit b) (f : Fault) :
    (es.fault f).Fit b := by
  intro q result hq
  obtain ⟨e, he, -⟩ := h q result hq
  exact ⟨e, he, by simp [Enumerations.fault]⟩

namespace Binder

variable {q k : String} {parent : Option TypeRef} {b : Binder} {e : Draft.Enumeration}
  {es : Enumerations} {inherited : List EnumValue}

theorem eq_of_mergeFaults {m : Merged} (h : mergeFaults q parent m = []) :
    m = { values := m.values } := by
  obtain ⟨values, duplicates, overflows⟩ := m
  obtain ⟨hduplicates, hoverflows⟩ := append_eq_nil_iff.1 h
  obtain rfl : duplicates = [] := map_eq_nil_iff.1 hduplicates
  obtain rfl : overflows = [] := map_eq_nil_iff.1 hoverflows
  rfl

theorem fit_finish (h : es.Fit b) (hq : b.declared.find? q = some (.enumeration e))
    (hp : es.faults = [] → b.enumParent q e = .ok parent) :
    (finish q e parent inherited es).1.Fit b := by
  intro k result hk
  have hfaults : (finish q e parent inherited es).1.faults = [] →
      es.faults = [] ∧
      mergeFaults q parent (mergeValues (e.kind ≠ .flags) inherited e.values) = [] :=
    append_eq_nil_iff.1
  rw [finish, find?_insert] at hk
  split at hk
  · next hkq =>
    cases hk
    subst hkq
    refine ⟨e, hq, fun hnil => ?_⟩
    obtain ⟨hes, hmerge⟩ := hfaults hnil
    exact ⟨rfl, rfl, rfl, hp hes, rfl, rfl, inherited, eq_of_mergeFaults hmerge⟩
  · obtain ⟨e', he', hfin⟩ := h k result hk
    exact ⟨e', he', fun hnil => hfin (hfaults hnil).1⟩

theorem contains_finish (h : k = q ∨ es.finished.contains k = true) :
    (finish q e parent inherited es).1.finished.contains k = true :=
  contains_insert_iff.2 h

/-- How an enumeration is finished after its ancestors, and what it becomes.  `chain` are the
    enumerations that wait for it. -/
inductive Finishing (b : Binder) :
    List String → String → Draft.Enumeration → Enumerations →
      Enumerations × Option Enumeration → Prop
  | done {chain q e es r} : es.finished.find? q = some r → Finishing b chain q e es (es, some r)
  | back {chain q e es} : es.finished.find? q = none → q ∈ chain → Finishing b chain q e es
      (es.fault (faultAt e.origin (.inheritanceCycle (chain.dropWhile (· ≠ q) ++ [q]))), none)
  | lost {chain q e es fault} : es.finished.find? q = none → q ∉ chain →
    b.enumParent q e = .error fault →
    Finishing b chain q e es ((finish q e none [] (es.fault fault)).map id some)
  | root {chain q e es} : es.finished.find? q = none → q ∉ chain → b.enumParent q e = .ok none →
      Finishing b chain q e es ((finish q e none [] es).map id some)
  | imported {chain q e es ref} : es.finished.find? q = none → q ∉ chain →
    b.enumParent q e = .ok (some ref) → b.enumeration? ref.name = none →
    Finishing b chain q e es ((finish q e (some ref) (b.importedValues ref.name) es).map id some)
  | own {chain q e es ref p r} : es.finished.find? q = none → q ∉ chain →
    b.enumParent q e = .ok (some ref) → b.enumeration? ref.name = some p →
    Finishing b (chain ++ [q]) ref.name p es r →
    Finishing b chain q e es
    ((finish q e (some ref) ((r.2.map (·.values)).getD []) r.1).map id some)

theorem finishing_enumFrom {n : Nat} {chain : List String} (hn : unlisted b.declared.keys chain < n)
    (hq : b.declared.find? q = some (.enumeration e)) :
    b.Finishing chain q e es (b.enumFrom n chain q e es) := by
  induction n generalizing chain q e with
  | zero => omega
  | succ n ih =>
    rw [enumFrom]
    split
    · next hdone => exact .done hdone
    · next hnew =>
      split
      · next hmem => exact .back hnew (contains_iff_mem.1 hmem)
      · next hmem =>
        have hmem : q ∉ chain := fun h => hmem (contains_iff_mem.2 h)
        split
        · next hfault => exact .lost hnew hmem hfault
        · next hparent => exact .root hnew hmem hparent
        · next hparent =>
          split
          · next hp =>
            have hlt :=
              unlisted_lt (subset_append_left chain [q]) (mem_keys_of_find? hq) hmem (by simp)
            exact .own hnew hmem hparent hp (ih (by omega) (enumeration?_eq_some_iff.1 hp))
          · next hp => exact .imported hnew hmem hparent hp

theorem enumerations_induct {P : Enumerations → Prop} (h : P {})
    (hstep : ∀ q e es r, b.declared.find? q = some (.enumeration e) → P es →
      b.Finishing [] q e es r → P r.1) :
    P b.enumerations := by
  refine foldlRecOn (motive := P) b.declared.entries _ h fun es h d hd => ?_
  have hfind := (mem_entries_iff _ _ _).1 hd
  obtain ⟨q, x⟩ := d
  cases x with
  | message | compound => exact h
  | enumeration e =>
    exact hstep q e es _ hfind h
      (finishing_enumFrom (Nat.lt_succ_of_le (unlisted_keys_le b.declared [])) hfind)

theorem Finishing.fit {chain : List String} {r : Enumerations × Option Enumeration}
    (hrun : b.Finishing chain q e es r) (h : es.Fit b)
    (hq : b.declared.find? q = some (.enumeration e)) : r.1.Fit b := by
  induction hrun with
  | done _ => exact h
  | back _ _ => exact h.fault _
  | lost _ _ _ => exact fit_finish (h.fault _) hq (by simp [Enumerations.fault])
  | root _ _ hp => exact fit_finish h hq fun _ => hp
  | imported _ _ hp _ => exact fit_finish h hq fun _ => hp
  | own _ _ hp hparent _ ih =>
    exact fit_finish (ih h (enumeration?_eq_some_iff.1 hparent)) hq fun _ => hp

theorem Finishing.contains {chain : List String} {r : Enumerations × Option Enumeration}
    (hrun : b.Finishing chain q e es r) (hk : (k = q ∧ q ∉ chain) ∨ es.finished.contains k = true) :
    r.1.finished.contains k = true := by
  induction hrun with
  | done hdone => exact hk.elim (fun hk => hk.1 ▸ contains_of_find? hdone) id
  | back _ hmem => exact hk.resolve_left fun hk => hk.2 hmem
  | lost | root | imported => exact contains_finish (hk.imp And.left id)
  | own _ _ _ _ _ ih =>
    rcases hk with ⟨rfl, -⟩ | hk
    · exact contains_finish (.inl rfl)
    · exact contains_finish (.inr (ih (.inr hk)))

theorem fit_enumerations (b : Binder) : b.enumerations.Fit b ∧
    ∀ q e, b.declared.find? q = some (.enumeration e) →
      b.enumerations.finished.contains q = true := by
  refine ⟨enumerations_induct (fun k result hk => by cases hk) fun q e es r hq h hrun =>
    hrun.fit h hq, fun q e hq => ?_⟩
  have hn := Nat.lt_succ_of_le (unlisted_keys_le b.declared [])
  obtain ⟨before, after, hentries⟩ := append_of_mem ((mem_entries_iff _ _ _).2 hq)
  rw [enumerations, hentries, foldl_append, foldl_cons]
  refine foldlRecOn (motive := fun es : Enumerations => es.finished.contains q = true) after _
    ((finishing_enumFrom hn hq).contains (.inl ⟨rfl, not_mem_nil⟩)) fun es h d hd => ?_
  have hfind : b.declared.find? d.1 = some d.2 := by
    rw [← mem_entries_iff, hentries]
    simp [hd]
  obtain ⟨k, x⟩ := d
  cases x with
  | message | compound => exact h
  | enumeration e' => exact (finishing_enumFrom hn hfind).contains (.inr h)

theorem find?_enumerations (h : b.enumerations.faults = [])
    (hq : b.declared.find? q = some (.enumeration e)) :
    ∃ result, b.enumerations.finished.find? q = some result ∧ Finishes b q e result := by
  obtain ⟨hfit, hall⟩ := fit_enumerations b
  obtain ⟨result, hresult⟩ := (contains_iff _ _).1 (hall q e hq)
  obtain ⟨e', he', hfin⟩ := hfit q result hresult
  rw [hq] at he'
  cases he'
  exact ⟨result, hresult, hfin h⟩

end Binder

/-! ## Models -/

/-- What the names of a draft can be bound to, given its imports. -/
def binderOf (lib : Library) (d : Draft) (imports : Table String) : Binder :=
  ⟨d.file, (Index.ofDraft d).declared, Binder.importedModels lib imports⟩

/-- The enumerations of a draft, given its imports. -/
def enumsOf (lib : Library) (d : Draft) (imports : Table String) : Table Enumeration :=
  (binderOf lib d imports).enumerations.finished

/-- What the declarations of a draft become, given its imports. -/
def entitiesOf (lib : Library) (d : Draft) (imports : Table String) : Entities :=
  ⟨((binderOf lib d imports).messages (enumsOf lib d imports)).1, enumsOf lib d imports,
    compoundsOf (Index.ofDraft d).declared⟩

structure Faultless (lib : Library) (d : Draft) (imports : Table String) : Prop where
  outside : outsideFaults d = []
  index : (Index.ofDraft d).faults = []
  owners : importedNamespaceFaults lib d (Index.ofDraft d).namespaces.keys imports = []
  enums : (binderOf lib d imports).enumerations.faults = []
  messages : ((binderOf lib d imports).messages (enumsOf lib d imports)).2 = []

theorem ofDraft_eq {lib : Library} {d : Draft} {imports : Table String} {m : Model}
    (h : ofDraft lib d imports = (m, [])) :
    m = ⟨d.file, d.stem, d.arena.mapIdx (namespaceOf d.arena (entitiesOf lib d imports)),
        d.top.children, imports⟩ ∧ Faultless lib d imports := by
  have hm := congrArg Prod.fst h
  have hfaults := congrArg Prod.snd h
  simp only [ofDraft, append_eq_nil_iff] at hfaults
  obtain ⟨⟨⟨⟨⟨houtside, hindex⟩, howners⟩, henums⟩, -⟩, hmessages⟩ := hfaults
  exact ⟨hm.symm, houtside, hindex, howners, henums, hmessages⟩

/-- The entity that a declaration becomes. -/
inductive Becomes (es : Entities) (q : String) : Declaration → Entity → Prop
  | message {m result} : es.messages.find? q = some result →
    Becomes es q (.message m) (.message result)
  | enumeration {e result} : es.enums.find? q = some result →
      Becomes es q (.enumeration e) (.enumeration result)
  | compound {c result} : es.compounds.find? q = some result →
      Becomes es q (.compound c) (.compound result)

/-- If all names are built, what is picked is what they became, in order. -/
theorem forall₂_pick {α β : Type} {home : String} {built : Table α} {name : β → String}
    {xs : List β} (h : ∀ x ∈ xs, ∃ y, built.find? (join (some home) (name x)) = some y) :
    Forall₂ (fun x y => built.find? (join (some home) (name x)) = some y) xs
      (pick home built (xs.map name)) := by
  induction xs with
  | nil => exact .nil
  | cons x xs ih =>
    obtain ⟨y, hy⟩ := h x mem_cons_self
    have hpick : pick home built ((x :: xs).map name) = y :: pick home built (xs.map name) := by
      rw [pick, map_cons, filterMap_cons, hy, pick]
    rw [hpick]
    exact .cons hy (ih fun x' hx' => h x' (mem_cons_of_mem _ hx'))

section
variable {lib : Library} {d : Draft} {imports : Table String}

/-- The namespace of a model that a visited one becomes. -/
def namespaceAt (lib : Library) (d : Draft) (imports : Table String) (v : Draft.Visit) :
    Namespace :=
  namespaceOf d.arena (entitiesOf lib d imports) v.site.index v.site.ns

variable (hf : Faultless lib d imports)
include hf

variable {x : Declaration}

theorem exists_becomes {q : String} (hx : (Index.ofDraft d).declared.find? q = some x) :
    ∃ e, Becomes (entitiesOf lib d imports) q x e := by
  cases x with
  | message m => exact ⟨_, .message (Binder.find?_messages hf.messages hx).1⟩
  | enumeration e =>
    obtain ⟨result, hresult, -⟩ := Binder.find?_enumerations hf.enums hx
    exact ⟨_, .enumeration hresult⟩
  | compound c => exact ⟨_, .compound (find?_compoundsOf hx)⟩

/-- A declaration becomes an entity of its kind under its qualified name. -/
theorem Becomes.qualified_kind {q : String} {e : Entity}
    (hx : (Index.ofDraft d).declared.find? q = some x)
    (h : Becomes (entitiesOf lib d imports) q x e) : e.qualified = q ∧ e.kind = x.kind := by
  cases h with
  | message hm =>
    obtain ⟨hbuilt, -⟩ := Binder.find?_messages hf.messages hx
    cases hbuilt.symm.trans hm
    exact ⟨rfl, rfl⟩
  | enumeration he =>
    obtain ⟨result, hresult, hfin⟩ := Binder.find?_enumerations hf.enums hx
    cases hresult.symm.trans he
    refine ⟨hfin.qualified, ?_⟩
    rw [Entity.kind, Declaration.kind, hfin.kind]
  | compound hc =>
    cases (find?_compoundsOf hx).symm.trans hc
    exact ⟨rfl, rfl⟩

end

/-- The lists of a namespace hold what its declarations become, in order. -/
structure Matches (es : Entities) (home : String) (s : Draft.Scope) (ns : Namespace) : Prop where
  messages : Forall₂ (fun m result =>
    es.messages.find? (join (some home) m.name) = some result) s.messages ns.messages
  enums : Forall₂ (fun e result =>
    es.enums.find? (join (some home) e.name) = some result) s.enums ns.enums
  options : Forall₂ (fun e result =>
    es.enums.find? (join (some home) e.name) = some result) s.options ns.options
  compounds : Forall₂ (fun c result =>
    es.compounds.find? (join (some home) c.name) = some result) s.compounds ns.compounds

theorem Matches.entities {es : Entities} {home : String} {s : Draft.Scope} {ns : Namespace}
    (h : Matches es home s ns) :
    Forall₂ (fun x e => Becomes es (join (some home) x.name) x e)
      (declarationsOf s) ns.entities := by
  rw [Namespace.entities, declarationsOf]
  refine rel_append (rel_append (rel_append ?_ ?_) ?_) ?_
  · rw [forall₂_map_left_iff, forall₂_map_right_iff]
    exact h.messages.imp fun _ _ h => .message h
  · rw [forall₂_map_left_iff, forall₂_map_right_iff]
    exact h.enums.imp fun _ _ h => .enumeration h
  · rw [forall₂_map_left_iff, forall₂_map_right_iff]
    exact h.options.imp fun _ _ h => .enumeration h
  · rw [forall₂_map_left_iff, forall₂_map_right_iff]
    exact h.compounds.imp fun _ _ h => .compound h

/-- **The entities of a namespace are what its declarations become, in order**, if
    they are in the index. -/
theorem matches_namespaceOf {lib : Library} {d : Draft} {imports : Table String}
    (hf : Faultless lib d imports) {i : Nat} {ns : Draft.Namespace}
    (hns : ∀ x ∈ declarationsOf ns.scope, (Index.ofDraft d).declared.find?
      (join (some (Index.nameOf d.arena i ns)) x.name) = some x) :
    Matches (entitiesOf lib d imports) (Index.nameOf d.arena i ns) ns.scope
      (namespaceOf d.arena (entitiesOf lib d imports) i ns) := by
  have hbecomes := fun x hx => exists_becomes hf (hns x hx)
  refine ⟨forall₂_pick fun m hm => ?_, forall₂_pick fun e he => ?_, forall₂_pick fun e he => ?_,
    forall₂_pick fun c hc => ?_⟩
  · obtain ⟨_, h⟩ := hbecomes (.message m) (Draft.mem_declarationsOf.2 (.inl ⟨m, hm, rfl⟩))
    cases h with
    | message h => exact ⟨_, h⟩
  · obtain ⟨_, h⟩ := hbecomes (.enumeration e)
      (Draft.mem_declarationsOf.2 (.inr (.inl ⟨e, he, rfl⟩)))
    cases h with
    | enumeration h => exact ⟨_, h⟩
  · obtain ⟨_, h⟩ := hbecomes (.enumeration e)
      (Draft.mem_declarationsOf.2 (.inr (.inr (.inl ⟨e, he, rfl⟩))))
    cases h with
    | enumeration h => exact ⟨_, h⟩
  · obtain ⟨_, h⟩ := hbecomes (.compound c)
      (Draft.mem_declarationsOf.2 (.inr (.inr (.inr ⟨c, hc, rfl⟩))))
    cases h with
    | compound h => exact ⟨_, h⟩

section
variable {lib : Library} {d : Draft} {imports : Table String} (hf : Faultless lib d imports)
  (hd : d.Finished)
include hf hd

variable {v : Draft.Visit}

theorem find?_declared (hv : v ∈ d.walk) {x : Declaration}
    (hx : x ∈ declarationsOf v.site.ns.scope) :
    (Index.ofDraft d).declared.find? (join (some v.site.qualified) x.name) = some x :=
  (find?_declared_iff hd hf.index).2 ⟨v, hv, hx, rfl⟩

/-- **The entities of a visited namespace are what its declarations become.** -/
theorem matches_namespaceAt (hv : v ∈ d.walk) :
    Matches (entitiesOf lib d imports) v.site.qualified v.site.ns.scope
      (namespaceAt lib d imports v) := by
  rw [← nameOf_eq hd hv]
  refine matches_namespaceOf hf fun x hx => ?_
  rw [nameOf_eq hd hv]
  exact find?_declared hf hd hv hx

theorem map_qualified_entities (hv : v ∈ d.walk) :
    (namespaceAt lib d imports v).entities.map Entity.qualified =
      (Index.under v.site.qualified (declarationsOf v.site.ns.scope)).map Prod.fst := by
  have hnames := forall₂_imp_of_mem (matches_namespaceAt hf hd hv).entities fun x hx e h =>
    (h.qualified_kind hf (find?_declared hf hd hv hx)).1.symm
  have hmap := forall₂_map_right_iff.2 (forall₂_map_left_iff.2 hnames)
  rw [forall₂_eq_eq_eq] at hmap
  rw [Index.under, map_map, ← hmap]
  rfl

omit hf in
theorem namespaces_perm :
    (d.arena.mapIdx (namespaceOf d.arena (entitiesOf lib d imports))).Perm
      (d.walk.map (namespaceAt lib d imports)) := hd.covered.mapIdx_perm _

end

/-! ## What a model owns -/

section
variable {m : Model} (h : ((m.namespaces.flatMap Namespace.entities).map Entity.qualified).Nodup)
include h

theorem entries_symbols :
    m.symbols.entries = (m.namespaces.flatMap Namespace.entities).map fun e => (e.qualified, e) :=
  (entries_foldl_insert h fun _ _ => rfl).trans (nil_append _)

theorem entities_eq : m.entities = m.namespaces.flatMap Namespace.entities := by
  rw [entities, values, entries_symbols h, map_map]
  exact map_id _

end

/-- A model of a finished draft, without a fault. -/
structure Models (lib : Library) (d : Draft) (m : Model) : Prop where
  finished : d.Finished
  built : ofDraft lib d m.imports = (m, [])

namespace Models

variable {lib : Library} {d : Draft} {m : Model} (h : Models lib d m)
include h

theorem faultless : Faultless lib d m.imports := (ofDraft_eq h.built).2

theorem file : m.file = d.file := congrArg Model.file (ofDraft_eq h.built).1

theorem namespaces_eq :
    m.namespaces = d.arena.mapIdx (namespaceOf d.arena (entitiesOf lib d m.imports)) :=
  congrArg Model.namespaces (ofDraft_eq h.built).1

theorem namespaces_perm : m.namespaces.Perm (d.walk.map (namespaceAt lib d m.imports)) := by
  rw [h.namespaces_eq]
  exact Model.namespaces_perm h.finished

theorem getElem?_namespaces {v : Draft.Visit} (hv : v ∈ d.walk) :
    m.namespaces[v.site.index]? = some (namespaceAt lib d m.imports v) := by
  rw [h.namespaces_eq, getElem?_mapIdx, Draft.getElem?_site_of_mem_walk hv]
  rfl

theorem length_namespaces : m.namespaces.length = d.arena.length := by
  rw [h.namespaces_eq, length_mapIdx]

theorem mem_namespaces {ns : Namespace} :
    ns ∈ m.namespaces ↔ ∃ v ∈ d.walk, namespaceAt lib d m.imports v = ns := by
  rw [h.namespaces_perm.mem_iff, mem_map]

theorem qualified_namespaces_perm :
    (m.namespaces.map (·.qualified)).Perm (d.walk.map (·.site.qualified)) := by
  have hperm := h.namespaces_perm.map (·.qualified)
  rw [map_map] at hperm
  exact hperm.trans (.of_eq (map_congr_left fun v hv => nameOf_eq h.finished hv))

/-- **No two namespaces of a model have the same qualified name.** -/
theorem nodup_namespaces : (m.namespaces.map (·.qualified)).Nodup :=
  h.qualified_namespaces_perm.nodup_iff.2 (nodup_qualified h.finished h.faultless.index)

theorem qualified_entities_perm :
    ((m.namespaces.flatMap Namespace.entities).map Entity.qualified).Perm
      ((declarations d).map Prod.fst) := by
  rw [map_flatMap, declarations, map_flatMap]
  refine (h.namespaces_perm.flatMap fun _ _ => .refl _).trans ?_
  rw [flatMap_map, flatMap_congr fun v hv => map_qualified_entities h.faultless h.finished hv]

/-- **No two entities of a model have the same qualified name.** -/
theorem nodup_entities : ((m.namespaces.flatMap Namespace.entities).map Entity.qualified).Nodup :=
  h.qualified_entities_perm.nodup_iff.2 (nodup_declarations h.finished h.faultless.index)

theorem own?_iff {q : String} {e : Entity} :
    m.own? q = some e ↔ e ∈ m.namespaces.flatMap Namespace.entities ∧ e.qualified = q := by
  rw [own?, ← mem_entries_iff, entries_symbols h.nodup_entities]
  simp only [mem_map, Prod.mk.injEq]
  constructor
  · rintro ⟨x, hx, hq, rfl⟩
    exact ⟨hx, hq⟩
  · rintro ⟨he, hq⟩
    exact ⟨e, he, hq, rfl⟩

/-- An entity of a model is what a declaration of the draft becomes. -/
theorem becomes_of_own? {q : String} {e : Entity} (he : m.own? q = some e) :
    e.qualified = q ∧ ∃ v ∈ d.walk, ∃ x ∈ declarationsOf v.site.ns.scope,
      join (some v.site.qualified) x.name = q ∧ (Index.ofDraft d).declared.find? q = some x ∧
        Becomes (entitiesOf lib d m.imports) q x e := by
  obtain ⟨hmem, rfl⟩ := h.own?_iff.1 he
  obtain ⟨ns, hns, hmem⟩ := mem_flatMap.1 hmem
  obtain ⟨v, hv, rfl⟩ := h.mem_namespaces.1 hns
  obtain ⟨x, hx, hbecomes⟩ :=
    exists_left_of_mem (matches_namespaceAt h.faultless h.finished hv).entities hmem
  have hfind := find?_declared h.faultless h.finished hv hx
  obtain ⟨hqualified, -⟩ := hbecomes.qualified_kind h.faultless hfind
  exact ⟨rfl, v, hv, x, hx, hqualified.symm, hqualified ▸ hfind, hqualified ▸ hbecomes⟩

theorem own?_elim {q : String} {e : Entity} (he : m.own? q = some e) :
    e.qualified = q ∧ ∃ v ∈ d.walk, ∃ x ∈ declarationsOf v.site.ns.scope,
      join (some v.site.qualified) x.name = q ∧ e.kind = x.kind := by
  obtain ⟨hq, v, hv, x, hx, hjoin, hfind, hbecomes⟩ := h.becomes_of_own? he
  exact ⟨hq, v, hv, x, hx, hjoin, (hbecomes.qualified_kind h.faultless hfind).2⟩

/-- **A model owns what its draft declares.** -/
theorem own?_of_declared {q : String} {x : Declaration}
    (hx : (Index.ofDraft d).declared.find? q = some x) :
    ∃ e, m.own? q = some e ∧ e.kind = x.kind := by
  obtain ⟨v, hv, hmem, rfl⟩ := (find?_declared_iff h.finished h.faultless.index).1 hx
  obtain ⟨e, he, hbecomes⟩ :=
    exists_right_of_mem (matches_namespaceAt h.faultless h.finished hv).entities hmem
  obtain ⟨hqualified, hkind⟩ := hbecomes.qualified_kind h.faultless hx
  refine ⟨e, h.own?_iff.2 ⟨?_, hqualified⟩, hkind⟩
  exact mem_flatMap.2 ⟨_, h.mem_namespaces.2 ⟨v, hv, rfl⟩, he⟩

end Models

end MessageSchema.Model
