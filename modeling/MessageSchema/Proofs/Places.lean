/-
  Where the declarations of a draft stand.

  A place is a line of a file.  Faults are put at the places of what they are about, so
  they are at places `Q` if the declarations are.

  * `Draft.Placed Q`: all that a fault can be put at stands at one of the places `Q`;
  * `Lands F good`: a result is good, or the fault in its stead is one of `F`.
-/
import MessageSchema.Draft.Promotion
import MessageSchema.Model.Declarations
import MessageSchema.Proofs.Language
import MessageSchema.Proofs.Lines
import MessageSchema.Proofs.Reading

namespace MessageSchema

open List

/-- A declaration that stands at one of the places `Q`. -/
def Origin.Placed (Q : String → Nat → Prop) (o : Origin) : Prop := Q o.file o.line

namespace Draft

section

variable (Q : String → Nat → Prop)

structure Field.Placed (f : Field) : Prop where
  origin : f.origin.Placed Q
  inline : ∀ {kind vs}, f.type.inline? = some (kind, vs) → ∀ v ∈ vs, Q f.origin.file v.line

structure Message.Placed (m : Message) : Prop where
  origin : m.origin.Placed Q
  field : ∀ f ∈ m.fields, f.Placed Q

structure Enumeration.Placed (e : Enumeration) : Prop where
  origin : e.origin.Placed Q
  value : ∀ v ∈ e.values, v.origin.Placed Q

structure Scope.Placed (s : Scope) : Prop where
  message : ∀ m ∈ s.messages, m.Placed Q
  enumeration : ∀ e ∈ s.enums, e.Placed Q
  options : ∀ e ∈ s.options, e.Placed Q
  compound : ∀ c ∈ s.compounds, c.origin.Placed Q

structure Namespace.Placed (ns : Namespace) : Prop where
  line : Q ns.file ns.line
  scope : ns.scope.Placed Q

/-- All that a fault about a draft can be put at stands at one of the places `Q`: its
    declarations, its first line, its imports, and the lines that its links are put at. -/
structure Placed (d : Draft) : Prop where
  top : d.top.Placed Q
  arena : ∀ ns ∈ d.arena, ns.Placed Q
  firstLine : Q d.file 1
  importLine : ∀ i ∈ d.imports, Q d.file i.line
  link : ∀ {k id}, d.attached.find? k = some id → Q d.file (Model.importLine d k)

end

variable {Q : String → Nat → Prop}

theorem Scope.Placed.of_children (is : List Nat) : Scope.Placed Q { children := is } :=
  ⟨forall_mem_nil _, forall_mem_nil _, forall_mem_nil _, forall_mem_nil _⟩

theorem Scope.Placed.append {s t : Scope} (hs : s.Placed Q) (ht : t.Placed Q) :
    (s ++ t).Placed Q where
  message m hm := (mem_append.1 hm).elim (hs.message m) (ht.message m)
  enumeration e he := (mem_append.1 he).elim (hs.enumeration e) (ht.enumeration e)
  options e he := (mem_append.1 he).elim (hs.options e) (ht.options e)
  compound c hc := (mem_append.1 hc).elim (hs.compound c) (ht.compound c)

end Draft

/-! ## Results and faults -/

/-- A fault of reading, at one of the places `Q`. -/
def Fault.Misread (Q : String → Nat → Prop) (f : Fault) : Prop :=
  f.Placed Q ∧ f.code = .ungrammatical

/-- A result that is good, or a fault of `F`. -/
def Lands (F : Fault → Prop) {α : Type} (good : α → Prop) : Except Fault α → Prop
  | .ok a => good a
  | .error f => F f

namespace Lands

variable {F : Fault → Prop} {α β : Type} {good : α → Prop} {good' : β → Prop} {x : Except Fault α}
  {f : α → Except Fault β}

theorem bind (hx : Lands F good x) (hf : ∀ a, good a → Lands F good' (f a)) :
    Lands F good' (x >>= f) := by
  cases x with
  | error e => exact hx
  | ok a => exact hf a hx

theorem mapM {xs : List α} (hf : ∀ x ∈ xs, Lands F good' (f x)) :
    Lands F (fun ys => ∀ y ∈ ys, good' y) (xs.mapM f) := by
  induction xs with
  | nil => exact forall_mem_nil _
  | cons x xs ih =>
    obtain ⟨hx, hxs⟩ := forall_mem_cons.1 hf
    rw [mapM_cons]
    exact hx.bind fun y hy => (ih hxs).bind fun ys hys => forall_mem_cons.2 ⟨hy, hys⟩

theorem of_ok {a : α} (h : Lands F good x) (hx : x = .ok a) : good a := by
  rw [hx] at h
  exact h

theorem of_error {f : Fault} (h : Lands F good x) (hx : x = .error f) : F f := by
  rw [hx] at h
  exact h

end Lands

/-! ## The tokens of a tree -/

namespace Tree

variable {P : Token → Prop} {x : Token} {q : Rule}

theorem Valid.of_mem_tokens {t : Tree} (h : t.Valid P) (hx : x ∈ t.tokens) : P x := by
  induction h with
  | leaf ht =>
    obtain rfl := mem_singleton.1 hx
    exact ht
  | node _ _ ih =>
    obtain ⟨c, hc, hxc⟩ := mem_tokensOfAll.1 hx
    exact ih c hc hxc

/-- **No part of a text is empty.** -/
theorem Valid.exists_head {cs : List Tree} (h : (Tree.node q cs).Valid P) (hq : q ≠ .file) :
    ∃ x, (Tree.node q cs).tokens.head? = some x ∧ P x := by
  obtain ⟨k, -, hk⟩ := (h.mono fun _ _ => trivial).nextKind_mem rfl hq
  obtain ⟨x, hx, -⟩ := Option.map_eq_some_iff.1 hk
  exact ⟨x, hx, h.of_mem_tokens (mem_of_mem_head? hx)⟩

theorem exists_node_of_mem_all {t c : Tree} (h : c ∈ t.all q) :
    c ∈ t.children ∧ ∃ cs, c = .node q cs := by
  refine ⟨mem_of_mem_all h, ?_⟩
  have hnode := (mem_filter.1 h).2
  cases c with
  | leaf => cases hnode
  | node q' cs => exact ⟨cs, by simpa [isNode] using hnode⟩

end Tree

/-- A token that is no part of an option, repetition or choice is always there. -/
theorem Derives.exists_leaf {is : List Item} {ts : List Tree} (h : Derives is ts) {k : Kind}
    (hk : .token k ∈ is) : ∃ t, t.kind = k ∧ .leaf t ∈ ts := by
  induction h with
  | nil => cases hk
  | @token k' t is ts ht _ ih =>
    rcases mem_cons.1 hk with hk | hk
    · cases hk
      exact ⟨t, ht, mem_cons_self⟩
    · obtain ⟨t', hk', ht'⟩ := ih hk
      exact ⟨t', hk', mem_cons_of_mem _ ht'⟩
  | rule _ ih =>
    obtain ⟨t', hk', ht'⟩ := ih (by simpa using hk)
    exact ⟨t', hk', mem_cons_of_mem _ ht'⟩
  | skip _ ih | stop _ ih => exact ih (by simpa using hk)
  | enter _ ih => exact ih (mem_append_right _ (by simpa using hk))
  | round _ ih | first _ ih =>
    exact ih (mem_append_right _ (mem_cons_of_mem _ (by simpa using hk)))
  | choose _ _ ih => exact ih (mem_append_right _ (by simpa using hk))

/-! ## Reading -/

theorem Source.code_of_read {file text : String} {fault : Fault}
    (h : Source.read file text = .error fault) : fault.code = .ungrammatical := by
  have hcomplaint : ∀ tokens c, (complaintFault file tokens c).code = .ungrammatical := by
    intro tokens c
    unfold complaintFault
    split <;> rfl
  unfold Source.read at h
  simp only at h
  split at h
  · cases h
    rfl
  · split at h
    · cases h
    all_goals
      cases h
      exact hcomplaint _ _

namespace Draft

variable {Q : String → Nat → Prop}

/-- Values that are numbered stay where they are, and so do the faults about them. -/
theorem lands_numberFrom {kind : EnumKind} {file home : String} {previous : Option Int}
    {vs : List RawValue} (hvs : ∀ v ∈ vs, Q file v.line) :
    Lands (Fault.Misread Q) (fun es : List EnumValue => ∀ e ∈ es, e.origin.Placed Q)
      (numberFrom kind file home previous vs) := by
  induction vs generalizing previous with
  | nil => exact forall_mem_nil _
  | cons v vs ih =>
    obtain ⟨hv, hvs⟩ := forall_mem_cons.1 hvs
    rw [numberFrom]
    split
    · exact (ih hvs).bind fun rest hrest => forall_mem_cons.2 ⟨hv, hrest⟩
    · exact ⟨⟨_, rfl, hv⟩, rfl⟩

namespace Reader

variable {r : Reader} {cs : List Tree}

/-- A token on a line of the file at which declarations may stand. -/
def On (Q : String → Nat → Prop) (r : Reader) (t : Token) : Prop := Q r.source.file t.first.line

variable {q : Rule} {t : Tree} {home : String}

theorem placed_lineOf (h : (Tree.node q cs).Valid (r.On Q)) (hq : q ≠ .file) :
    Q r.source.file (lineOf (.node q cs)) := by
  obtain ⟨x, hx, hline⟩ := h.exists_head hq
  rw [lineOf, hx]
  exact hline

theorem misread_faultAt (h : (Tree.node q cs).Valid (r.On Q)) (hq : q ≠ .file) {cause : Cause}
    (hcause : cause.code = .ungrammatical) : (r.faultAt (.node q cs) cause).Misread Q := by
  obtain ⟨x, hx, hline⟩ := h.exists_head hq
  rw [faultAt, hx]
  exact ⟨⟨_, rfl, hline⟩, hcause⟩

theorem lands_value (h : (Tree.node .value cs).Valid (r.On Q)) :
    Lands (Fault.Misread Q) (fun v : RawValue => Q r.source.file v.line)
      (r.value (.node .value cs)) := by
  have hnumber : Lands (Fault.Misread Q) (fun _ => True) (r.numberOf (.node .value cs)) := by
    unfold numberOf
    split
    · trivial
    · split
      · exact misread_faultAt h (by decide) rfl
      · split
        · trivial
        · exact misread_faultAt h (by decide) rfl
  exact hnumber.bind fun n _ => placed_lineOf h (by decide)

theorem lands_values (h : t.Valid (r.On Q)) :
    Lands (Fault.Misread Q) (fun vs : List RawValue => ∀ v ∈ vs, Q r.source.file v.line)
      (r.values t) := by
  unfold values
  split
  · next list hlist =>
    have hlist := h.child (Tree.mem_of_find? hlist).1
    refine .mapM fun c hc => ?_
    obtain ⟨hmem, cs, rfl⟩ := Tree.exists_node_of_mem_all hc
    exact lands_value (hlist.child hmem)
  · exact forall_mem_nil _

/-- The values of the inline type inside a type stand in the file. -/
def InlineOn (Q : String → Nat → Prop) (file : String) (type : FieldType) : Prop :=
  ∀ {kind vs}, type.inline? = some (kind, vs) → ∀ v ∈ vs, Q file v.line

theorem lands_element (h : t.Valid (r.On Q)) :
    Lands (Fault.Misread Q) (fun e => InlineOn Q r.source.file (.element e) ∧
      InlineOn Q r.source.file (.array e))
      (r.element t) := by
  have hinline : ∀ {kind vs}, (∀ v ∈ vs, Q r.source.file v.line) →
      InlineOn Q r.source.file (.element (.inline kind vs)) ∧
      InlineOn Q r.source.file (.array (.inline kind vs)) := by
    intro kind vs hvs
    constructor <;>
    · rintro _ _ ⟨⟩
      exact hvs
  unfold element
  split
  · next cs =>
    simp only
    split
    · exact ⟨nofun, nofun⟩
    · exact (lands_values (h.child mem_cons_self)).bind fun vs hvs => hinline hvs
  · next cs => exact (lands_values (h.child mem_cons_self)).bind fun vs hvs => hinline hvs
  · simp only [Lands]
    split <;> exact ⟨nofun, nofun⟩

theorem lands_fieldType (h : t.Valid (r.On Q)) :
    Lands (Fault.Misread Q) (InlineOn Q r.source.file) (r.fieldType t) := by
  fun_induction r.fieldType t with
  | case1 _ _ key _ value _ ih =>
    have hmap := h.child mem_cons_self
    exact (ih (hmap.child (by simp [Tree.children]))).bind fun v hv => hv
  | case2 e => exact (lands_element (h.child mem_cons_self)).bind fun x hx => hx.1
  | case3 e => exact (lands_element (h.child mem_cons_self)).bind fun x hx => hx.2
  | case4 t => exact (lands_element h).bind fun x hx => hx.1

theorem lands_field (h : (Tree.node .field cs).Valid (r.On Q)) :
    Lands (Fault.Misread Q) (Field.Placed Q) (r.field home (.node .field cs)) := by
  have htype : ((Tree.node .field cs).find? .type |>.getD (.node .field cs)).Valid (r.On Q) := by
    cases hfind : (Tree.node .field cs).find? .type with
    | none => exact h
    | some t => exact h.child (Tree.mem_of_find? hfind).1
  exact (lands_fieldType htype).bind fun type hinline => ⟨placed_lineOf h (by decide), hinline⟩

theorem lands_message (h : (Tree.node .messageBlock cs).Valid (r.On Q)) :
    Lands (Fault.Misread Q) (Message.Placed Q) (r.message home (.node .messageBlock cs)) := by
  have hfields : Lands (Fault.Misread Q) (fun fs => ∀ f ∈ fs, Field.Placed Q f)
      (((Tree.node .messageBlock cs).all .field).mapM (r.field home)) := by
    refine .mapM fun c hc => ?_
    obtain ⟨hmem, ds, rfl⟩ := Tree.exists_node_of_mem_all hc
    exact lands_field (h.child hmem)
  exact hfields.bind fun fields hplaced => ⟨placed_lineOf h (by decide), hplaced⟩

theorem lands_enumeration {kind : EnumKind} (h : (Tree.node q cs).Valid (r.On Q)) (hq : q ≠ .file) :
    Lands (Fault.Misread Q) (Enumeration.Placed Q) (r.enumeration home kind (.node q cs)) :=
  (lands_values h).bind fun _ hvs => (lands_numberFrom hvs).bind fun _ hvalues =>
    ⟨placed_lineOf h hq, hvalues⟩

/-- What trees contribute stands at one of the places `Q`. -/
structure Contribution.Placed (Q : String → Nat → Prop) (c : Contribution) : Prop where
  scope : c.scope.Placed Q
  arena : ∀ ns ∈ c.arena, ns.Placed Q

theorem Contribution.Placed.of_scope {s : Scope} (h : s.Placed Q) :
    Contribution.Placed Q { scope := s } := ⟨h, forall_mem_nil _⟩

mutual

theorem lands_contribution (p : Place) : ∀ (t : Tree), t.Valid (r.On Q) →
    Lands (Fault.Misread Q) (Contribution.Placed Q) (r.contribution p t)
  | .leaf t, _ => by
    simp only [contribution]
    exact .of_scope (.of_children [])
  | .node rule cs, h => by
    have hall := fun p => lands_contributions p cs fun c hc => h.child hc
    unfold contribution
    split
    · next heq =>
      cases heq
      exact hall p
    · next heq =>
      cases heq
      refine (hall _).bind fun inner hinner => ⟨.of_children _, ?_⟩
      exact forall_mem_cons.2 ⟨⟨placed_lineOf h (by decide), hinner.scope⟩, hinner.arena⟩
    · next heq =>
      cases heq
      refine (lands_message h).bind fun m hm =>
        .of_scope { Scope.Placed.of_children [] with message := ?_ }
      exact forall_mem_singleton.2 hm
    · next heq =>
      cases heq
      refine (lands_enumeration h (by decide)).bind fun e he =>
        .of_scope { Scope.Placed.of_children [] with enumeration := ?_ }
      exact forall_mem_singleton.2 he
    · next heq =>
      cases heq
      refine (lands_enumeration h (by decide)).bind fun e he =>
        .of_scope { Scope.Placed.of_children [] with options := ?_ }
      exact forall_mem_singleton.2 he
    · next heq =>
      cases heq
      refine .of_scope { Scope.Placed.of_children [] with compound := ?_ }
      exact forall_mem_singleton.2 (placed_lineOf h (by decide))
    · exact .of_scope (.of_children [])

theorem lands_contributions (p : Place) : ∀ (ts : List Tree), (∀ t ∈ ts, t.Valid (r.On Q)) →
    Lands (Fault.Misread Q) (Contribution.Placed Q) (r.contributions p ts)
  | [], _ => by
    simp only [contributions]
    exact .of_scope (.of_children [])
  | t :: ts, h => by
    obtain ⟨ht, hts⟩ := forall_mem_cons.1 h
    simp only [contributions]
    refine (lands_contribution p t ht).bind fun one hone => ?_
    refine (lands_contributions _ ts hts).bind fun rest hrest => ?_
    exact ⟨hone.scope.append hrest.scope, fun ns hns =>
      (mem_append.1 hns).elim (hone.arena ns) (hrest.arena ns)⟩

end

/-- An import has a path, whose line is its own. -/
theorem placed_importLine (h : (Tree.node .importLine cs).Valid (r.On Q)) :
    Q r.source.file (importLine (.node .importLine cs)).line := by
  obtain ⟨x, hkind, hx⟩ := h.derives.exists_leaf (k := .text) (by simp [Rule.body])
  have hleaves : x ∈ (Tree.node .importLine cs).leaves .text :=
    mem_filterMap.2 ⟨.leaf x, hx, by simp [Tree.leaf?, hkind]⟩
  unfold importLine
  split
  · next path hpath =>
    obtain ⟨c, hc, hleaf⟩ := mem_filterMap.1 (mem_of_mem_head? hpath)
    cases c with
    | leaf t =>
      simp only [Tree.leaf?] at hleaf
      split at hleaf
      · cases hleaf
        exact (h.child hc).leaf_of
      · cases hleaf
    | node => cases hleaf
  · next hnone =>
    rw [head?_eq_none_iff.1 hnone] at hleaves
    cases hleaves

end Reader

/-- **A draft that is read stands on the lines of its text**, and so does the fault if it
    cannot be read. -/
theorem lands_read {file text : String} (hQ : ∀ n, Text.HasLine text n → Q file n) :
    Lands (Fault.Misread Q) (Placed Q) (read file text) := by
  have hsource : Lands (Fault.Misread Q) (fun s : Source => s.file = file ∧
      s.tree.Valid (· ∈ (Scan.ofText text).tokens)) (Source.read file text) := by
    cases h : Source.read file text with
    | error fault => exact ⟨Source.placed_of_read hQ h, Source.code_of_read h⟩
    | ok s => exact ⟨(Source.read_elim h).1, Source.read_valid h⟩
  refine hsource.bind fun s ⟨hfile, hvalid⟩ => ?_
  have htree : s.tree.Valid ((Reader.ofSource s).On Q) := hvalid.mono fun t ht => by
    rw [Reader.On, Reader.ofSource, hfile]
    exact hQ _ (hasLine_of_mem_tokens ht).1
  refine (Reader.lands_contributions _ _ fun c hc => htree.child hc).bind fun all hall => ?_
  refine ⟨hall.scope, hall.arena, ?_, fun i hi => ?_, fun hk => nomatch hk⟩
  · rw [hfile]
    exact hQ 1 (Text.hasLine_one text)
  · obtain ⟨c, hc, rfl⟩ := mem_map.1 hi
    obtain ⟨hmem, cs, rfl⟩ := Tree.exists_node_of_mem_all hc
    exact Reader.placed_importLine (htree.child hmem)

theorem code_of_read {file text : String} {fault : Fault} (h : read file text = .error fault) :
    fault.code = .ungrammatical :=
  ((lands_read (Q := fun _ _ => True) fun _ _ => trivial).of_error h).2

end Draft

end MessageSchema
