/-
  What promotion leaves of a scope.

  If no fault comes up, every inline type has been replaced by a resolved name
  (`Field.lifted`), and the declarations of the scope are those that it had and
  one for each of these names.

  * `Scope.promote_eq`: the scope after promotion;
  * `Scope.mem_declared_promote`: promotion does not change what lookups see.
-/
import MessageSchema.Draft.Promotion
import MessageSchema.Draft.Resolution
import MessageSchema.Model.Declarations
import MessageSchema.Proofs.Reading

namespace MessageSchema.Draft

open List QualifiedName

variable {new : List Enumeration} {home : Option String} {s : Scope} {n : String}
  {message : String} {s' : Scope}

/-! ## Types -/

variable {f : Field} {e : Enumeration}

theorem FieldType.isSome_inline? (t : FieldType) : t.inline?.isSome = t.hasInline := by
  fun_induction inline? t with
  | case1 | case2 => rfl
  | case3 key value ih => rw [ih, hasInline]
  | case4 t h1 h2 h3 => rw [hasInline] <;> grind

theorem FieldType.replaceInline_of_not_hasInline (n : TypeName) {t : FieldType}
    (h : t.hasInline = false) : t.replaceInline n = t := by
  induction t with
  | element e => cases e <;> simp_all [hasInline, replaceInline]
  | array e => cases e <;> simp_all [hasInline, replaceInline]
  | map key value ih => rw [replaceInline, ih h]

theorem FieldType.hasInline_replaceInline (n : TypeName) (t : FieldType) :
    (t.replaceInline n).hasInline = false := by
  induction t with
  | element e => cases e <;> rfl
  | array e => cases e <;> rfl
  | map key value ih => exact ih

theorem FieldType.inline?_mapNames (g : TypeName → TypeName) (t : FieldType) :
    (t.mapNames g).inline? = t.inline? := by
  induction t with
  | element e => cases e <;> rfl
  | array e => cases e <;> rfl
  | map key value ih => exact ih

theorem FieldType.hasInline_mapNames (f : TypeName → TypeName) (t : FieldType) :
    (t.mapNames f).hasInline = t.hasInline := by
  rw [← isSome_inline?, inline?_mapNames, isSome_inline?]

/-! ## Fields and messages -/

/-- The name that a field refers to its inline type by. -/
def Field.liftedName (home : Option String) (message : String) (f : Field) : TypeName :=
  ⟨join home (ofInline message f.name), true⟩

/-- A field that refers to its inline type by a name. -/
def Field.lifted (home : Option String) (message : String) (f : Field) : Field :=
  { f with type := f.type.replaceInline (f.liftedName home message) }

/-- A message whose fields refer to their inline types by names. -/
def Message.lifted (home : Option String) (m : Message) : Message :=
  { m with fields := m.fields.map (Field.lifted home m.name) }

/-- The names of the inline types of some fields of a message. -/
def inlineNames (message : String) (fs : List Field) : List String :=
  (fs.filter (·.type.hasInline)).map fun f => ofInline message f.name

theorem Message.declared_eq (m : Message) : m.declared = m.name :: inlineNames m.name m.fields :=
  rfl

/-- Declarations with these names that inherit from nothing. -/
def Named (names : List String) (es : List Enumeration) : Prop :=
  es.map (·.name) = names ∧ ∀ e ∈ es, e.parent = none

/-- A declaration is what the inline type of a field of a message becomes. -/
def Field.Promotes (message : String) (f : Field) (e : Enumeration) : Prop :=
  ∃ kind raws, f.type.inline? = some (kind, raws) ∧ f.declaration message kind raws = .ok e

/-- What the inline type of a field of a message becomes, if its values can be numbered. -/
def Field.promoted? (message : String) (f : Field) : Option Enumeration :=
  f.type.inline?.bind fun i => (f.declaration message i.1 i.2).toOption

def Field.Promotable (message : String) (f : Field) : Prop :=
  f.type.hasInline = true → (f.promoted? message).isSome = true

/-- The inline types of a scope can be promoted. -/
def Scope.Promotable (s : Scope) : Prop := ∀ m ∈ s.messages, ∀ f ∈ m.fields, f.Promotable m.name

/-- What the inline types of some messages become. -/
def promotions (ms : List Message) : List Enumeration :=
  ms.flatMap fun m => m.fields.filterMap (Field.promoted? m.name)

/-- A scope after promotion. -/
def Scope.promoted (home : Option String) (s : Scope) : Scope :=
  { s with
    messages := s.messages.map (Message.lifted home)
    enums := s.enums ++ (promotions s.messages).filter (·.kind ≠ .flags)
    options := s.options ++ (promotions s.messages).filter (·.kind = .flags) }

theorem Field.promoted?_eq_some_iff : f.promoted? message = some e ↔ f.Promotes message e := by
  simp [promoted?, Promotes, Option.bind_eq_some_iff, toOption_eq_some_iff]

theorem Field.Promotes.name_eq (h : f.Promotes message e) :
    e.name = ofInline message f.name ∧ e.parent = none := by
  obtain ⟨kind, raws, -, he⟩ := h
  obtain ⟨values, -, he⟩ := bind_eq_ok he
  cases he
  exact ⟨rfl, rfl⟩

theorem Field.promoted?_of_hasInline (message : String) (h : f.type.hasInline = false) :
    f.promoted? message = none := by
  rw [← FieldType.isSome_inline?, Option.isSome_eq_false_iff, Option.isNone_iff_eq_none] at h
  rw [promoted?, h, Option.bind_none]

theorem Field.promote_eq_iff {f' : Field} : f.promote home message = .ok (f', new) ↔
    f.Promotable message ∧ f' = f.lifted home message ∧ new = (f.promoted? message).toList := by
  rw [Field.promote, Promotable, ← FieldType.isSome_inline?, promoted?]
  cases hinline : f.type.inline? with
  | none =>
    have hf : f.type.hasInline = false := by rw [← f.type.isSome_inline?, hinline]; rfl
    have hlifted : f.lifted home message = f := by
      rw [lifted, FieldType.replaceInline_of_not_hasInline _ hf]
    simp [hlifted, eq_comm]
  | some inline =>
    obtain ⟨kind, vs⟩ := inline
    cases hdeclaration : f.declaration message kind vs with
    | error fault => simp [hdeclaration, Except.toOption, bind, Except.bind]
    | ok e =>
      have hname := (Promotes.name_eq ⟨kind, vs, hinline, hdeclaration⟩).1
      simp [hdeclaration, Except.toOption, bind, Except.bind, pure, Except.pure, Field.lifted,
        liftedName, hname, eq_comm]

theorem promoteFields_eq_iff {fs fs' : List Field} :
    promoteFields home message fs = (fs', new, none) ↔
    (∀ f ∈ fs, f.Promotable message) ∧ fs' = fs.map (Field.lifted home message) ∧
      new = fs.filterMap (Field.promoted? message) := by
  induction fs generalizing fs' new with
  | nil => simp [promoteFields, eq_comm]
  | cons f fs ih =>
    rw [promoteFields, forall_mem_cons, map_cons, filterMap_cons]
    cases hone : f.promote home message with
    | error fault =>
      have hnot : ¬ f.Promotable message := fun hf => by
        cases hone.symm.trans (Field.promote_eq_iff.2 ⟨hf, rfl, rfl⟩)
      simp [hnot]
    | ok promoted =>
      obtain ⟨f', new'⟩ := promoted
      obtain ⟨hf, rfl, rfl⟩ := Field.promote_eq_iff.1 hone
      constructor
      · intro h
        rcases hrest : promoteFields home message fs with ⟨xs, more, fault⟩
        rw [hrest] at h
        cases h
        obtain ⟨hfs, rfl, rfl⟩ := ih.1 hrest
        exact ⟨⟨hf, hfs⟩, rfl, by cases f.promoted? message <;> rfl⟩
      · rintro ⟨⟨-, hfs⟩, rfl, rfl⟩
        rw [ih.2 ⟨hfs, rfl, rfl⟩]
        cases f.promoted? message <;> rfl

theorem promoteMessages_eq_iff {ms ms' : List Message} :
    promoteMessages home ms = (ms', new, none) ↔
    (∀ m ∈ ms, ∀ f ∈ m.fields, f.Promotable m.name) ∧ ms' = ms.map (Message.lifted home) ∧
      new = promotions ms := by
  induction ms generalizing ms' new with
  | nil => simp [promoteMessages, promotions, eq_comm]
  | cons m ms ih =>
    rw [promoteMessages, forall_mem_cons, promotions, flatMap_cons, map_cons]
    rcases hfields : promoteFields home m.name m.fields with ⟨fields, new', fault⟩
    cases fault with
    | some fault =>
      have hnot : ¬ ∀ f ∈ m.fields, f.Promotable m.name := fun hm => by
        cases hfields.symm.trans (promoteFields_eq_iff.2 ⟨hm, rfl, rfl⟩)
      simp [hnot]
    | none =>
      obtain ⟨hm, rfl, rfl⟩ := promoteFields_eq_iff.1 hfields
      constructor
      · intro h
        rcases hrest : promoteMessages home ms with ⟨xs, more, fault⟩
        rw [hrest] at h
        cases h
        obtain ⟨hms, rfl, rfl⟩ := ih.1 hrest
        exact ⟨⟨hm, hms⟩, rfl, rfl⟩
      · rintro ⟨⟨-, hms⟩, rfl, rfl⟩
        rw [ih.2 ⟨hms, rfl, rfl⟩]
        rfl

/-! ## Scopes -/

/-- **A scope after promotion**: fields refer to their inline types by names, and
    what these become is declared behind what was. -/
theorem Scope.promote_eq_iff :
    s.promote home = (s', none) ↔ s.Promotable ∧ s' = s.promoted home := by
  rw [Scope.promote]
  constructor
  · intro h
    rcases hms : promoteMessages home s.messages with ⟨ms, new, fault⟩
    rw [hms] at h
    cases h
    obtain ⟨hs, rfl, rfl⟩ := promoteMessages_eq_iff.1 hms
    exact ⟨hs, rfl⟩
  · rintro ⟨hs, rfl⟩
    rw [promoteMessages_eq_iff.2 ⟨hs, rfl, rfl⟩]
    rfl

theorem Scope.Promotable.named (h : s.Promotable) :
    Named (s.messages.flatMap fun m => inlineNames m.name m.fields) (promotions s.messages) := by
  refine ⟨?_, fun e he => ?_⟩
  · rw [promotions, map_flatMap]
    refine flatMap_congr fun m hm => ?_
    have hfields := h m hm
    generalize m.fields = fs at hfields ⊢
    induction fs with
    | nil => rfl
    | cons f fs ih =>
      obtain ⟨hf, hfs⟩ := forall_mem_cons.1 hfields
      cases hinline : f.type.hasInline with
      | true =>
        obtain ⟨e, he⟩ := Option.isSome_iff_exists.1 (hf hinline)
        have hname := (Field.promoted?_eq_some_iff.1 he).name_eq.1
        simpa [inlineNames, hinline, he, hname] using ih hfs
      | false =>
        simpa [inlineNames, hinline, Field.promoted?_of_hasInline m.name hinline] using ih hfs
  · obtain ⟨m, -, he⟩ := mem_flatMap.1 he
    obtain ⟨f, -, he⟩ := mem_filterMap.1 he
    exact (Field.promoted?_eq_some_iff.1 he).name_eq.2

theorem Scope.promote_eq (h : s.promote home = (s', none)) :
    ∃ new, Named (s.messages.flatMap fun m => inlineNames m.name m.fields) new ∧
      s' = { s with
        messages := s.messages.map (Message.lifted home)
        enums := s.enums ++ new.filter (·.kind ≠ .flags)
        options := s.options ++ new.filter (·.kind = .flags) } := by
  obtain ⟨hpromotable, rfl⟩ := promote_eq_iff.1 h
  exact ⟨_, hpromotable.named, rfl⟩

theorem Scope.promote_children (home : Option String) (s : Scope) :
    (s.promote home).1.children = s.children := rfl

theorem Scope.promote_of_declaresNothing (h : s.declaresNothing = true) (home : Option String) :
    s.promote home = (s, none) := by
  obtain ⟨messages, enums, options, compounds, children⟩ := s
  simp only [declaresNothing, Bool.and_eq_true, List.isEmpty_iff] at h
  obtain ⟨⟨⟨rfl, rfl⟩, rfl⟩, rfl⟩ := h
  rfl

open Model (declarationsOf Declaration)

theorem mem_declarationsOf {x : Declaration} : x ∈ declarationsOf s ↔
    (∃ m ∈ s.messages, x = .message m) ∨ (∃ e ∈ s.enums, x = .enumeration e) ∨
      (∃ e ∈ s.options, x = .enumeration e) ∨ ∃ c ∈ s.compounds, x = .compound c := by
  simp only [declarationsOf, mem_append, mem_map, or_assoc, eq_comm]

theorem mem_map_name_declarationsOf :
    n ∈ (declarationsOf s).map Declaration.name ↔
      n ∈ s.messages.map (·.name) ++ s.enums.map (·.name) ++ s.options.map (·.name)
        ++ s.compounds.map (·.name) := by
  simp only [declarationsOf, map_append, map_map]
  rfl

/-- Lookups see the names of all declarations and of the types written inline. -/
theorem mem_declared_iff :
    n ∈ s.declared ↔ n ∈ (declarationsOf s).map Declaration.name ∨
      n ∈ s.messages.flatMap fun m => inlineNames m.name m.fields := by
  have hmessages : n ∈ s.messages.flatMap Message.declared ↔
      n ∈ s.messages.map (·.name) ∨ n ∈ s.messages.flatMap fun m =>
      inlineNames m.name m.fields := by
    simp only [mem_flatMap, mem_map, Message.declared_eq, mem_cons]
    constructor
    · rintro ⟨m, hm, rfl | hn⟩
      · exact .inl ⟨m, hm, rfl⟩
      · exact .inr ⟨m, hm, hn⟩
    · rintro (⟨m, hm, rfl⟩ | ⟨m, hm, hn⟩)
      · exact ⟨m, hm, .inl rfl⟩
      · exact ⟨m, hm, .inr hn⟩
  rw [mem_map_name_declarationsOf, Scope.declared]
  simp only [mem_append, hmessages]
  tauto

/-- The names of the declarations after promotion. -/
theorem Scope.mem_names_promote (h : s.promote home = (s', none)) :
    n ∈ (declarationsOf s').map Declaration.name ↔ n ∈ s.declared := by
  obtain ⟨new, ⟨hnames, -⟩, rfl⟩ := promote_eq h
  have hnew : n ∈ (new.filter (·.kind ≠ .flags)).map (·.name) ∨
      n ∈ (new.filter (·.kind = .flags)).map (·.name) ↔ n ∈ new.map (·.name) := by
    simp only [mem_map, mem_filter, ne_eq, decide_not, Bool.not_eq_true',
      decide_eq_false_iff_not, decide_eq_true_eq]
    constructor
    · rintro (⟨e, ⟨he, -⟩, rfl⟩ | ⟨e, ⟨he, -⟩, rfl⟩) <;> exact ⟨e, he, rfl⟩
    · rintro ⟨e, he, rfl⟩
      by_cases hk : e.kind = .flags
      · exact .inr ⟨e, ⟨he, hk⟩, rfl⟩
      · exact .inl ⟨e, ⟨he, hk⟩, rfl⟩
  have hmessages : (s.messages.map (Message.lifted home)).map (·.name) =
      s.messages.map (·.name) := by
    rw [map_map]; rfl
  rw [mem_declared_iff, mem_map_name_declarationsOf, mem_map_name_declarationsOf, ← hnames]
  simp only [mem_append, map_append, hmessages, ← hnew]
  tauto

theorem Scope.exists_promoted (h : s.promote home = (s', none)) {m : Message} (hm : m ∈ s.messages)
    {f : Field} (hf : f ∈ m.fields) (hinline : f.type.hasInline = true) :
    ∃ e, .enumeration e ∈ declarationsOf s' ∧ f.Promotes m.name e := by
  obtain ⟨hpromotable, rfl⟩ := promote_eq_iff.1 h
  obtain ⟨e, hsome⟩ := Option.isSome_iff_exists.1 (hpromotable m hm f hf hinline)
  have hpromotes := Field.promoted?_eq_some_iff.1 hsome
  have he : e ∈ promotions s.messages := mem_flatMap.2 ⟨m, hm, mem_filterMap.2 ⟨f, hf, hsome⟩⟩
  refine ⟨e, mem_declarationsOf.2 ?_, hpromotes⟩
  by_cases hk : e.kind = .flags
  · exact .inr (.inr (.inl ⟨e, mem_append_right _ (mem_filter.2 ⟨he, by simpa using hk⟩), rfl⟩))
  · exact .inr (.inl ⟨e, mem_append_right _ (mem_filter.2 ⟨he, by simpa using hk⟩), rfl⟩)

theorem Scope.mem_declared_promote (h : s.promote home = (s', none)) :
    n ∈ s'.declared ↔ n ∈ s.declared := by
  rw [mem_declared_iff (s := s'), mem_names_promote h]
  have hnone : n ∉ s'.messages.flatMap fun m => inlineNames m.name m.fields := by
    obtain ⟨new, -, rfl⟩ := promote_eq h
    simp only [mem_flatMap, mem_map, inlineNames, mem_filter, not_exists,
      not_and]
    rintro _ ⟨m, -, rfl⟩ f ⟨hf, hin⟩ -
    obtain ⟨g, -, rfl⟩ := mem_map.1 hf
    rw [Field.lifted, FieldType.hasInline_replaceInline] at hin
    cases hin
  simp [hnone]

/-- Changing names that stand for declarations changes none of these. -/
theorem Scope.declared_mapNames (f : TypeName → TypeName) (s : Scope) :
    (s.mapNames f).declared = s.declared := by
  have hmessage : ∀ m : Message, (m.mapNames f).declared = m.declared := by
    intro m
    have hfields : ∀ fs : List Field, inlineNames m.name
        (fs.map fun x => { x with type := x.type.mapNames f }) = inlineNames m.name fs := by
      intro fs
      simp [inlineNames, filter_map, Function.comp_def, FieldType.hasInline_mapNames]
    rw [Message.declared_eq, Message.declared_eq, Message.mapNames, hfields]
  simp only [declared, mapNames, flatMap_map, map_map, hmessage]
  rfl

/-- What inline types become has nothing to do with names. -/
theorem Field.promoted?_mapNames (g : TypeName → TypeName) (message : String) (f : Field) :
    Field.promoted? message { f with type := f.type.mapNames g } = f.promoted? message := by
  rw [promoted?, FieldType.inline?_mapNames]
  rfl

theorem Scope.promotable_mapNames (g : TypeName → TypeName) (s : Scope) :
    (s.mapNames g).Promotable ↔ s.Promotable := by
  simp only [Promotable, mapNames, Message.mapNames, forall_mem_map, Field.Promotable,
    Field.promoted?_mapNames, FieldType.hasInline_mapNames]

theorem promotions_mapNames (g : TypeName → TypeName) (s : Scope) :
    promotions (s.mapNames g).messages = promotions s.messages := by
  simp only [promotions, Scope.mapNames, flatMap_map, Message.mapNames, filterMap_map,
    Function.comp_def, Field.promoted?_mapNames]

theorem Scope.AsRead.isWord_declared (h : s.AsRead) (hn : n ∈ s.declared) : IsWord n := by
  rw [mem_declared_iff, mem_map_name_declarationsOf] at hn
  simp only [mem_append, mem_map, mem_flatMap, inlineNames, mem_filter] at hn
  rcases hn with (((⟨m, hm, rfl⟩ | ⟨e, he, rfl⟩) | ⟨e, he, rfl⟩) | ⟨c, hc, rfl⟩) | ⟨m, hm,
    f, ⟨hf, -⟩, rfl⟩
  · exact (h.message m hm).name
  · exact (h.enumeration e he).name
  · exact (h.options e he).name
  · exact h.compoundName c hc
  · exact (h.message m hm).name.ofInline ((h.message m hm).fieldName f hf)

end MessageSchema.Draft
