/-
  Inline types are declarations.

  A field that lists the values of its inline type may as well refer to a declaration of
  that list, under the name that promotion would give it and in the namespace of its message.
  Then the passes and the build succeed as they did, and every name is bound to the same
  entity, lines and notes apart.

  * `Namespace.Likeness.comp`: likenesses one after the other;
  * `Scope.DeclaredApart.reordered`: after the passes, both scopes declare the same.
-/
import MessageSchema.Proofs.BareModels
import MessageSchema.Proofs.DeclarationOrder

namespace MessageSchema

open List QualifiedName Draft

namespace Draft

/-! ## One change after another -/

section
variable {P Q : Namespace → Namespace → Prop} {m n x : Namespace}

theorem Namespace.Same.trans (h : m.Same x) (h' : x.Same n) : m.Same n :=
  ⟨⟨h.scope.children.trans h'.scope.children,
    fun k => (h.scope.declared k).trans (h'.scope.declared k)⟩, h'.name.trans h.name⟩

theorem Namespace.Likeness.comp (hP : Likeness P) (hQ : Likeness Q) :
    Likeness (Relation.Comp P Q) where
  same := fun ⟨_, h, h'⟩ => (hP.same h).trans (hQ.same h')
  declaresNothing := fun ⟨_, h, h'⟩ => (hP.declaresNothing h).trans (hQ.declaresNothing h')
  adopt parent := fun ⟨_, h, h'⟩ => ⟨_, hP.adopt parent h, hQ.adopt parent h'⟩
  moveTo := fun ⟨_, h, h'⟩ => ⟨_, hP.moveTo h, by rw [← (hP.same h).name]; exact hQ.moveTo h'⟩
  promotable := fun ⟨_, h, h'⟩ hm => hQ.promotable h' (hP.promotable h hm)

theorem Namespace.Matched.split (hP : Likeness P) (h : m.Matched (Relation.Comp P Q) n) :
    ∃ x, m.Matched P x ∧ x.Matched Q n := by
  obtain ⟨⟨x, hmx, hxn⟩, hfinds, hm⟩ := h
  refine ⟨_, .intro hmx hfinds hm, .intro hxn (fun k hk => ?_) (hP.promotable hmx hm)⟩
  exact hfinds k (((hP.same hmx).scope.declared k).2 hk)

theorem Related.comp {d x e : Draft} (h : d.Related P x) (h' : x.Related Q e) :
    d.Related (Relation.Comp P Q) e := by
  refine ⟨⟨_, h.top, h'.top⟩, ?_, h.imports.trans h'.imports, by rw [h'.rest, h.rest]⟩
  have hboth : ∀ {as bs cs : List Namespace}, Forall₂ P as bs → Forall₂ Q bs cs →
      Forall₂ (Relation.Comp P Q) as cs := by
    intro as bs cs has
    induction has generalizing cs with
    | nil => rintro ⟨⟩; exact .nil
    | cons hone _ ih => rintro (_ | ⟨hone', hrest⟩); exact .cons ⟨_, hone, hone'⟩ (ih hrest)
  exact hboth h.arena h'.arena

end

/-! ## An inline type that is declared apart -/

/-- A scope with one more enumeration or set of flags. -/
def Scope.declare (e : Enumeration) (s : Scope) : Scope :=
  if e.kind = .flags then { s with options := s.options ++ [e] }
    else { s with enums := s.enums ++ [e] }

theorem Scope.messages_declare (e : Enumeration) (s : Scope) :
    (s.declare e).messages = s.messages := by
  unfold declare
  split <;> rfl

theorem FieldType.mapNames_replaceInline (g : TypeName → TypeName) (n : TypeName) (t : FieldType) :
    (t.replaceInline n).mapNames g = (t.mapNames g).replaceInline (g n) := by
  induction t with
  | element e => cases e <;> rfl
  | array e => cases e <;> rfl
  | map key value ih => rw [replaceInline, mapNames, mapNames, replaceInline, ih]

/-- A field that refers to its inline type by a name, as one writes it. -/
def Field.named (message : String) (f : Field) : Field :=
  { f with type := f.type.replaceInline ⟨ofInline message f.name, false⟩ }

/-- A scope in the namespace `home`, in which a field refers to its inline type by a name
    that the list of its values is declared under. -/
inductive Scope.DeclaredApart (home : String) (s : Scope) : Scope → Prop
  | intro {pre m post fs f gs kind raws values} : s.messages = pre ++ m :: post →
    m.fields = fs ++ f :: gs →
      f.type.inline? = some (kind, raws) → f.origin.home = home →
      number kind f.origin.file home raws = .ok values →
      DeclaredApart home s (Scope.declare ⟨ofInline m.name f.name, none, kind, values, f.origin⟩
        { s with messages := pre ++ { m with fields := fs ++ f.named m.name :: gs } :: post })

namespace Scope.DeclaredApart

variable {home : String} {s t : Scope} (h : s.DeclaredApart home t)
include h

theorem same : s.Same t := by
  obtain @⟨pre, m, post, fs, f, gs, kind, raws, values, hmessages, hfields, hinline, -, -⟩ := h
  have hf : f.type.hasInline = true := by rw [← FieldType.isSome_inline?, hinline]; rfl
  have hnamed : (f.named m.name).type.hasInline = false := FieldType.hasInline_replaceInline _ _
  have hnames : inlineNames m.name m.fields = inlineNames m.name fs ++
      ofInline m.name f.name :: inlineNames m.name gs := by
    simp [hfields, inlineNames, hf]
  have hnames' : inlineNames m.name (fs ++ f.named m.name :: gs) = inlineNames m.name fs ++
      inlineNames m.name gs := by
    simp [inlineNames, hnamed]
  unfold declare
  split
  all_goals
    refine ⟨rfl, fun n => ?_⟩
    simp only [declared, hmessages, flatMap_append, flatMap_cons, Message.declared_eq, hnames,
      hnames', map_append]
    grind

theorem declaresNothing : s.declaresNothing = t.declaresNothing := by
  obtain ⟨hmessages, -, -, -, -⟩ := h
  have hempty : ∀ (pre post : List Message) m, (pre ++ m :: post).isEmpty = false :=
    fun pre _ _ => by cases pre <;> rfl
  unfold declare
  split <;> simp [Scope.declaresNothing, hmessages, hempty]

theorem moveTo : (s.moveTo home).DeclaredApart home (t.moveTo home) := by
  obtain @⟨pre, m, post, fs, f, gs, kind, raws, values, hmessages, hfields, hinline,
    hhome, hvalues⟩ := h
  have horigin : f.origin.moveTo home = f.origin := by rw [← hhome]; rfl
  have hmoved : (s.moveTo home).messages = (pre ++ m :: post).map fun m =>
      { m with origin := m.origin.moveTo home } := by
    rw [← hmessages]; rfl
  rw [map_append, map_cons] at hmoved
  have hapart := DeclaredApart.intro hmoved hfields hinline hhome hvalues
  by_cases hkind : kind = .flags
  · simpa [Scope.moveTo, declare, hkind, horigin] using hapart
  · simpa [Scope.moveTo, declare, hkind, horigin] using hapart

theorem promotable (hs : s.Promotable) : t.Promotable := by
  obtain @⟨pre, m, post, fs, f, gs, kind, raws, values, hmessages, hfields, -, -, -⟩ := h
  rw [Scope.Promotable, hmessages, forall_mem_append, forall_mem_cons, hfields, forall_mem_append,
    forall_mem_cons] at hs
  obtain ⟨hpre, ⟨hfs, -, hgs⟩, hpost⟩ := hs
  rw [Scope.Promotable, messages_declare]
  refine forall_mem_append.2
    ⟨hpre, forall_mem_cons.2 ⟨forall_mem_append.2 ⟨hfs, forall_mem_cons.2 ⟨?_, hgs⟩⟩, hpost⟩⟩
  intro hinline
  cases (FieldType.hasInline_replaceInline _ _).symm.trans hinline

/-- **After the passes both scopes declare the same**, in another order. -/
theorem reordered {q : String} {g : TypeName → TypeName} (hfinds : s.Finds q g) :
    ((s.mapNames g).promoted (some q)).Reordered ((t.mapNames g).promoted (some q)) := by
  obtain @⟨pre, m, post, fs, f, gs, kind, raws, values, hmessages, hfields, hinline,
    hhome, hvalues⟩ := h
  have hpromoted : f.promoted? m.name = some ⟨ofInline m.name f.name, none, kind, values,
      f.origin⟩ := by
    rw [Field.promoted?_eq_some_iff]
    refine ⟨kind, raws, hinline, ?_⟩
    rw [Field.declaration, hhome, hvalues]
    rfl
  have hnone : (f.named m.name).promoted? m.name = none :=
    Field.promoted?_of_hasInline _ (FieldType.hasInline_replaceInline _ _)
  -- the declaration is promoted from the one scope, and stands in the other
  have hnew : (promotions (s.mapNames g).messages).Perm
      (⟨ofInline m.name f.name, none, kind, values, f.origin⟩ ::
        promotions (Scope.mapNames g { s with
          messages :=
              pre ++ { m with fields := fs ++ f.named m.name :: gs } :: post }).messages) := by
    rw [promotions_mapNames, promotions_mapNames]
    simp only [promotions, hmessages, hfields, flatMap_append, flatMap_cons, filterMap_append,
      filterMap_cons, hpromoted, hnone, append_assoc, cons_append]
    rw [← append_assoc, ← append_assoc]
    exact perm_middle
  have hfield : Field.lifted (some q) m.name { f with type := f.type.mapNames g } =
      Field.lifted (some q) m.name
      { f.named m.name with type := (f.named m.name).type.mapNames g } := by
    have hf : f.type.hasInline = true := by rw [← FieldType.isSome_inline?, hinline]; rfl
    have hname : ofInline m.name f.name ∈ s.declared := by
      refine mem_declared_iff.2 (.inr (mem_flatMap.2 ⟨m, by simp [hmessages], ?_⟩))
      exact mem_map.2 ⟨f, mem_filter.2 ⟨by simp [hfields], hf⟩, rfl⟩
    simp [Field.lifted, Field.liftedName, Field.named, FieldType.mapNames_replaceInline,
      hfinds _ hname,
      FieldType.replaceInline_of_not_hasInline _ (FieldType.hasInline_replaceInline _ _)]
  have hlifted : (s.messages.map (Message.mapNames g)).map (Message.lifted (some q)) =
      ((pre ++ { m with fields := fs ++ f.named m.name :: gs } :: post).map
      (Message.mapNames g)).map
        (Message.lifted (some q)) := by
    simp [hmessages, Message.mapNames, hfields, Message.lifted, hfield]
  by_cases hkind : kind = .flags
  · have henums := hnew.filter (·.kind ≠ .flags)
    have hoptions := hnew.filter (·.kind = .flags)
    rw [filter_cons_of_neg (by simpa using hkind)] at henums
    rw [filter_cons_of_pos (by simpa using hkind)] at hoptions
    rw [declare, if_pos hkind]
    refine ⟨.of_eq hlifted, henums.append_left _, ?_, .refl _, rfl⟩
    simp only [promoted, mapNames, append_assoc]
    exact hoptions.append_left _
  · have henums := hnew.filter (·.kind ≠ .flags)
    have hoptions := hnew.filter (·.kind = .flags)
    rw [filter_cons_of_pos (by simpa using hkind)] at henums
    rw [filter_cons_of_neg (by simpa using hkind)] at hoptions
    rw [declare, if_neg hkind]
    refine ⟨.of_eq hlifted, ?_, hoptions.append_left _, .refl _, rfl⟩
    refine (henums.append_left (s.enums.map (Enumeration.mapNames g))).trans (.of_eq ?_)
    simp [promoted, mapNames, Enumeration.mapNames]

end Scope.DeclaredApart

/-- The same namespace, or one in which an inline type is declared apart. -/
def Namespace.DeclaredApart (m n : Namespace) : Prop :=
  n = m ∨ m.scope.DeclaredApart m.name n.scope ∧ n = { m with scope := n.scope }

/-- **The passes keep inline types and declarations apart from all else.** -/
theorem Namespace.likeness_declaredApart : Likeness DeclaredApart where
  same {m n} h := by
    rcases h with rfl | ⟨h, hrest⟩
    · exact ⟨⟨rfl, fun _ => Iff.rfl⟩, rfl⟩
    · exact ⟨h.same, by rw [hrest]⟩
  declaresNothing {m n} h := by
    rcases h with rfl | ⟨h, -⟩
    · rfl
    · exact h.declaresNothing
  adopt {m n} parent h := by
    rcases h with rfl | ⟨h, hrest⟩
    · exact .inl rfl
    · exact .inr ⟨h, by rw [hrest]⟩
  moveTo {m n} h := by
    rcases h with rfl | ⟨h, hrest⟩
    · exact .inl rfl
    · exact .inr ⟨h.moveTo, by rw [hrest]⟩
  promotable {m n} h hm := by
    rcases h with rfl | ⟨h, -⟩
    · exact hm
    · exact h.promotable hm

theorem Namespace.Matched.mirrors_declaredApart (g : Origin → Origin) {m n : Namespace}
    (h : m.Matched Namespace.DeclaredApart n) : m.scope.Mirrors g n.scope := by
  obtain ⟨rfl | ⟨h, -⟩, hfinds, -⟩ := h
  · exact .refl _
  · exact (h.reordered hfinds).mirrors g

/-- Two files, the second of which may declare apart an inline type of each namespace of the
    first, and may differ in the order of declarations, in lines and in notes. -/
def DeclaredApart (d e : Draft) : Prop :=
  ∃ x y : Draft, d.outermost.DeclaredApart x.outermost ∧
    Forall₂ Namespace.DeclaredApart d.arena x.arena ∧
    x = { d with top := x.top, arena := x.arena } ∧ x.Reordered y ∧ y.bare (fun _ => 0) =
    e.bare (fun _ => 0)

theorem DeclaredApart.related {d e : Draft} (h : d.DeclaredApart e) :
    d.Related (Relation.Comp Namespace.DeclaredApart
    (Relation.Comp Namespace.Reordered (Namespace.Alike fun _ => 0))) e := by
  obtain ⟨x, y, htop, harena, hrest, hreordered, hbare⟩ := h
  have hx : d.Related Namespace.DeclaredApart x := ⟨htop, harena, by rw [hrest], by rw [hrest]⟩
  exact hx.comp (hreordered.related.comp (related_of_bare_eq _ hbare))

end Draft

/-! ## Workspaces -/

/-- **Inline types are declarations.**  Let a file be changed such that a field refers to its
    inline type by the name that promotion gives it, and the namespace of its message declares
    the same list of values under that name, at any place.  If the build of the file succeeded, it
    succeeds again, and each file binds each name to the same entity, lines and notes apart,
    by itself and with all that it imports. -/
theorem Workspace.gives_of_declaredApart {w v : Workspace} (hw : w.Fresh) (hv : v.Fresh)
    (h : w.Related Draft.DeclaredApart v) {p : String} {lib : Library} (hlib : w.Gives p lib) :
    ∃ lib', v.Gives p lib' ∧ ∀ f q,
      ((lib'.find? f).bind (·.own? q)).map (Model.Entity.relabel (Origin.bare fun _ => 0)) =
        ((lib.find? f).bind (·.own? q)).map (Model.Entity.relabel (Origin.bare fun _ => 0)) ∧
      (lib'.lookup? f q).map (Model.Entity.relabel (Origin.bare fun _ => 0)) =
        (lib.lookup? f q).map (Model.Entity.relabel (Origin.bare fun _ => 0)) := by
  have hlike := Namespace.likeness_declaredApart
  have hlike' := Namespace.likeness_reordered
  have hrelated : w.Related (Draft.Related _) v :=
    ⟨h.drafts.imp fun _ _ => Draft.DeclaredApart.related, h.registry, h.extension⟩
  obtain ⟨lib', hlib', hmirrors, -⟩ := hrelated.gives (g := Origin.bare fun _ => 0)
    (hlike.comp (hlike'.comp (Namespace.likeness_alike _)))
    (fun hmn => by
      obtain ⟨x, hmx, hxn⟩ := hmn.split hlike
      obtain ⟨y, hxy, hyn⟩ := hxn.split hlike'
      exact ((hmx.mirrors_declaredApart _).trans (hxy.mirrors_reordered _)).trans
        (hyn.mirrors_alike _))
    hw.asRead hv.asRead hlib
  exact ⟨lib', hlib', hmirrors.entities⟩

/-! ## A list in an array in a map -/

/-- A workspace with one file. -/
def Workspace.alone (d : Draft) : Workspace := ⟨[d], Table.empty.insert d.file 0, ".def", []⟩

theorem Workspace.fresh_alone {d : Draft} {text : String} (h : read d.file text = .ok d) :
    (alone d).Fresh := by
  intro p id hp
  have hp : (Table.empty.insert d.file 0).find? p = some id := hp
  rw [Table.find?_insert] at hp
  split at hp
  · next hfile =>
    cases hp
    exact ⟨text, d, hfile ▸ h, rfl⟩
  · cases hp

namespace Draft

/-- A field whose type lists values, inside an array inside a map. -/
def Field.inPlace : Field :=
  ⟨"f",
    .map (.primitive .string)
    (.array (.inline .closed [⟨.none, "A", some 5, 1⟩, ⟨.none, "B", none, 1⟩])), [], none,
    ⟨.none, "/a.def", 1, "n"⟩⟩

/-- A namespace of a file, with one message. -/
def ofNamespace (f : Field) (enums : List Enumeration) : Draft :=
  ⟨"/a.def", "a", { children := [0] }, [⟨.none, "n", none, none, "/a.def", 1,
    { messages := [⟨"M", none, [f], f.origin⟩], enums }⟩], [], .empty⟩

/-- A draft whose one field has an inline type. -/
def inPlace : Draft := ofNamespace .inPlace []

/-- The same with the type declared apart. -/
def referring : Draft :=
  ofNamespace (Field.inPlace.named "M")
    [⟨"M_f", none, .closed,
    [⟨"A", 5, true, Field.inPlace.origin⟩, ⟨"B", 6, false, Field.inPlace.origin⟩],
    Field.inPlace.origin⟩]

theorem declaredApart_inPlace : inPlace.DeclaredApart referring := by
  have hscope :
      Scope.DeclaredApart "n" { messages := [⟨"M", none, [.inPlace], Field.inPlace.origin⟩] } _ :=
    @Scope.DeclaredApart.intro _ _ [] _ [] [] _ [] _ _ _ rfl rfl rfl rfl rfl
  have hrefl : ∀ s : Scope, s.Reordered s := fun _ => ⟨.refl _, .refl _, .refl _, .refl _, rfl⟩
  exact ⟨referring, referring, .inl rfl, .cons (.inr ⟨hscope, rfl⟩) .nil, rfl,
    ⟨hrefl _, forall₂_same.2 fun _ _ => ⟨hrefl _, rfl⟩, rfl⟩, rfl⟩

theorem read_inPlace :
    read "/a.def" "namespace n\x7bmessage M\x7bf:Map<string,enum\x7bA=5 B\x7d[]>\x7d\x7d" =
      .ok inPlace :=
  by decide +kernel

theorem read_referring :
    read "/a.def" "namespace n\x7benum M_f\x7bA=5 B\x7dmessage M\x7bf:Map<string,M_f[]>\x7d\x7d" =
      .ok referring := by
  decide +kernel

end Draft

/-- The library that the build of a file gives. -/
def Workspace.library? (w : Workspace) (p : String) : Option Library :=
  match w.refineAll with
  | (_, .error _) => none
  | (w', .ok _) => (w'.draftAt? p).bind fun d =>
    match Build.run w' .empty d with
    | (lib, _, .ok _) => some lib
    | _ => none

theorem Workspace.exists_gives {w : Workspace} {p : String} {α : Type} {view : Library → α} {a : α}
    (h : (w.library? p).map view = some a) : ∃ lib, w.Gives p lib ∧ view lib = a := by
  obtain ⟨lib, hlib, hview⟩ := Option.map_eq_some_iff.1 h
  refine ⟨lib, ?_, hview⟩
  unfold library? at hlib
  split at hlib
  · cases hlib
  · next hall =>
    obtain ⟨d, hd, hlib⟩ := Option.bind_eq_some_iff.1 hlib
    split at hlib
    · next hrun =>
      cases hlib
      exact ⟨_, _, d, _, hall, hd, hrun⟩
    · cases hlib

theorem Workspace.gives_of_declaredApart_inPlace : ∃ lib lib', (alone .inPlace).Gives "/a.def" lib ∧
    (alone .referring).Gives "/a.def" lib' ∧
    (lib.enumeration? "/a.def" "a::n::M_f").map
      (fun e => e.values.map fun v => (v.name, v.number)) =
      some [("A", 5), ("B", 6)] ∧
    ∀ f q, (lib'.lookup? f q).map (Model.Entity.relabel (Origin.bare fun _ => 0)) =
      (lib.lookup? f q).map (Model.Entity.relabel (Origin.bare fun _ => 0)) := by
  have hvalues : ((alone .inPlace).library? "/a.def").map (fun lib =>
      (lib.enumeration? "/a.def" "a::n::M_f").map fun e => e.values.map fun v =>
        (v.name, v.number)) = some (some [("A", 5), ("B", 6)]) := by decide +kernel
  have hrelated : (alone .inPlace).Related DeclaredApart (alone .referring) :=
    ⟨.cons declaredApart_inPlace .nil, rfl, rfl⟩
  have hinPlace : (alone .inPlace).Fresh := fresh_alone read_inPlace
  have hreferring : (alone .referring).Fresh := fresh_alone read_referring
  obtain ⟨lib, hlib, hvalues⟩ := exists_gives hvalues
  obtain ⟨lib', hlib', hsame⟩ := gives_of_declaredApart hinPlace hreferring hrelated hlib
  exact ⟨lib, lib', hlib, hlib', hvalues, fun f q => (hsame f q).2⟩

end MessageSchema
