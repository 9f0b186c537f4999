/-
  Full qualified names of imported declarations.

  A name with colons that nothing in the file matches is looked up in the imports
  without local names, one after the other, and in each of them first as a full
  qualified name and then inside the file-level namespace.  So a full qualified name
  finds its own declaration unless an earlier import has, inside its file-level
  namespace, something of that name.
-/
import MessageSchema.Proofs.Mentions
import MessageSchema.Proofs.Scoping

namespace MessageSchema.Draft

open List QualifiedName Surroundings Draft

/-- The full qualified names of what a file declares. -/
inductive Owns (x : Draft) : String → Prop
  | top {name : String} : x.top.Declares name → Owns x name
  | inside {i : Nat} {ns : Namespace} {outer : List Namespace} {name : String} :
      Nested x.arena (some i) (ns :: outer) → ns.scope.Declares name →
      Owns x (join (qualifiedNameOf (ns :: outer)) name)

/-- A name taken inside the file-level namespace of a file, if it has one. -/
def inward (x : Draft) (name : String) : String :=
  join (x.rootIndex?.map fun _ => x.stem) name

variable {x : Draft} {q name : String} {enclosing : List Namespace}

theorem mem_entities_iff_owns (hthreaded : x.Threaded) (hcovered : x.Covered) :
    q ∈ x.symbols.entities ↔ x.Owns q := by
  have hregion : ∀ v ∈ x.walk, v.site.region.qualified = qualifiedNameOf (v.enclosing.map (·.ns)) :=
    fun v hv => (wellNamed_of_mem_walk hv).1
  simp only [Symbols.entities, symbols, flatMap_cons, Region.entities, mem_append, mem_flatMap,
    mem_map, join]
  constructor
  · rintro (⟨name, hname, rfl⟩ | ⟨r, ⟨site, ⟨v, hv, rfl⟩, rfl⟩, name, hname, rfl⟩)
    · exact .top (Scope.mem_declared.1 hname)
    · have howns := Owns.inside (hthreaded.nested hv) (Scope.mem_declared.1 hname)
      rwa [← map_cons, ← Visit.enclosing, ← hregion v hv] at howns
  · intro h
    cases h with
    | top hname => exact .inl ⟨q, Scope.mem_declared.2 hname, rfl⟩
    | @inside i ns outer name hnested hname =>
      have hns : x.arena[i]? = some ns := by
        cases hnested with
        | cons hns _ => exact hns
      obtain ⟨v, hv, rfl, rfl⟩ := hcovered.exists_visit hns
      refine .inr ⟨_, ⟨_, ⟨v, hv, rfl⟩, rfl⟩, name, Scope.mem_declared.2 hname, ?_⟩
      have houter : v.enclosing.map (·.ns) = v.site.ns :: outer :=
        (hthreaded.nested hv).unique hnested
      rw [hregion v hv, houter]
      rfl

theorem join_root (x : Draft) (name : String) :
    join x.symbols.root.qualified name = x.inward name := by
  rw [inward]
  cases h : x.rootIndex? with
  | none => rw [root_of_rootIndex?_none h]; rfl
  | some i =>
    obtain ⟨ns, -, hroot⟩ := root_of_rootIndex? h
    rw [hroot]
    rfl

/-! ## Names with colons -/

theorem map_join_regionsOf_subset
    (h : q ∈ ((regionsOf enclosing).map fun r => join r.qualified name) ++ [name]) :
    ∃ outer, outer <:+ enclosing ∧ q = join (qualifiedNameOf outer) name := by
  induction enclosing with
  | nil => exact ⟨[], suffix_refl _, mem_singleton.1 h⟩
  | cons ns outer ih =>
    rw [regionsOf, map_cons, cons_append] at h
    rcases mem_cons.1 h with rfl | h
    · exact ⟨ns :: outer, suffix_refl _, rfl⟩
    · obtain ⟨rest, hrest, hq⟩ := ih h
      exact ⟨rest, hrest.trans (suffix_cons _ _), hq⟩

theorem resolve_of_unmatched {d : Draft} {imports : List (String × Draft)} (hthreaded : d.Threaded)
    (hcovered : d.Covered)
    (hqualified : isQualified name = true)
    (hlocal : ∀ j ∈ d.imports, j.localName ≠ some (head name))
    (hown : ∀ outer, outer <:+ enclosing → ¬ d.Owns (join (qualifiedNameOf outer) name)) :
    (d.surroundings imports).resolve (regionsOf enclosing) ⟨name, false⟩ =
      match (d.unaliased imports).findSome? fun x => lookupImported x.symbols name with
      | some q => ⟨q, true⟩
      | none => ⟨name, false⟩ := by
  have hnamed : ((d.surroundings imports).named.find? fun i => i.localName = head name) = none := by
    refine find?_eq_none.2 fun i hi heq => ?_
    obtain ⟨-, -, -, j, hj, hname⟩ := exists_of_mem_named hi
    exact hlocal j hj (hname.trans (congrArg some (by simpa using heq)))
  have hfile : (((regionsOf enclosing).map fun r => join r.qualified name) ++ [name]).find?
      (d.surroundings imports).own.entities.contains = none := by
    refine find?_eq_none.2 fun q hq hmem => ?_
    obtain ⟨outer, houter, rfl⟩ := map_join_regionsOf_subset hq
    exact hown outer houter ((mem_entities_iff_owns hthreaded hcovered).1 (contains_iff_mem.1 hmem))
  rw [Surroundings.resolve, if_neg Bool.false_ne_true, Surroundings.lookup, if_pos hqualified,
    lookupQualified]
  simp only [hnamed, hfile, plain_surroundings, findSome?_map, Function.comp_def]
  rfl

theorem lookupImported_cases (hthreaded : x.Threaded) (hcovered : x.Covered) (name : String) :
    (x.Owns name ∧ lookupImported x.symbols name = some name) ∨
    (¬ x.Owns name ∧ x.Owns (x.inward name) ∧
      lookupImported x.symbols name = some (x.inward name)) ∨
    (¬ x.Owns name ∧ ¬ x.Owns (x.inward name) ∧ lookupImported x.symbols name = none) := by
  have howns : ∀ q, x.symbols.entities.contains q = true ↔ x.Owns q :=
    fun q => contains_iff_mem.trans (mem_entities_iff_owns hthreaded hcovered)
  simp only [lookupImported, join_root]
  split
  · next h => exact .inl ⟨(howns name).1 h, rfl⟩
  · next h =>
    have hname : ¬ x.Owns name := fun h' => h ((howns name).2 h')
    split
    · next h' => exact .inr (.inl ⟨hname, (howns _).1 h', rfl⟩)
    · next h' => exact .inr (.inr ⟨hname, fun h'' => h' ((howns _).2 h''), rfl⟩)

section
variable {us : List Draft} (hus : ∀ x ∈ us, x.Threaded ∧ x.Covered) {name : String}
include hus

theorem exists_findSome?_lookupImported (howner : ∃ x ∈ us, x.Owns name) :
    ∃ before x after, us = before ++ x :: after ∧
      (∀ y ∈ before, ¬ y.Owns name ∧ ¬ y.Owns (y.inward name)) ∧
      ((x.Owns name ∧ (us.findSome? fun x => lookupImported x.symbols name) = some name) ∨
        (¬ x.Owns name ∧ x.Owns (x.inward name) ∧
          (us.findSome? fun x => lookupImported x.symbols name) = some (x.inward name))) := by
  cases hfind : us.findSome? fun x => lookupImported x.symbols name with
  | none =>
    obtain ⟨x, hx, howns⟩ := howner
    have hnone := findSome?_eq_none_iff.1 hfind x hx
    rcases lookupImported_cases (hus x hx).1 (hus x hx).2 name with ⟨-, h⟩ | ⟨hnot, -⟩ | ⟨hnot, -⟩
    · cases h.symm.trans hnone
    · exact absurd howns hnot
    · exact absurd howns hnot
  | some q =>
    obtain ⟨before, x, after, rfl, hx, hbefore⟩ := findSome?_eq_some_iff.1 hfind
    refine ⟨before, x, after, rfl, fun y hy => ?_, ?_⟩
    · obtain ⟨hthreaded, hcovered⟩ := hus y (mem_append_left _ hy)
      rcases lookupImported_cases hthreaded hcovered name with ⟨-, h⟩ | ⟨-, -,
        h⟩ | ⟨hname, hinward, -⟩
      · cases h.symm.trans (hbefore y hy)
      · cases h.symm.trans (hbefore y hy)
      · exact ⟨hname, hinward⟩
    · obtain ⟨hthreaded, hcovered⟩ := hus x (mem_append_right _ mem_cons_self)
      rcases lookupImported_cases hthreaded hcovered name with ⟨hname, h⟩ | ⟨hname, hinward,
        h⟩ | ⟨-, -, h⟩
      · cases h.symm.trans hx
        exact .inl ⟨hname, rfl⟩
      · cases h.symm.trans hx
        exact .inr ⟨hname, hinward, rfl⟩
      · cases h.symm.trans hx

theorem findSome?_lookupImported_eq_self {before after : List Draft} {x : Draft}
    (heq : us = before ++ x :: after) (hx : x.Owns name)
    (hbefore : ∀ y ∈ before, ¬ y.Owns (y.inward name)) :
    (us.findSome? fun x => lookupImported x.symbols name) = some name := by
  subst heq
  rw [findSome?_append]
  cases hfind : before.findSome? fun x => lookupImported x.symbols name with
  | some q =>
    obtain ⟨y, hy, hq⟩ := exists_of_findSome?_eq_some hfind
    obtain ⟨hthreaded, hcovered⟩ := hus y (mem_append_left _ hy)
    rcases lookupImported_cases hthreaded hcovered name with ⟨-, h⟩ | ⟨-, hinward, -⟩ | ⟨-, -, h⟩
    · cases h.symm.trans hq
      rfl
    · exact absurd hinward (hbefore y hy)
    · cases h.symm.trans hq
  | none =>
    obtain ⟨hthreaded, hcovered⟩ := hus x (mem_append_right _ mem_cons_self)
    rcases lookupImported_cases hthreaded hcovered name with ⟨-, h⟩ | ⟨hnot, -⟩ | ⟨hnot, -⟩
    · rw [findSome?_cons, h]
      rfl
    · exact absurd hx hnot
    · exact absurd hx hnot

end

/-! ## Resolution -/

/-- **When a full qualified name of an import stands for itself.**  Let a name with colons be
    the full qualified name of a declaration of some import without a local name, start with
    no local name, and match nothing in the file, neither as it is nor inside a namespace
    around it.  Resolution lets it stand for that declaration just if no import before the
    first that owns it has something of that name inside its file-level namespace; if one
    has, the name stands for what the first such one has. -/
theorem resolve_absolute_iff {d : Draft} (hthreaded : d.Threaded) (hcovered : d.Covered)
    (hwrapped : d.isWrapped = true) {imports : List (String × Draft)}
    (himports : ∀ i ∈ imports, i.2.Threaded ∧ i.2.Covered) :
    ∃ e rename, d.resolve imports = .ok e ∧ d.Renamed rename e ∧ ∀ enclosing name,
      QualifiedName.isQualified name = true →
        (∀ j ∈ d.imports, j.localName ≠ some (QualifiedName.head name)) →
      (∀ outer, outer <:+ enclosing → ¬ d.Owns (QualifiedName.join (qualifiedNameOf outer) name)) →
      (∃ x ∈ d.unaliased imports, x.Owns name) →
      (rename enclosing ⟨name, false⟩ = ⟨name, true⟩ ↔ ∃ before x after,
        d.unaliased imports = before ++ x :: after ∧ x.Owns name ∧
          ∀ y ∈ before, ¬ y.Owns (y.inward name)) ∧
      (rename enclosing ⟨name, false⟩ ≠ ⟨name, true⟩ → ∃ before x after,
        d.unaliased imports = before ++ x :: after ∧
          (∀ y ∈ before, ¬ y.Owns name ∧ ¬ y.Owns (y.inward name)) ∧
        x.Owns (x.inward name) ∧ rename enclosing ⟨name, false⟩ = ⟨x.inward name, true⟩) := by
  obtain ⟨e, he⟩ : ∃ e, d.resolve imports = .ok e := ⟨_, if_pos hwrapped⟩
  have hus : ∀ x ∈ d.unaliased imports, x.Threaded ∧ x.Covered := by
    intro x hx
    obtain ⟨i, hi, rfl⟩ := mem_map.1 hx
    exact himports i (mem_filter.1 hi).1
  refine ⟨e, _, he, renamed_resolve hthreaded hcovered he,
    fun enclosing name hqualified hlocal hown howner => ?_⟩
  simp only [resolve_of_unmatched hthreaded hcovered hqualified hlocal hown]
  obtain ⟨before, x, after, heq, hbefore, ⟨hx, hfind⟩ | ⟨hx, hinward, hfind⟩⟩ :=
    exists_findSome?_lookupImported hus howner
  · rw [hfind]
    exact ⟨iff_of_true rfl ⟨before, x, after, heq, hx, fun y hy => (hbefore y hy).2⟩,
      fun hne => absurd rfl hne⟩
  · rw [hfind]
    refine ⟨⟨fun h => ?_, ?_⟩, fun _ => ⟨before, x, after, heq, hbefore, hinward, rfl⟩⟩
    · -- the import has the name itself, if it is the same inside its file-level namespace
      have hsame : x.inward name = name := (TypeName.mk.inj h).1
      exact absurd (hsame ▸ hinward) hx
    · rintro ⟨before', x', after', heq', hx', hbefore'⟩
      rw [findSome?_lookupImported_eq_self hus heq' hx' hbefore'] at hfind
      exact congrArg (TypeName.mk · true) (Option.some.inj hfind).symm

theorem exists_twins : ∃ a b raw, read "/a.def" "namespace b\x7bmessage X\x7b\x7d\x7d" = .ok a ∧
    read "/b.def" "message X\x7b\x7d" = .ok b ∧ read "/r.def" "message U\x7bx:b::X\x7d" = .ok raw ∧
    raw.wrap.isWrapped = true ∧ raw.wrap.imports = [] ∧ a.wrap.inward "b::X" = "a::b::X" ∧
    (∀ q, a.wrap.Owns q ↔ q = "a::b::X") ∧ (∀ q, b.wrap.Owns q ↔ q = "b::X") ∧
    (∀ q, raw.wrap.Owns q ↔ q = "r::U") ∧ raw.wrap.mentions.map (·.name) = [⟨"b::X", false⟩] ∧
    (raw.wrap.resolve [("a", a.wrap), ("b", b.wrap)]).toOption.map
      (fun e => e.mentions.map (·.name)) =
      some [⟨"a::b::X", true⟩] := by
  have hall : ((read "/a.def" "namespace b\x7bmessage X\x7b\x7d\x7d").toOption.bind fun a =>
      (read "/b.def" "message X\x7b\x7d").toOption.bind fun b =>
      (read "/r.def" "message U\x7bx:b::X\x7d").toOption.map fun raw =>
        decide (raw.wrap.isWrapped = true ∧ raw.wrap.imports = [] ∧
          a.wrap.inward "b::X" = "a::b::X" ∧
          a.wrap.symbols.entities = ["a::b::X"] ∧ b.wrap.symbols.entities = ["b::X"] ∧
          raw.wrap.symbols.entities = ["r::U"] ∧ raw.wrap.mentions.map (·.name) =
          [⟨"b::X", false⟩] ∧
          (raw.wrap.resolve [("a", a.wrap), ("b", b.wrap)]).toOption.map
          (fun e => e.mentions.map (·.name)) =
            some [⟨"a::b::X", true⟩])) = some true := by
    decide +kernel
  simp only [Option.bind_eq_some_iff, Option.map_eq_some_iff, toOption_eq_some_iff] at hall
  obtain ⟨a, ha, b, hb, raw, hraw, hall⟩ := hall
  obtain ⟨hwrapped, himports, hinward, hea, heb, her, hmentions⟩ := of_decide_eq_true hall
  have howns : ∀ {file text : String} {x : Draft} {entity : String}, read file text = .ok x →
      x.wrap.symbols.entities = [entity] → ∀ q, x.wrap.Owns q ↔ q = entity := by
    intro file text x entity hx hentities q
    have harises := Arises.wrap (.read hx)
    rw [← mem_entities_iff_owns harises.threaded harises.orderly.covered, hentities, mem_singleton]
  exact ⟨a, b, raw, ha, hb, hraw, hwrapped, himports, hinward, howns ha hea, howns hb heb,
    howns hraw her, hmentions⟩

/-- With `b` before `a` the name stands for the message of `b`. -/
theorem resolve_absolute_iff_twins : ∃ a b raw e rename,
    Draft.read "/a.def" "namespace b\x7bmessage X\x7b\x7d\x7d" = .ok a ∧
      Draft.read "/b.def" "message X\x7b\x7d" = .ok b ∧
    Draft.read "/r.def" "message U\x7bx:b::X\x7d" = .ok raw ∧
    raw.wrap.resolve [("b", b.wrap), ("a", a.wrap)] = .ok e ∧ raw.wrap.Renamed rename e ∧
    a.wrap.Owns (a.wrap.inward "b::X") ∧
    ∀ enclosing, rename enclosing ⟨"b::X", false⟩ = ⟨"b::X", true⟩ := by
  obtain ⟨a, b, raw, ha, hb, hraw, hwrapped, himports, hinward, hoa, hob, hor, -⟩ := exists_twins
  have harises := Arises.wrap (.read hraw)
  have hcovered : ∀ i ∈ [("b", b.wrap), ("a", a.wrap)], i.2.Threaded ∧ i.2.Covered := by
    have ha' := Arises.wrap (.read ha)
    have hb' := Arises.wrap (.read hb)
    simp only [forall_mem_cons]
    exact ⟨⟨hb'.threaded, hb'.orderly.covered⟩, ⟨ha'.threaded, ha'.orderly.covered⟩, by simp⟩
  have hunaliased : raw.wrap.unaliased [("b", b.wrap), ("a", a.wrap)] =
      [] ++ b.wrap :: [a.wrap] := by
    simp [unaliased, himports]
  have hown : b.wrap.Owns "b::X" := (hob _).2 rfl
  obtain ⟨e, rename, he, hrenamed, hrule⟩ :=
    resolve_absolute_iff harises.threaded harises.orderly.covered hwrapped hcovered
  refine ⟨a, b, raw, e, rename, ha, hb, hraw, he, hrenamed, (hoa _).2 hinward, fun enclosing => ?_⟩
  refine (hrule enclosing "b::X" (by decide +kernel) (by simp [himports]) (fun outer _ howns => ?_)
    ⟨b.wrap, by simp [hunaliased], hown⟩).1.2 ⟨[], b.wrap, [a.wrap], hunaliased, hown, by simp⟩
  -- a name that ends in another letter is not the only one of the file
  have hlast : (join (qualifiedNameOf outer) "b::X").toList.getLast? = some 'X' := by
    unfold join
    split
    · rfl
    · split
      · rfl
      · rw [String.toList_append, getLast?_append]
        rfl
  rw [(hor _).1 howns] at hlast
  exact absurd hlast (by decide)

/-- **The order of imports matters for full qualified names.**  With `a` before `b` the name
    `b::X`, though it is the full qualified name of the message of `b`, starts with no local
    name and matches nothing in the file, stands for the message of `a`. -/
theorem resolve_absolute_captured : ∃ a b raw e,
    Draft.read "/a.def" "namespace b\x7bmessage X\x7b\x7d\x7d" = .ok a ∧
      Draft.read "/b.def" "message X\x7b\x7d" = .ok b ∧
    Draft.read "/r.def" "message U\x7bx:b::X\x7d" = .ok raw ∧ raw.wrap.isWrapped = true ∧
    raw.wrap.resolve [("a", a.wrap), ("b", b.wrap)] = .ok e ∧
    raw.wrap.unaliased [("a", a.wrap), ("b", b.wrap)] = [a.wrap, b.wrap] ∧ b.wrap.Owns "b::X" ∧
    (∀ j ∈ raw.wrap.imports, j.localName ≠ some (QualifiedName.head "b::X")) ∧
    (∀ q, raw.wrap.Owns q → q = "r::U") ∧ raw.wrap.mentions.map (·.name) = [⟨"b::X", false⟩] ∧
    e.mentions.map (·.name) = [⟨"a::b::X", true⟩] := by
  obtain ⟨a, b, raw, ha, hb, hraw, hwrapped, himports, -, -, hob, hor, hbefore, hafter⟩ :=
    exists_twins
  obtain ⟨e, he⟩ : ∃ e, raw.wrap.resolve [("a", a.wrap), ("b", b.wrap)] = .ok e :=
    ⟨_, if_pos hwrapped⟩
  rw [he] at hafter
  exact ⟨a, b, raw, e, ha, hb, hraw, hwrapped, he, by simp [unaliased, himports],
    (hob _).2 rfl, by simp [himports], fun q => (hor q).1, hbefore, Option.some.inj hafter⟩

end MessageSchema.Draft
