/-
  Walks along the links of a draft.

  In a threaded draft the walk and the links lead through the same namespaces: what
  the walk has around it is what is met along the links (`Chain`).  So the links have
  no loops, and no walk goes deeper than there are namespaces.
-/
import MessageSchema.Proofs.Threads
import Mathlib.Data.List.Perm.Subperm
import Mathlib.Logic.Relation

namespace MessageSchema.Draft

open List

variable {arena : List Namespace} {p : Option Nat} {is : List Nat} {d : Draft}
  {around : List Site} {cs : List Nat} {e : Draft}

/-! ## Walks along the links -/

/-- The index of the namespace around one, as that one knows it. -/
def IsParent (d : Draft) (p i : Nat) : Prop :=
  ∃ ns : Namespace, d.arena[i]? = some ns ∧ ns.parent = some p

/-- What is met along the links to the namespaces around, innermost first. -/
inductive Chain (arena : List Namespace) : Option Nat → List Nat → Prop
  | nil : Chain arena none []
  | cons {i : Nat} {ns : Namespace} {is : List Nat} : arena[i]? = some ns →
    Chain arena ns.parent is → Chain arena (some i) (i :: is)

variable {i n : Nat} {v : Visit}

theorem Chain.unique {js : List Nat} (h : Chain arena p is) (h' : Chain arena p js) : is = js := by
  induction h generalizing js with
  | nil => cases h'; rfl
  | cons hns _ ih =>
    cases h' with
    | cons hns' h' =>
      cases hns.symm.trans hns'
      rw [ih h']

theorem Chain.exists_suffix (h : Chain arena p is) (hi : i ∈ is) :
    ∃ js, Chain arena (some i) js ∧ js.length ≤ is.length := by
  induction h with
  | nil => cases hi
  | @cons k ns is hns hchain ih =>
    rcases mem_cons.1 hi with rfl | hi
    · exact ⟨_, .cons hns hchain, le_rfl⟩
    · obtain ⟨js, hjs, hle⟩ := ih hi
      exact ⟨js, hjs, hle.trans (Nat.le_succ _)⟩

theorem Chain.nodup (h : Chain arena p is) : is.Nodup := by
  induction h with
  | nil => exact nodup_nil
  | @cons i ns is hns hchain ih =>
    refine nodup_cons.2 ⟨fun hi => ?_, ih⟩
    obtain ⟨js, hjs, hle⟩ := hchain.exists_suffix hi
    rw [← (Chain.cons hns hchain).unique hjs, length_cons] at hle
    omega

theorem Chain.length_le (h : Chain arena p is) : is.length ≤ arena.length := by
  have hlt : ∀ i ∈ is, i < arena.length := by
    induction h with
    | nil => simp
    | cons hns _ ih =>
      exact forall_mem_cons.2 ⟨(List.getElem?_eq_some_iff.1 hns).1, ih⟩
  have hsub : is.Subperm (List.range arena.length) :=
    subperm_of_subset h.nodup fun i hi => mem_range.2 (hlt i hi)
  simpa using hsub.length_le

/-- Children whose links lead through the namespaces `around`. -/
def HangsIn (arena : List Namespace) (around : List Site) (cs : List Nat) : Prop :=
  ∀ i ∈ cs, ∃ ns : Namespace, arena[i]? = some ns ∧ Chain arena ns.parent (around.map (·.index))

theorem HangsIn.inside (h : d.Threaded) (hcs : HangsIn d.arena around cs) {i : Nat} (hi : i ∈ cs)
    {ns : Namespace} (hns : d.arena[i]? = some ns) :
    HangsIn d.arena (siteIn around i ns :: around) ns.scope.children := by
  intro j hj
  obtain ⟨ns', hns', hchain⟩ := hcs i hi
  cases hns.symm.trans hns'
  obtain ⟨x, hx, hparent⟩ := h.inner hns j hj
  exact ⟨x, hx, hparent ▸ .cons hns hchain⟩

theorem Threaded.hangsIn_top (h : d.Threaded) : HangsIn d.arena [] d.top.children := by
  intro i hi
  obtain ⟨ns, hns, hparent⟩ := h.outer i hi
  exact ⟨ns, hns, hparent ▸ .nil⟩

theorem Threaded.chain_of_mem_visitsFrom (h : d.Threaded) (hcs : HangsIn d.arena around cs)
    (hv : v ∈ visitsFrom d.arena n around cs) :
    Chain d.arena v.site.ns.parent (v.around.map (·.index)) := by
  induction n generalizing around cs with
  | zero => cases hv
  | succ n ih =>
    obtain ⟨i, hi, ns, hns, rfl | hv⟩ := mem_visitsFrom_succ.1 hv
    · obtain ⟨ns', hns', hchain⟩ := hcs i hi
      cases hns.symm.trans hns'
      exact hchain
    · exact ih (hcs.inside h hi hns) hv

/-- **A walk has around it what the links lead through.** -/
theorem Threaded.chain (h : d.Threaded) (hv : v ∈ d.walk) :
    Chain d.arena v.site.ns.parent (v.around.map (·.index)) :=
  h.chain_of_mem_visitsFrom h.hangsIn_top hv

theorem Threaded.visitsFrom_succ (h : d.Threaded) (hcs : HangsIn d.arena around cs)
    (hn : d.arena.length ≤ around.length + n) :
    visitsFrom d.arena (n + 1) around cs = visitsFrom d.arena n around cs := by
  induction n generalizing around cs with
  | zero =>
    have hnil : cs = [] := by
      refine eq_nil_iff_forall_not_mem.2 fun i hi => ?_
      obtain ⟨ns, hns, hchain⟩ := hcs i hi
      have hle := (Chain.cons hns hchain).length_le
      rw [length_cons, length_map] at hle
      omega
    rw [hnil]
    rfl
  | succ n ih =>
    rw [visitsFrom, visitsFrom]
    refine flatMap_congr fun i hi => ?_
    obtain ⟨ns, hns, -⟩ := hcs i hi
    have hinside := ih (hcs.inside h hi hns) (by rw [length_cons]; omega)
    rw [siteIn] at hinside
    simp only [hns, hinside]

/-- **The walk ends by itself**: no bound on its depth cuts it short. -/
theorem Threaded.visitsFrom_eq_walk (h : d.Threaded) (hn : d.arena.length ≤ n) :
    visitsFrom d.arena n [] d.top.children = d.walk := by
  induction n, hn using Nat.le_induction with
  | base => rfl
  | succ n hn ih =>
    rw [← ih]
    exact h.visitsFrom_succ h.hangsIn_top (by rw [length_nil, Nat.zero_add]; exact hn)

theorem exists_chain_of_transGen {p : Nat} (h : Relation.TransGen d.IsParent p i)
    (hi : Chain d.arena (some i) is) : ∃ js, Chain d.arena (some p) js ∧ js.length < is.length := by
  have hstep : ∀ {p i : Nat} {is : List Nat}, d.IsParent p i → Chain d.arena (some i) is →
      ∃ js, Chain d.arena (some p) js ∧ js.length < is.length := by
    rintro p i is ⟨ns, hns, hp⟩ hi
    cases hi with
    | cons hns' hchain =>
      cases hns.symm.trans hns'
      exact ⟨_, hp ▸ hchain, Nat.lt_succ_self _⟩
  induction h using Relation.TransGen.head_induction_on with
  | single hp => exact hstep hp hi
  | head hp _ ih =>
    obtain ⟨js, hjs, hlt⟩ := ih
    obtain ⟨ks, hks, hlt'⟩ := hstep hp hjs
    exact ⟨ks, hks, hlt'.trans hlt⟩

/-- **The links have no loops.** -/
theorem Threaded.acyclic (h : d.Threaded) (hd : d.Covered) (i : Nat) :
    ¬ Relation.TransGen d.IsParent i i := by
  intro hloop
  obtain ⟨p, -, ns, hns, -⟩ := Relation.TransGen.tail'_iff.1 hloop
  obtain ⟨v, hv, rfl, rfl⟩ := hd.exists_visit hns
  have hchain := Chain.cons hns (h.chain hv)
  obtain ⟨js, hjs, hlt⟩ := exists_chain_of_transGen hloop hchain
  rw [hchain.unique hjs] at hlt
  exact absurd hlt (lt_irrefl _)

/-! ## What can be reached -/

/-- The declarations that a walk through a draft meets. -/
def reached (d : Draft) : List (EntityKind × String × String × Nat) :=
  d.top.headings ++ d.walk.flatMap fun v => v.site.ns.scope.headings

/-- The namespaces that a walk through a draft meets. -/
def reachedNamespaces (d : Draft) : List (String × String × Nat) :=
  d.walk.map fun v => (v.site.ns.name, v.site.ns.file, v.site.ns.line)

/-- All that can be reached in `d` can be reached in `e`. -/
structure Outlives (d e : Draft) : Prop where
  declarations : d.reached.Subperm e.reached
  namespaces : d.reachedNamespaces.Subperm e.reachedNamespaces

theorem Outlives.refl (d : Draft) : d.Outlives d := ⟨List.Subperm.refl _, List.Subperm.refl _⟩

theorem Outlives.trans {c : Draft} (h : c.Outlives d) (h' : d.Outlives e) : c.Outlives e :=
  ⟨h.declarations.trans h'.declarations, h.namespaces.trans h'.namespaces⟩

theorem Covered.walk_perm (h : d.Covered) {β : Type} (f : Namespace → β) :
    (d.walk.map fun v => f v.site.ns).Perm (d.arena.map f) := by
  refine (h.mapIdx_perm fun _ ns => f ns).symm.trans (Perm.of_eq ?_)
  refine ext_getElem? fun i => ?_
  rw [getElem?_mapIdx, getElem?_map]

theorem Covered.reached_perm (h : d.Covered) :
    d.reached.Perm (d.top.headings ++ d.arena.flatMap fun ns => ns.scope.headings) := by
  refine Perm.append_left _ ?_
  rw [flatMap_def, flatMap_def]
  exact (h.walk_perm fun ns => ns.scope.headings).flatten

theorem outlives_of_arena (hd : d.Covered) (he : e.Covered)
    (hdeclarations : (d.top.headings ++ d.arena.flatMap fun ns => ns.scope.headings).Subperm
      (e.top.headings ++ e.arena.flatMap fun ns => ns.scope.headings))
    (hnamespaces : (d.arena.map fun ns => (ns.name, ns.file, ns.line)).Subperm
      (e.arena.map fun ns => (ns.name, ns.file, ns.line))) : d.Outlives e := by
  refine ⟨hd.reached_perm.subperm_right.2 (he.reached_perm.subperm_left.2 hdeclarations), ?_⟩
  have hd' := hd.walk_perm fun ns => (ns.name, ns.file, ns.line)
  have he' := he.walk_perm fun ns => (ns.name, ns.file, ns.line)
  exact hd'.subperm_right.2 (he'.subperm_left.2 hnamespaces)

theorem Grows.outlives (h : d.Grows e) (hd : d.Covered) (he : e.Covered) : d.Outlives e := by
  have hplaces : ∀ {a b : List Namespace}, Forall₂ Namespace.Grows a b →
      (a.map fun ns => (ns.name, ns.file, ns.line)) = b.map fun ns =>
      (ns.name, ns.file, ns.line) := by
    intro a b hall
    induction hall with
    | nil => rfl
    | cons hxy _ ih => exact congrArg₂ cons hxy.place.symm ih
  have hheadings : ∀ {a b : List Namespace}, Forall₂ Namespace.Grows a b →
      (a.flatMap fun ns => ns.scope.headings).Sublist (b.flatMap fun ns => ns.scope.headings) := by
    intro a b hall
    induction hall with
    | nil => exact Sublist.refl _
    | cons hxy _ ih => exact hxy.headings.append ih
  exact outlives_of_arena hd he (h.headings.append (hheadings h.arena)).subperm
    (hplaces h.arena ▸ List.Subperm.refl _)

theorem outlives_wrap (h : d.Orderly) : d.Outlives d.wrap := by
  by_cases hwrapped : d.isWrapped = true
  · rw [wrap, if_pos hwrapped]
    exact .refl d
  refine outlives_of_arena h.covered h.wrap.covered ?_ ?_
  · rw [wrap, if_neg hwrapped]
    have hscopes :
        ((adopt d.arena.length d.top.children d.arena).flatMap fun ns => ns.scope.headings) =
        d.arena.flatMap fun ns => ns.scope.headings := by
      rw [flatMap_def, flatMap_def, map_adopt fun _ _ => rfl]
    simp only [flatMap_append, hscopes, flatMap_cons, flatMap_nil, append_nil,
      Scope.headings_moveTo]
    exact perm_append_comm.subperm
  · rw [wrap, if_neg hwrapped]
    rw [map_append, map_adopt fun _ _ => rfl]
    exact (sublist_append_left _ _).subperm

/-- **Passes lose nothing**, however they end. -/
theorem outlives_run (h : d.Orderly) {p : Pass} (hp : p ∈ Pass.multi) (w : Workspace) :
    d.Outlives (p.run w d).1 := by
  rcases wrap_or_grows hp w d with heq | hgrows
  · rw [heq]
    exact outlives_wrap h
  · exact hgrows.outlives h.covered (orderly_run h hp w).covered

/-! ## States that passes lead to -/

/-- Passes lead from `d` to `e`: any, in any order and in any workspaces, even such as
    break down. -/
def Becomes : Draft → Draft → Prop :=
  Relation.ReflTransGen fun d e => ∃ w p, p ∈ Pass.multi ∧ e = (p.run w d).1

theorem Arises.becomes (h : d.Arises) (hbecomes : d.Becomes e) : e.Arises := by
  induction hbecomes with
  | refl => exact h
  | tail _ hstep ih =>
    obtain ⟨w, p, hp, rfl⟩ := hstep
    exact .run w ih hp

theorem Arises.threaded (h : d.Arises) : d.Threaded := by
  induction h with
  | read h => exact threaded_read h
  | run w _ hp ih => exact threaded_run ih hp w

theorem Arises.outlives (h : d.Arises) (hbecomes : d.Becomes e) : d.Outlives e := by
  induction hbecomes with
  | refl => exact .refl d
  | tail hbefore hstep ih =>
    obtain ⟨w, p, hp, rfl⟩ := hstep
    exact ih.trans (outlives_run (h.becomes hbefore).orderly hp w)

/-- **The namespaces of a draft hang together**, as it is read from any text and in every
    state that any passes lead to.  Each index is listed once in all, and is one of the
    arena; what is listed knows what is around it; the links have no loops.  Hence the
    walk ends however deep it may go, meets every namespace once, and has around it what
    the links lead through; and what can be reached once can be reached ever after. -/
theorem threaded_of_becomes {file text : String} {raw : Draft}
    (hread : Draft.read file text = .ok raw) {d : Draft} (hd : raw.Becomes d) :
    d.Threaded ∧ (∀ i, ¬ Relation.TransGen d.IsParent i i) ∧
    (∀ n, d.arena.length ≤ n → visitsFrom d.arena n [] d.top.children = d.walk) ∧
    (d.walk.map (·.site.index)).Perm (List.range d.arena.length) ∧
    (∀ v ∈ d.walk, Chain d.arena v.site.ns.parent (v.around.map (·.index))) ∧
    ∀ e, d.Becomes e → d.Outlives e := by
  have harises : d.Arises := (Arises.read hread).becomes hd
  have hthreaded := harises.threaded
  have hcovered := harises.orderly.covered
  exact ⟨hthreaded, hthreaded.acyclic hcovered, fun n hn => hthreaded.visitsFrom_eq_walk hn,
    hcovered, fun v hv => hthreaded.chain hv, fun e he => harises.outlives he⟩

theorem threaded_of_becomes_nested : ∃ raw,
    Draft.read "/a.def" "namespace N\x7bnamespace O\x7b\x7d\x7d message M\x7b\x7d" = .ok raw ∧
    raw.Becomes raw.wrap ∧ threads raw.arena = [(none, [1]), (some 0, [])] ∧
    threads raw.wrap.arena = [(some 2, [1]), (some 0, []), (none, [0])] ∧
    raw.wrap.walk.map (fun v => v.site.index :: v.around.map (·.index)) = [[2], [0, 2], [1, 0, 2]] ∧
    raw.wrap.Threaded ∧ (∀ i, ¬ Relation.TransGen raw.wrap.IsParent i i) ∧
    visitsFrom raw.wrap.arena 100 [] raw.wrap.top.children = raw.wrap.walk ∧
    (∀ v ∈ raw.wrap.walk, Chain raw.wrap.arena v.site.ns.parent (v.around.map (·.index))) ∧
    raw.Outlives raw.wrap := by
  have hall :
    (Draft.read "/a.def" "namespace N\x7bnamespace O\x7b\x7d\x7d message M\x7b\x7d").toOption.map
      (fun raw => (threads raw.arena, threads raw.wrap.arena,
        raw.wrap.walk.map fun v => v.site.index :: v.around.map (·.index))) =
      some ([(none, [1]), (some 0, [])], [(some 2, [1]), (some 0, []), (none, [0])],
        [[2], [0, 2], [1, 0, 2]]) := by
    decide +kernel
  obtain ⟨raw, hread, hall⟩ := exists_of_map_toOption hall
  simp only [Prod.mk.injEq] at hall
  obtain ⟨hbefore, hafter, hwalk⟩ := hall
  have hbecomes : raw.Becomes raw.wrap := .single ⟨.empty ".def", .wrap, mem_cons_self, rfl⟩
  have hlength : raw.wrap.arena.length = 3 := by simpa [threads] using congrArg List.length hafter
  obtain ⟨hthreaded, hacyclic, hends, -, hchain, -⟩ := threaded_of_becomes hread hbecomes
  obtain ⟨-, -, -, -, -, hreached⟩ := threaded_of_becomes hread .refl
  exact ⟨raw, hread, hbecomes, hbefore, hafter, hwalk, hthreaded, hacyclic, hends 100 (by omega),
    hchain, hreached _ hbecomes⟩

end MessageSchema.Draft
