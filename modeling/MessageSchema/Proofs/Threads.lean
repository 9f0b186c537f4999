/-
  How the namespaces of a draft hang together.

  A namespace is listed where it stands, by its index, and knows the index of the
  namespace around it.  The two agree, when a text is read and after any passes,
  even such as broke down: every index is listed once, by the namespace that the
  listed one knows (`Threaded`).

  * `Threaded.wrap`: wrapping keeps the two in step;
  * `threaded_read`, `threaded_run`: hence drafts are threaded, as read and after passes.
-/
import MessageSchema.Proofs.Arising

namespace MessageSchema.Draft

open List Scope

variable {p : Option Nat} {d : Draft} {xs : List (Option Nat × List Nat)}

/-- The indices that a file and its namespaces list. -/
def listed (d : Draft) : List Nat := d.top.children ++ (threads d.arena).flatMap Prod.snd

/-- Every namespace is listed once, and what is around it lists it. -/
structure Threaded (d : Draft) : Prop where
  listed : d.listed.Perm (List.range d.arena.length)
  outer : ∀ i ∈ d.top.children, ∃ ns : Namespace, d.arena[i]? = some ns ∧ ns.parent = none
  inner : ∀ {p : Nat} {ns : Namespace}, d.arena[p]? = some ns → ∀ i ∈ ns.scope.children,
    ∃ x : Namespace, d.arena[i]? = some x ∧ x.parent = some p

variable {i : Nat} {e : Draft} {ns : Namespace} {a b : List Namespace}

theorem getElem?_threads {arena : List Namespace} {cs : List Nat} :
    (threads arena)[i]? = some (p, cs) ↔ ∃ ns, arena[i]? = some ns ∧ ns.parent = p ∧
      ns.scope.children = cs := by
  rw [threads, getElem?_map, Option.map_eq_some_iff]
  simp

/-- Links that stay keep a draft threaded. -/
theorem Threaded.congr (h : d.Threaded) (hchildren : e.top.children = d.top.children)
    (hthreads : threads e.arena = threads d.arena) : e.Threaded := by
  have hlength : e.arena.length = d.arena.length := by
    simpa [threads] using congrArg List.length hthreads
  have hparent : ∀ {i : Nat} {p : Option Nat},
      (∃ ns : Namespace, d.arena[i]? = some ns ∧ ns.parent = p) → ∃ ns : Namespace, e.arena[i]? =
      some ns ∧ ns.parent = p := by
    rintro i p ⟨ns, hns, hp⟩
    have hthread : (threads d.arena)[i]? = some (p, ns.scope.children) :=
      getElem?_threads.2 ⟨ns, hns, hp, rfl⟩
    rw [← hthreads] at hthread
    obtain ⟨x, hx, hxp, -⟩ := getElem?_threads.1 hthread
    exact ⟨x, hx, hxp⟩
  refine ⟨?_, fun i hi => hparent (h.outer i (hchildren ▸ hi)), fun {p ns} hns i hi => ?_⟩
  · rw [Draft.listed, hchildren, hthreads, hlength]
    exact h.listed
  · have hthread : (threads e.arena)[p]? = some (ns.parent, ns.scope.children) :=
      getElem?_threads.2 ⟨ns, hns, rfl, rfl⟩
    rw [hthreads] at hthread
    obtain ⟨x, hx, -, hcs⟩ := getElem?_threads.1 hthread
    exact hparent (h.inner hx i (hcs ▸ hi))

/-! ## The layout of a text -/

theorem Laid.perm {k : Nat} {cs : List Nat} (h : Laid p k cs xs) :
    (cs ++ xs.flatMap Prod.snd).Perm (List.range' k xs.length) := by
  induction h with
  | nil => exact .nil
  | @cons p k inside inner cs rest _ _ ihi ihr =>
    rw [length_cons, length_append, range'_succ, ← range'_append_1,
      cons_append, flatMap_cons, flatMap_append]
    refine Perm.cons k (Perm.trans ?_ (ihi.append ihr))
    -- what is inside the first one goes before what is listed beside it
    rw [← append_assoc inside]
    exact perm_append_comm_assoc _ _ _

/-- What is listed knows what is around it. -/
theorem Laid.parents {k : Nat} {cs : List Nat} (h : Laid p k cs xs)
    (before after : List (Option Nat × List Nat)) (hk : before.length = k) :
    (∀ i ∈ cs, ∃ inside, (before ++ xs ++ after)[i]? = some (p, inside)) ∧
    ∀ j x, xs[j]? = some x → ∀ i ∈ x.2, ∃ inside, (before ++ xs ++ after)[i]? =
      some (some (k + j), inside) := by
  induction h generalizing before after with
  | nil => simp
  | @cons p k inside inner cs rest _ _ ihi ihr =>
    have hfirst := ihi (before ++ [(p, inside)]) (rest ++ after) (by simp [hk])
    have hrest := ihr (before ++ (p, inside) :: inner) after (by simp; omega)
    have hall : before ++ [(p, inside)] ++ inner ++ (rest ++ after) =
        before ++ (p, inside) :: (inner ++ rest) ++ after := by simp
    have hall' : before ++ (p, inside) :: inner ++ rest ++ after =
        before ++ (p, inside) :: (inner ++ rest) ++ after := by simp
    rw [hall] at hfirst
    rw [hall'] at hrest
    refine ⟨fun i hi => ?_, fun j x hx i hi => ?_⟩
    · rcases mem_cons.1 hi with rfl | hi
      · exact ⟨inside, by simp [← hk]⟩
      · exact hrest.1 i hi
    · cases j with
      | zero =>
        cases hx
        exact hfirst.1 i hi
      | succ j =>
        rw [getElem?_cons_succ] at hx
        by_cases hj : j < inner.length
        · rw [getElem?_append_left hj] at hx
          rw [show k + (j + 1) = k + 1 + j by omega]
          exact hfirst.2 j x hx i hi
        · rw [getElem?_append_right (by omega)] at hx
          rw [show k + (j + 1) = k + 1 + inner.length + (j - inner.length) by omega]
          exact hrest.2 _ x hx i hi

theorem Laid.threaded (h : Laid none 0 d.top.children (threads d.arena)) : d.Threaded := by
  obtain ⟨houter, hinner⟩ := h.parents [] [] rfl
  simp only [nil_append, append_nil, Nat.zero_add] at houter hinner
  refine ⟨?_, fun i hi => ?_, fun {p ns} hns i hi => ?_⟩
  · have hlength : (threads d.arena).length = d.arena.length := length_map _
    rw [Draft.listed, range_eq_range', ← hlength]
    exact h.perm
  · obtain ⟨inside, hget⟩ := houter i hi
    obtain ⟨ns, hns, hp, -⟩ := getElem?_threads.1 hget
    exact ⟨ns, hns, hp⟩
  · obtain ⟨inside, hget⟩ := hinner p _ (getElem?_threads.2 ⟨ns, hns, rfl, rfl⟩) i hi
    obtain ⟨x, hx, hp, -⟩ := getElem?_threads.1 hget
    exact ⟨x, hx, hp⟩

theorem threaded_read {file text : String} (h : Draft.read file text = .ok d) : d.Threaded :=
  (read_asRead h).1.laid.threaded

/-! ## Wrapping -/

theorem flatMap_threads (arena : List Namespace) :
    (threads arena).flatMap Prod.snd = (arena.map (·.scope.children)).flatten := by
  rw [threads, flatMap_map, flatMap_def]

theorem Threaded.nodup (h : d.Threaded) : d.listed.Nodup := h.listed.nodup_iff.2 nodup_range

theorem Threaded.not_mem_top (h : d.Threaded) {p : Nat} (hns : d.arena[p]? = some ns)
    (hi : i ∈ ns.scope.children) : i ∉ d.top.children := by
  intro htop
  refine (nodup_append.1 h.nodup).2.2 i htop i ?_ rfl
  rw [flatMap_threads, mem_flatten]
  exact ⟨_, mem_map_of_mem (mem_of_getElem? hns), hi⟩

/-- The outermost namespaces get the new one around them. -/
theorem getElem?_adopt (h : d.Threaded) {p : Nat} (hns : d.arena[i]? = some ns) :
    (adopt p d.top.children d.arena)[i]? =
      some (if i ∈ d.top.children then { ns with parent := some p } else ns) := by
  have hnodup : (d.top.children.map fun i : Nat => i).Nodup := by
    rw [map_id']
    exact (nodup_append.1 h.nodup).1
  split
  · next hi =>
    refine (getElem?_modifyAll (fun i : Nat => i)
      (fun _ (ns : Namespace) => { ns with parent := some p }) hnodup hi _).trans ?_
    rw [hns]
    rfl
  · next hi =>
    refine (getElem?_modifyAll_of_not_mem (fun i : Nat => i)
      (fun _ (ns : Namespace) => { ns with parent := some p }) ?_ _).trans hns
    rwa [map_id']

theorem Threaded.wrap (h : d.Threaded) : d.wrap.Threaded := by
  by_cases hwrapped : d.isWrapped = true
  · rwa [Draft.wrap, if_pos hwrapped]
  rw [Draft.wrap, if_neg hwrapped]
  have hlength := length_adopt d.arena.length d.top.children d.arena
  have hbefore : ∀ {i : Nat} {ns : Namespace}, d.arena[i]? = some ns → ∀ root : List Namespace,
      (adopt d.arena.length d.top.children d.arena ++ root)[i]? =
        some (if i ∈ d.top.children then { ns with parent := some d.arena.length } else ns) := by
    intro i ns hns root
    rw [getElem?_append_left (by rw [hlength]; exact (List.getElem?_eq_some_iff.1 hns).1)]
    exact getElem?_adopt h hns
  refine ⟨?_, fun i hi => ?_, fun {p ns} hns i hi => ?_⟩
  · rw [Draft.listed, flatMap_threads, map_append, flatten_append, map_adopt fun _ _ => rfl,
      length_append, hlength]
    simp only [map_cons, map_nil, flatten_cons, flatten_nil, append_nil,
      length_singleton, singleton_append, moveTo, range_succ]
    refine Perm.trans (Perm.cons _ ?_) (perm_append_singleton _ _).symm
    refine perm_append_comm.trans ?_
    rw [← flatMap_threads]
    exact h.listed
  · rw [mem_singleton.1 hi, getElem?_append_right (by rw [hlength]), hlength]
    exact ⟨_, by rw [Nat.sub_self]; rfl, rfl⟩
  · by_cases hp : p < d.arena.length
    -- a namespace that was there before lists what it did
    · have hold := hbefore (getElem?_eq_getElem hp)
      rw [hold] at hns
      have hchildren : ns.scope.children = d.arena[p].scope.children := by
        rw [← Option.some.inj hns]
        split <;> rfl
      rw [hchildren] at hi
      obtain ⟨x, hx, hparent⟩ := h.inner (getElem?_eq_getElem hp) i hi
      refine ⟨x, ?_, hparent⟩
      rw [hbefore hx, if_neg (h.not_mem_top (getElem?_eq_getElem hp) hi)]
    -- the new one lists what the file did
    · rw [getElem?_append_right (by rw [hlength]; omega), hlength, getElem?_singleton] at hns
      split at hns
      · next hzero =>
        cases hns
        obtain rfl : p = d.arena.length := by omega
        have htop : i ∈ d.top.children := hi
        obtain ⟨x, hx, -⟩ := h.outer i htop
        exact ⟨_, by rw [hbefore hx, if_pos htop], rfl⟩
      · cases hns

/-! ## Declarations -/

/-- What passes keep of a declaration: its kind, its name and where it stands. -/
def headingOf (x : Model.Declaration) : EntityKind × String × String × Nat :=
  (x.kind, x.name, x.origin.file, x.origin.line)

/-- The headings of a scope's declarations. -/
def Scope.headings (s : Scope) : List (EntityKind × String × String × Nat) :=
  (Model.declarationsOf s).map headingOf

theorem Scope.headings_mapNames (f : TypeName → TypeName) (s : Scope) :
    (s.mapNames f).headings = s.headings := by
  simp only [headings, Model.declarationsOf, mapNames, map_append, map_map]
  rfl

theorem Scope.headings_moveTo (home : String) (s : Scope) :
    (s.moveTo home).headings = s.headings := by
  simp only [headings, Model.declarationsOf, moveTo, map_append, map_map]
  rfl

/-- Promotion changes the fields of messages only, even if it breaks off. -/
theorem headings_promoteMessages (home : Option String) (ms : List Message) :
    ((promoteMessages home ms).1.map fun m => headingOf (.message m)) = ms.map fun m =>
      headingOf (.message m) := by
  induction ms with
  | nil => rfl
  | cons m ms ih =>
    rw [promoteMessages]
    simp only
    split
    · rfl
    · rw [map_cons, map_cons, ih]
      rfl

theorem Scope.headings_promote (home : Option String) (s : Scope) :
    s.headings.Sublist (s.promote home).1.headings := by
  simp only [headings, Model.declarationsOf, promote, map_append, map_map]
  refine Sublist.append (Sublist.append (Sublist.append ?_ ?_) ?_) (Sublist.refl _)
  · exact (headings_promoteMessages home s.messages).symm ▸ Sublist.refl _
  · exact sublist_append_left _ _
  · exact sublist_append_left _ _

/-! ## Passes other than wrapping -/

/-- A namespace that stays where it is, and may get more declarations. -/
structure Namespace.Grows (x y : Namespace) : Prop where
  place : (y.name, y.file, y.line) = (x.name, x.file, x.line)
  thread : (y.parent, y.scope.children) = (x.parent, x.scope.children)
  headings : x.scope.headings.Sublist y.scope.headings

theorem Namespace.Grows.refl (x : Namespace) : x.Grows x := ⟨rfl, rfl, Sublist.refl _⟩

theorem Namespace.Grows.trans {x y z : Namespace} (h : x.Grows y) (h' : y.Grows z) : x.Grows z :=
  ⟨h'.place.trans h.place, h'.thread.trans h.thread, h.headings.trans h'.headings⟩

/-- A draft whose namespaces stay where they are, and may get more declarations. -/
structure Grows (d e : Draft) : Prop where
  children : e.top.children = d.top.children
  headings : d.top.headings.Sublist e.top.headings
  arena : Forall₂ Namespace.Grows d.arena e.arena

theorem forall₂_grows_refl (arena : List Namespace) : Forall₂ Namespace.Grows arena arena :=
  forall₂_same.2 fun ns _ => .refl ns

theorem grows_modify {f : Namespace → Namespace} (hf : ∀ ns : Namespace, ns.Grows (f ns)) (i : Nat)
    (h : Forall₂ Namespace.Grows a b) : Forall₂ Namespace.Grows a (b.modify i f) := by
  induction h generalizing i with
  | nil => cases i <;> exact .nil
  | @cons x y a b hxy hab ih =>
    cases i with
    | zero => exact .cons (hxy.trans (hf y)) hab
    | succ i => exact .cons hxy (ih i)

theorem grows_promoteAt (is : List Nat) (h : Forall₂ Namespace.Grows a b) :
    Forall₂ Namespace.Grows a (promoteAt is b).1 := by
  induction is generalizing b with
  | nil => exact h
  | cons i is ih =>
    rw [promoteAt]
    split
    · exact ih h
    · next ns hns =>
      have hset : b.set i { ns with scope := (ns.scope.promote ns.qualified).1 } =
          b.modify i fun ns => { ns with scope := (ns.scope.promote ns.qualified).1 } := by
        refine ext_getElem? fun j => ?_
        rw [getElem?_modify]
        by_cases hij : i = j
        · subst hij
          rw [getElem?_set_self (List.getElem?_eq_some_iff.1 hns).1, hns]
          simp
        · rw [getElem?_set_ne hij]
          simp [hij]
      have hgrown :=
        grows_modify (f := fun ns => { ns with scope := (ns.scope.promote ns.qualified).1 })
        (fun ns => ⟨rfl, by rw [promote_children], headings_promote _ _⟩) i h
      simp only
      rw [hset]
      split
      · exact hgrown
      · exact ih hgrown

theorem grows_attach (find : Import → Option DraftId) (d : Draft) : d.Grows (d.attach find).1 :=
  ⟨rfl, Sublist.refl _, forall₂_grows_refl _⟩

theorem grows_useColons (d : Draft) : d.Grows d.useColons := by
  refine ⟨rfl, ?_, ?_⟩
  · rw [useColons, headings_mapNames]
  · rw [useColons, forall₂_map_right_iff]
    refine forall₂_same.2 fun ns _ => ⟨rfl, rfl, ?_⟩
    rw [headings_mapNames]

theorem grows_resolve {imports : List (String × Draft)} (h : d.resolve imports = .ok e) :
    d.Grows e := by
  obtain ⟨-, rfl⟩ := resolve_eq h
  refine ⟨rfl, Sublist.refl _, ?_⟩
  have hnamed : Forall₂ Namespace.Grows d.arena (d.walk.foldl nameSite d.arena) := by
    refine foldlRecOn (motive := fun b => Forall₂ Namespace.Grows d.arena b) _ _
      (forall₂_grows_refl _) fun b hb v _ => grows_modify (fun ns => ?_) _ hb
    exact ⟨rfl, rfl, Sublist.refl _⟩
  refine foldlRecOn (motive := fun b => Forall₂ Namespace.Grows d.arena b) _ _ hnamed
    fun b hb v _ => grows_modify (fun ns => ?_) _ hb
  refine ⟨rfl, rfl, ?_⟩
  rw [headings_mapNames]

theorem grows_promote (d : Draft) : d.Grows d.promote.1 := by
  rw [promote]
  simp only
  split
  · exact ⟨rfl, headings_promote none d.top, forall₂_grows_refl _⟩
  · exact ⟨rfl, headings_promote none d.top, grows_promoteAt _ (forall₂_grows_refl _)⟩

/-- What a pass does to the namespaces, however it ends. -/
theorem wrap_or_grows {p : Pass} (hp : p ∈ Pass.multi) (w : Workspace) (d : Draft) :
    (p.run w d).1 = d.wrap ∨ d.Grows (p.run w d).1 := by
  simp only [Pass.multi, mem_cons, not_mem_nil, or_false] at hp
  rcases hp with rfl | rfl | rfl | rfl | rfl
  · exact .inl rfl
  · exact .inr (grows_attach _ d)
  · exact .inr (grows_useColons d)
  · refine .inr ?_
    simp only [Pass.resolve]
    split
    · next he => exact grows_resolve he
    · exact ⟨rfl, Sublist.refl _, forall₂_grows_refl _⟩
  · exact .inr (grows_promote d)

theorem Grows.threads (h : d.Grows e) : threads e.arena = threads d.arena := by
  have hall := h.arena
  generalize d.arena = a at hall
  generalize e.arena = b at hall
  induction hall with
  | nil => rfl
  | cons hxy _ ih => exact congrArg₂ cons hxy.thread ih

/-- **Passes keep drafts threaded**, however they end. -/
theorem threaded_run (h : d.Threaded) {p : Pass} (hp : p ∈ Pass.multi) (w : Workspace) :
    (p.run w d).1.Threaded := by
  rcases wrap_or_grows hp w d with heq | hgrows
  · rw [heq]
    exact h.wrap
  · exact h.congr hgrows.children hgrows.threads

end MessageSchema.Draft
