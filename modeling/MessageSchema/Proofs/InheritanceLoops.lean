/-
  Enumerations and messages that inherit from themselves.

  `Inherits declared kind` relates the declarations of a draft to the declared parents
  that their names are resolved to.
-/
import MessageSchema.Proofs.Binding
import MessageSchema.Proofs.Loops
import MessageSchema.Proofs.UnboundNames

namespace MessageSchema

open List Table

/-- The names that a fault about inheritance shows. -/
def Fault.inheritanceCycle? (f : Fault) : Option (List String) :=
  match f.cause with
  | .inheritanceCycle names => some names
  | _ => none

/-- What the faults about inheritance among some faults show, in order. -/
def inheritanceCycles (fs : List Fault) : List (List String) := fs.filterMap Fault.inheritanceCycle?

theorem inheritanceCycles_append (fs gs : List Fault) :
    inheritanceCycles (fs ++ gs) = inheritanceCycles fs ++ inheritanceCycles gs := filterMap_append

theorem inheritanceCycles_eq_nil {fs : List Fault} (h : ∀ f ∈ fs, f.code ≠ .circularInheritance) :
    inheritanceCycles fs = [] := by
  refine filterMap_eq_nil_iff.2 fun f hf => ?_
  have hcode := h f hf
  rw [Fault.inheritanceCycle?]
  split
  · next hcause =>
    rw [Fault.code, hcause] at hcode
    exact absurd rfl hcode
  · rfl

namespace Model

/-- The parent of a declaration, if it is one of that kind. -/
def Declaration.parent? (kind : EntityKind) : Declaration → Option Draft.TypeName
  | message m => if kind = .message then m.parent else none
  | enumeration e => if kind = .enumeration then e.parent else none
  | compound _ => none

/-- The parent of a declaration has been resolved to another declaration of a kind. -/
def Inherits (declared : Table Declaration) (kind : EntityKind) (child parent : String) : Prop :=
  ∃ x y, declared.find? child = some x ∧ x.parent? kind = some ⟨parent, true⟩ ∧
    declared.find? parent = some y ∧ y.kind = kind

variable {declared : Table Declaration} {kind : EntityKind}

theorem Inherits.unique (x y z : String)
    (hy : Inherits declared kind x y) (hz : Inherits declared kind x z) : y = z := by
  obtain ⟨d, -, hd, hparent, -⟩ := hy
  obtain ⟨d', -, hd', hparent', -⟩ := hz
  rw [hd] at hd'
  cases hd'
  rw [hparent] at hparent'
  cases hparent'
  rfl

theorem Inherits.mem_keys {x y : String} (h : Inherits declared kind x y) : x ∈ declared.keys := by
  obtain ⟨d, -, hd, -⟩ := h
  exact mem_keys_of_find? hd

/-- What has been reported when some names are done: loops, no two with a name in
    common, with every name that is done and on a loop. -/
structure Reported (R : String → String → Prop) (done : String → Prop)
    (reports : List (List String)) : Prop where
  loop : ∀ r ∈ reports, Loop R r
  disjoint : reports.Pairwise List.Disjoint
  mem : ∀ c, Loop R c → ∀ x ∈ c, done x → ∃ r ∈ reports, x ∈ r

section
variable {R : String → String → Prop} {done done' : String → Prop} {reports : List (List String)}

theorem Reported.nil : Reported R (fun _ => False) [] := ⟨by simp, .nil, fun _ _ _ _ h => h.elim⟩

theorem Reported.mono (h : Reported R done reports)
    (hnew : ∀ c, Loop R c → ∀ x ∈ c, done' x → done x ∨ ∃ r ∈ reports, x ∈ r) :
    Reported R done' reports := by
  refine ⟨h.loop, h.disjoint, fun c hc x hx hdone => ?_⟩
  rcases hnew c hc x hx hdone with hdone | hr
  · exact h.mem c hc x hx hdone
  · exact hr

theorem Reported.concat (h : Reported R done reports) {r : List String} (hr : Loop R r)
    (hnew : ∀ s ∈ reports, ∀ x ∈ s, x ∉ r)
    (hdone : ∀ c, Loop R c → ∀ x ∈ c, done' x → done x ∨ x ∈ r) :
    Reported R done' (reports ++ [r]) := by
  refine ⟨fun s hs => ?_, ?_, fun c hc x hx hx' => ?_⟩
  · rcases mem_append.1 hs with hs | hs
    · exact h.loop s hs
    · rwa [mem_singleton.1 hs]
  · refine pairwise_append.2 ⟨h.disjoint, pairwise_singleton _ _, fun s hs r' hr' => ?_⟩
    rw [mem_singleton.1 hr']
    exact fun x hx => hnew s hs x hx
  · rcases hdone c hc x hx hx' with hdone | hxr
    · obtain ⟨s, hs, hxs⟩ := h.mem c hc x hx hdone
      exact ⟨s, mem_append_left _ hs, hxs⟩
    · exact ⟨r, by simp, hxr⟩

theorem Reported.all (hR : ∀ x y z, R x y → R x z → y = z) (h : Reported R done reports)
    (hdone : ∀ c, Loop R c → ∀ x ∈ c, done x) : Reports R reports := by
  refine .of_disjoint hR h.loop h.disjoint fun c hc => ?_
  obtain ⟨x, hx⟩ := hc.exists_mem
  obtain ⟨r, hr, hxr⟩ := h.mem c hc x hx (hdone c hc x hx)
  exact ⟨r, hr, x, hx, hxr⟩

end

namespace Binder

/-! ## Enumerations -/

section
variable {b : Binder} {q : String} {e : Draft.Enumeration} {ref : TypeRef}

theorem Puts.inherits {x : Declaration} (hq : b.declared.find? q = some x) {n : Draft.TypeName}
    (hn : x.parent? ref.kind = some n) (h : b.Puts n ref)
    (href : b.declared.contains ref.name = true) : Inherits b.declared ref.kind q ref.name := by
  obtain ⟨hmark, hname, ⟨y, hy, hkind⟩ | ⟨hnone, -⟩⟩ := h.cases
  · refine ⟨x, y, hq, ?_, hname ▸ hy, hkind.symm⟩
    rw [hn, hname, ← hmark]
  · rw [Table.contains, hname, hnone] at href
    cases href

theorem inherits_of_enumParent (hq : b.declared.find? q = some (.enumeration e))
    (href : b.enumParent q e = .ok (some ref)) {p : Draft.Enumeration}
    (hp : b.enumeration? ref.name = some p) : Inherits b.declared .enumeration q ref.name := by
  have hbound := bound_enumParent href
  generalize hparent : e.parent = parent at hbound
  cases hbound with
  | @some n _ hn =>
    obtain ⟨hputs, hkind⟩ := hn
    have hparent? : (Declaration.enumeration e).parent? ref.kind = .some n := by
      rw [hkind, Declaration.parent?, if_pos rfl, hparent]
    rw [← hkind]
    exact hputs.inherits hq hparent? (contains_of_find? (enumeration?_eq_some_iff.1 hp))

theorem enumParent_of_inherits (hq : b.declared.find? q = some (.enumeration e)) {y : String}
    (h : Inherits b.declared .enumeration q y) :
    b.enumParent q e = .ok (some ⟨.enumeration, y⟩) ∧ ∃ p, b.enumeration? y = some p := by
  obtain ⟨x, d, hx, hparent, hd, hkind⟩ := h
  rw [hq] at hx
  cases hx
  rw [Declaration.parent?, if_pos rfl] at hparent
  have hbind : b.bind? ⟨y, true⟩ = some ⟨.enumeration, y⟩ := by
    rw [bind?, if_pos rfl]
    simp only [hd, hkind]
  refine ⟨by simp [enumParent, hparent, hbind], ?_⟩
  cases d with
  | message | compound => cases hkind
  | enumeration p => exact ⟨p, enumeration?_eq_some_iff.2 hd⟩

theorem exists_of_inherits {x y : String} (h : Inherits b.declared .enumeration x y) :
    ∃ e, b.declared.find? x = some (.enumeration e) := by
  obtain ⟨d, -, hd, hparent, -⟩ := h
  cases d with
  | message | compound => cases hparent
  | enumeration e => exact ⟨e, hd⟩

theorem inheritanceCycles_mergeFaults (name : String) (parent : Option TypeRef) (m : Merged) :
    inheritanceCycles (mergeFaults name parent m) = [] := by
  refine inheritanceCycles_eq_nil fun f hf => ?_
  rcases mem_append.1 hf with hf | hf
  · obtain ⟨⟨v, inherited⟩, -, rfl⟩ := mem_map.1 hf
    cases inherited <;> simp [Model.faultAt, Fault.code, Cause.code]
  · obtain ⟨v, -, rfl⟩ := mem_map.1 hf
    simp [Model.faultAt, Fault.code, Cause.code]

theorem inheritanceCycle?_enumParent {f : Fault} (h : b.enumParent q e = .error f) :
    f.inheritanceCycle? = none := by
  rw [enumParent] at h
  split at h
  · cases h
  · split at h
    · cases h
      rfl
    · split at h
      · cases h
      · cases h
        rfl

end

end Binder

/-- What the faults of enumerations have reported. -/
def Enumerations.reports (es : Enumerations) : List (List String) := inheritanceCycles es.faults

theorem Enumerations.reports_fault (es : Enumerations) (f : Fault) :
    (es.fault f).reports = es.reports ++ f.inheritanceCycle?.toList := by
  rw [reports, fault, inheritanceCycles_append]
  cases h : f.inheritanceCycle? <;> simp [reports, inheritanceCycles, h]

theorem Enumerations.reports_finish (q : String) (e : Draft.Enumeration) (parent : Option TypeRef)
    (inherited : List EnumValue) (es : Enumerations) :
    (Binder.finish q e parent inherited es).1.reports = es.reports := by
  rw [reports, Binder.finish]
  simp only [inheritanceCycles_append, Binder.inheritanceCycles_mergeFaults, append_nil]
  rfl

/-- The loops that finishing some enumerations has met, while those in `chain` wait:
    all names of these loops are finished or wait. -/
structure Enumerations.Traced (b : Binder) (chain : List String) (done : String → Prop)
    (es : Enumerations) : Prop where
  reported : Reported (Inherits b.declared .enumeration) (fun x => es.finished.contains x = true ∨
    done x) es.reports
  settled : ∀ r ∈ es.reports, ∀ x ∈ r, es.finished.contains x = true ∨ x ∈ chain

namespace Binder

section
variable {b : Binder} {chain : List String} {q : String} {e : Draft.Enumeration} {es : Enumerations}

theorem traced_finish {parent : Option TypeRef} {inherited : List EnumValue} {done : String → Prop}
    (h : es.Traced b (chain ++ [q]) done)
    (hq : ∀ c, Loop (Inherits b.declared .enumeration) c → q ∈ c → ∃ r ∈ es.reports, q ∈ r) :
    (finish q e parent inherited es).1.Traced b chain (· = q) := by
  have hfinished : ∀ x, (finish q e parent inherited es).1.finished.contains x = true ↔
      x = q ∨ es.finished.contains x = true := fun x => contains_insert_iff
  constructor
  · rw [Enumerations.reports_finish]
    refine h.reported.mono fun c hc x hx hdone => ?_
    have hdone : x = q ∨ es.finished.contains x = true := by
      rcases hdone with hdone | rfl
      · exact (hfinished x).1 hdone
      · exact .inl rfl
    rcases hdone with rfl | hdone
    · exact .inr (hq c hc hx)
    · exact .inl (.inl hdone)
  · rw [Enumerations.reports_finish]
    intro r hr x hx
    rw [hfinished]
    rcases h.settled r hr x hx with hx | hx
    · exact .inl (.inr hx)
    · rcases mem_append.1 hx with hx | hx
      · exact .inr hx
      · exact .inl (.inl (mem_singleton.1 hx))

/-- Coming back to an enumeration that waits. -/
theorem traced_fault (h : es.Traced b [] fun _ => False) (hnodup : chain.Nodup)
    (hchain : (chain ++ [q]).IsChain (Inherits b.declared .enumeration))
    (hwait : ∀ x ∈ chain, es.finished.contains x = false) (hq : q ∈ chain) (o : Origin) :
    (es.fault (faultAt o (.inheritanceCycle (chain.dropWhile (· ≠ q) ++ [q])))).Traced b
      chain (· = q) := by
  have hmem : ∀ x ∈ chain.dropWhile (· ≠ q) ++ [q], x ∈ chain := by
    intro x hx
    rcases mem_append.1 hx with hx | hx
    · exact (dropWhile_sublist _).subset hx
    · rwa [mem_singleton.1 hx]
  have hreports := es.reports_fault (faultAt o (.inheritanceCycle (chain.dropWhile (· ≠ q) ++ [q])))
  rw [show (faultAt o
    (.inheritanceCycle (chain.dropWhile (· ≠ q) ++ [q]))).inheritanceCycle?.toList =
    [chain.dropWhile (· ≠ q) ++ [q]] from rfl] at hreports
  constructor
  · rw [hreports]
    refine h.reported.concat (.of_chain hnodup hchain hq) (fun s hs x hx hxr => ?_)
      fun c _ x _ hdone => ?_
    -- what was reported before is finished, and what waits is not
    · have hfinished := (h.settled s hs x hx).resolve_right (not_mem_nil)
      rw [hwait x (hmem x hxr)] at hfinished
      cases hfinished
    · rcases hdone with hdone | rfl
      · exact .inl (.inl hdone)
      · exact .inr (by simp)
  · rw [hreports]
    intro r hr x hx
    rcases mem_append.1 hr with hr | hr
    · exact .inl ((h.settled r hr x hx).resolve_right not_mem_nil)
    · rw [mem_singleton.1 hr] at hx
      exact .inr (hmem x hx)

/-- **Finishing an enumeration with its ancestors** reports the loop that it is on, if it
    is on one and that has not been reported. -/
theorem Finishing.traced {r : Enumerations × Option Enumeration} (hrun : b.Finishing chain q e es r)
    (hq : b.declared.find? q = some (.enumeration e)) (h : es.Traced b [] fun _ => False)
    (hnodup : chain.Nodup) (hchain : (chain ++ [q]).IsChain (Inherits b.declared .enumeration))
    (hwait : ∀ x ∈ chain, es.finished.contains x = false) : r.1.Traced b chain (· = q) := by
  -- what is finished without ancestors is on no loop
  have hfinish : ∀ {chain q e parent inherited} {es' : Enumerations}, es'.reports = es.reports →
      es'.finished = es.finished → (∀ y, ¬ Inherits b.declared .enumeration q y) →
      (finish q e parent inherited es').1.Traced b chain (· = q) := by
    intro chain q e parent inherited es' hreports hfinished hlast
    have htraced : es'.Traced b (chain ++ [q]) fun _ => False := by
      constructor
      · rw [hreports, hfinished]
        exact h.reported
      · rw [hreports, hfinished]
        exact fun r hr x hx => .inl ((h.settled r hr x hx).resolve_right not_mem_nil)
    refine traced_finish htraced fun c hc hqc => ?_
    obtain ⟨y, -, hy⟩ := hc.exists_next hqc
    exact absurd hy (hlast y)
  induction hrun with
  | done hdone =>
    refine ⟨h.reported.mono fun c _ x _ hx => ?_, fun r hr x hx => ?_⟩
    · rcases hx with hx | rfl
      · exact .inl (.inl hx)
      · exact .inl (.inl (contains_of_find? hdone))
    · exact .inl ((h.settled r hr x hx).resolve_right not_mem_nil)
  | @back _ _ e _ _ hmem => exact traced_fault h hnodup hchain hwait hmem e.origin
  | lost _ _ hfault =>
    refine hfinish ?_ rfl fun y hy => ?_
    · rw [Enumerations.reports_fault, inheritanceCycle?_enumParent hfault]
      exact append_nil _
    · rw [(enumParent_of_inherits hq hy).1] at hfault
      cases hfault
  | root _ _ hparent =>
    refine hfinish rfl rfl fun y hy => ?_
    rw [(enumParent_of_inherits hq hy).1] at hparent
    cases hparent
  | imported _ _ hparent hp =>
    refine hfinish rfl rfl fun y hy => ?_
    obtain ⟨hparent', p, hp'⟩ := enumParent_of_inherits hq hy
    rw [hparent'] at hparent
    cases hparent
    rw [hp] at hp'
    cases hp'
  | @own _ q _ _ _ _ _ hnone hnew hparent hp _ ih =>
    have hedge := inherits_of_enumParent hq hparent hp
    have hwait' : ∀ x ∈ _ ++ [q], Table.contains _ x = false := forall_mem_append.2
      ⟨hwait, forall_mem_singleton.2 ((contains_eq_false_iff _ _).2 hnone)⟩
    have htraced := ih (enumeration?_eq_some_iff.1 hp) h (nodup_concat hnodup hnew)
      (isChain_concat hchain (by simpa using hedge)) hwait' hfinish
    refine traced_finish htraced fun c hc hqc => ?_
    -- its parent is on the same loop, and that one has been reported
    obtain ⟨y, hy, hnext⟩ := hc.exists_next hqc
    obtain rfl := Inherits.unique _ _ _ hedge hnext
    obtain ⟨r, hr, hyr⟩ := htraced.reported.mem c hc _ hy (.inr rfl)
    refine ⟨r, hr, ?_⟩
    exact ((htraced.reported.loop r hr).mem_iff_mem Inherits.unique hc hyr hy q).2 hqc

end

theorem traced_enumerations (b : Binder) : b.enumerations.Traced b [] fun _ => False := by
  refine enumerations_induct (P := fun es => es.Traced b [] fun _ => False)
    ⟨?_, by simp [Enumerations.reports, inheritanceCycles]⟩ fun q e es r hq h hrun => ?_
  · exact Reported.nil.mono fun c _ x _ hx => by simp [Table.contains, Table.find?_empty] at hx
  · have htraced := hrun.traced hq h nodup_nil (isChain_singleton q) (by simp)
    refine ⟨htraced.reported.mono fun c _ x _ hx => ?_, htraced.settled⟩
    rcases hx with hx | hx
    · exact .inl (.inl hx)
    · exact hx.elim

/-- **Finishing the enumerations reports every loop of their parents exactly once.** -/
theorem reports_enumerations (b : Binder) :
    Reports (Inherits b.declared .enumeration) b.enumerations.reports := by
  refine (traced_enumerations b).reported.all Inherits.unique fun c hc x hx => ?_
  obtain ⟨y, -, hy⟩ := hc.exists_next hx
  obtain ⟨e, he⟩ := exists_of_inherits hy
  exact .inl ((fit_enumerations b).2 x e he)

/-! ## Messages -/

/-- The parent of a message, by the text of its name. -/
def Follows (b : Binder) (child parent : String) : Prop :=
  ∃ m p, b.message? child = some m ∧ m.parent = some p ∧ p.text = parent

section
variable {b : Binder} {x y q : String} {n : Nat} {path c : List String}

theorem follows_iff : b.Follows x y ↔ ((b.message? x).bind (·.parent)).map (·.text) = some y := by
  simp only [Follows, Option.map_eq_some_iff, Option.bind_eq_some_iff]
  constructor
  · rintro ⟨m, p, hm, hp, rfl⟩
    exact ⟨p, ⟨m, hm, hp⟩, rfl⟩
  · rintro ⟨p, ⟨m, hm, hp⟩, rfl⟩
    exact ⟨m, p, hm, hp, rfl⟩

theorem Follows.unique (x y z : String) (hy : b.Follows x y) (hz : b.Follows x z) : y = z := by
  rw [follows_iff] at hy hz
  exact Option.some.inj (hy.symm.trans hz)

theorem Follows.mem_keys (h : b.Follows x y) : x ∈ b.declared.keys := by
  obtain ⟨m, -, hm, -⟩ := h
  exact mem_keys_of_find? (message?_eq_some_iff.1 hm)

theorem messageChain_eq_some {path' : List String} {again : String}
    (h : b.messageChain n path (some q) = (path', some again)) (hnodup : path.Nodup)
    (hchain : (path ++ [q]).IsChain b.Follows) :
    path'.Nodup ∧ (path' ++ [again]).IsChain b.Follows ∧ again ∈ path' ∧
      Relation.ReflTransGen b.Follows q again := by
  induction n generalizing path q with
  | zero => cases h
  | succ n ih =>
    rw [messageChain] at h
    split at h
    · next hmem =>
      cases h
      exact ⟨hnodup, hchain, contains_iff_mem.1 hmem, .refl⟩
    · next hmem =>
      have hnew : q ∉ path := fun hm => hmem (contains_iff_mem.2 hm)
      cases hnext : ((b.message? q).bind (·.parent)).map (·.text) with
      | none =>
        rw [hnext] at h
        cases n <;> cases h
      | some y =>
        rw [hnext] at h
        have hy := follows_iff.2 hnext
        obtain ⟨hnodup', hchain', hagain, hreach⟩ :=
          ih h (nodup_concat hnodup hnew) (isChain_concat hchain (by simpa using hy))
        exact ⟨hnodup', hchain', hagain, .head hy hreach⟩

theorem exists_again (hc : Loop b.Follows c) (hn : unlisted b.declared.keys path < n) (hq : q ∈ c) :
    ∃ path' again, b.messageChain n path (some q) = (path', some again) := by
  induction n generalizing path q with
  | zero => omega
  | succ n ih =>
    obtain ⟨y, hy, hnext⟩ := hc.exists_next hq
    rw [messageChain]
    split
    · exact ⟨path, q, rfl⟩
    · next hmem =>
      have hnew : q ∉ path := fun hm => hmem (contains_iff_mem.2 hm)
      have hlt : unlisted b.declared.keys (path ++ [q]) < unlisted b.declared.keys path :=
        unlisted_lt (subset_append_left _ _) hnext.mem_keys hnew (by simp)
      rw [follows_iff.1 hnext]
      exact ih (by omega) hy

/-- **The loop that a message leads into**, which is that of the message if it is on
    one. -/
theorem messageCycle?_cases (b : Binder) (q : String) :
    (b.messageCycle? q = none ∧ ∀ c, Loop b.Follows c → q ∉ c) ∨
      ∃ again cycle, b.messageCycle? q = some (again, cycle) ∧ Loop b.Follows cycle ∧
        ∀ c, Loop b.Follows c → q ∈ c → q ∈ cycle := by
  have hn : unlisted b.declared.keys [] < b.declared.size + 2 := by
    have := unlisted_keys_le b.declared []
    omega
  rw [messageCycle?]
  split
  · next path again hwalk =>
    obtain ⟨hnodup, hchain, hagain, hreach⟩ :=
      messageChain_eq_some hwalk nodup_nil (isChain_singleton q)
    have hloop : Loop b.Follows (path.dropWhile (· ≠ again) ++ [again]) :=
      .of_chain hnodup hchain hagain
    refine .inr ⟨again, _, rfl, hloop, fun c hc hq => ?_⟩
    have hmem : again ∈ c := (hc.mem_iff Follows.unique hq).2 hreach
    exact (hloop.mem_iff_mem Follows.unique hc (by simp) hmem q).2 hq
  · next path hwalk =>
    refine .inl ⟨rfl, fun c hc hq => ?_⟩
    obtain ⟨path', again, hagain⟩ := exists_again hc hn hq
    rw [hwalk] at hagain
    cases hagain

theorem reported_addMessageCycle {done : String → Prop} {reported : List String}
    {faults : List Fault} (h : Reported b.Follows done (inheritanceCycles faults))
    (hreported : reported = (inheritanceCycles faults).flatten) (q : String) :
    Reported b.Follows (fun x => done x ∨ x = q)
      (inheritanceCycles (b.addMessageCycle reported faults q).2) ∧
      (b.addMessageCycle reported faults q).1 =
        (inheritanceCycles (b.addMessageCycle reported faults q).2).flatten := by
  have hmem : ∀ x, x ∈ reported ↔ ∃ r ∈ inheritanceCycles faults, x ∈ r := by
    intro x
    rw [hreported, mem_flatten]
  -- nothing is reported if the message is on no loop, or on one that is reported
  have hsame : (∀ c, Loop b.Follows c → q ∈ c → ∃ r ∈ inheritanceCycles faults, q ∈ r) →
      Reported b.Follows (fun x => done x ∨ x = q) (inheritanceCycles faults) := by
    intro hq
    refine h.mono fun c hc x hx hdone => ?_
    rcases hdone with hdone | rfl
    · exact .inl hdone
    · exact .inr (hq c hc hx)
  rw [addMessageCycle]
  split
  · next hq => exact ⟨hsame fun _ _ _ => (hmem q).1 (contains_iff_mem.1 hq), hreported⟩
  · rcases messageCycle?_cases b q with ⟨hnone, hoff⟩ | ⟨again, cycle, hsome, hloop, hon⟩
    · simp only [hnone]
      exact ⟨hsame fun c hc hq => absurd hq (hoff c hc), hreported⟩
    · simp only [hsome]
      split
      · next hany =>
        obtain ⟨x, hx, hxr⟩ := any_eq_true.1 hany
        obtain ⟨r, hr, hxr⟩ := (hmem x).1 (contains_iff_mem.1 hxr)
        refine ⟨hsame fun c hc hq => ⟨r, hr, ?_⟩, hreported⟩
        exact (hloop.mem_iff_mem Follows.unique (h.loop r hr) hx hxr q).1 (hon c hc hq)
      · next hany =>
        have hcycles : ∀ f : Fault, f.inheritanceCycle? = some cycle →
            inheritanceCycles (faults ++ [f]) = inheritanceCycles faults ++ [cycle] := by
          intro f hf
          rw [inheritanceCycles_append]
          simp [inheritanceCycles, hf]
        rw [hcycles _ (by split <;> rfl)]
        refine ⟨h.concat hloop (fun s hs x hx hxc => hany ?_) fun c hc x hx hdone => ?_, ?_⟩
        · exact any_eq_true.2 ⟨x, hxc, contains_iff_mem.2 ((hmem x).2 ⟨s, hs, hx⟩)⟩
        · rcases hdone with hdone | rfl
          · exact .inl hdone
          · exact .inr (hon c hc hx)
        · simp [hreported]

/-- All messages among some declarations are done. -/
theorem reported_foldl {ds : List (String × Declaration)} {done : String → Prop}
    {s : List String × List Fault} (h : Reported b.Follows done (inheritanceCycles s.2))
    (hs : s.1 = (inheritanceCycles s.2).flatten) :
    Reported b.Follows (fun x => done x ∨ ∃ m, (x, .message m) ∈ ds) (inheritanceCycles
      (ds.foldl (fun (reported, faults) d =>
        match d.2.message? with
        | some _ => b.addMessageCycle reported faults d.1
        | none => (reported, faults)) s).2) := by
  induction ds generalizing done s with
  | nil => exact h.mono fun c _ x _ hx => .inl (hx.resolve_right (by simp))
  | cons d ds ih =>
    obtain ⟨q, x⟩ := d
    obtain ⟨reported, faults⟩ := s
    cases x with
    | enumeration | compound =>
      refine (ih h hs).mono fun c _ x _ hx => .inl ?_
      rcases hx with hx | ⟨m, hm⟩
      · exact .inl hx
      · exact .inr ⟨m, (mem_cons.1 hm).resolve_left (by simp)⟩
    | message m =>
      obtain ⟨h', hs'⟩ := reported_addMessageCycle h hs q
      refine (ih h' hs').mono fun c _ x _ hx => .inl ?_
      rcases hx with hx | ⟨m', hm'⟩
      · exact .inl (.inl hx)
      · rcases mem_cons.1 hm' with hm' | hm'
        · cases hm'
          exact .inl (.inr rfl)
        · exact .inr ⟨m', hm'⟩

theorem reports_follows (b : Binder) :
    Reports b.Follows (inheritanceCycles b.messageCycleFaults) := by
  have h := @reported_foldl b b.declared.entries _ ([], []) .nil rfl
  refine Reported.all Follows.unique h fun c hc x hx => ?_
  obtain ⟨y, -, m, p, hm, -⟩ := hc.exists_next hx
  exact .inr ⟨m, (mem_entries_iff _ _ _).2 (message?_eq_some_iff.1 hm)⟩

/-- Names of declared messages as parents are resolved. -/
def Resolves (b : Binder) : Prop :=
  ∀ q m p, b.declared.find? q = some (.message m) → m.parent = some p → b.declared.contains p.text =
    true → p.resolved = true

theorem Follows.of_inherits (h : Inherits b.declared .message x y) : b.Follows x y := by
  obtain ⟨d, -, hd, hparent, -⟩ := h
  cases d with
  | message m => exact ⟨m, _, message?_eq_some_iff.2 hd, hparent, rfl⟩
  | enumeration | compound => cases hparent

theorem Resolves.inherits (hb : b.Resolves) {z : String} (hy : b.Follows x y) (hz : b.Follows y z) :
    Inherits b.declared .message x y := by
  obtain ⟨m, p, hm, hp, rfl⟩ := hy
  obtain ⟨m', -, hm', -⟩ := hz
  rw [message?_eq_some_iff] at hm hm'
  have hmark := hb x m p hm hp (contains_of_find? hm')
  refine ⟨_, _, hm, ?_, hm', rfl⟩
  rw [Declaration.parent?, if_pos rfl, hp, ← hmark]

theorem Resolves.loop_iff (hb : b.Resolves) :
    Loop b.Follows c ↔ Loop (Inherits b.declared .message) c := by
  constructor
  · intro h
    refine ⟨h.closed, h.nonempty, h.nodup, h.chain.imp_of_mem_imp fun x y _ hy hxy => ?_⟩
    obtain ⟨z, -, hz⟩ := h.exists_next hy
    exact hb.inherits hxy hz
  · intro h
    exact ⟨h.closed, h.nonempty, h.nodup, h.chain.imp fun _ _ => Follows.of_inherits⟩

/-- **The walks from each message report every loop of their parents exactly once.** -/
theorem reports_messageCycleFaults (hb : b.Resolves) :
    Reports (Inherits b.declared .message) (inheritanceCycles b.messageCycleFaults) := by
  obtain ⟨hloop, honce⟩ := reports_follows b
  exact ⟨fun r hr => hb.loop_iff.1 (hloop r hr), fun c hc => honce c (hb.loop_iff.2 hc)⟩

end

end Binder

/-! ## Models -/

/-- **The faults of a model report the loops of its enumerations, then those of its
    messages**, each exactly once, and no others. -/
theorem reports_ofDraft {lib : Library} {d : Draft} {imports : Table String}
    (hb : (binderOf lib d imports).Resolves) : ∃ enums messages,
    inheritanceCycles (ofDraft lib d imports).2 = enums ++ messages ∧
      Reports (Inherits (Index.ofDraft d).declared .enumeration) enums ∧
      Reports (Inherits (Index.ofDraft d).declared .message) messages := by
  have houtside : inheritanceCycles (outsideFaults d) = [] := by
    rw [outsideFaults]
    split <;> rfl
  have hindex : inheritanceCycles (Index.ofDraft d).faults = [] := by
    refine inheritanceCycles_eq_nil fun f hf => ?_
    obtain ⟨v, -, ⟨name, line, rfl⟩ | ⟨x, -, home, line, rfl⟩⟩ := exists_visit_of_mem_index hf
    · simp [Fault.code, Cause.code]
    · simp [faultAt, Fault.code, Cause.code]
  have howners : inheritanceCycles
      (importedNamespaceFaults lib d (Index.ofDraft d).namespaces.keys imports) = [] := by
    refine inheritanceCycles_eq_nil fun f hf => ?_
    obtain ⟨e, -, name, owner, other, rfl⟩ := exists_import_of_mem_importedNamespaceFaults hf
    simp [Fault.code, Cause.code]
  have hmessages : inheritanceCycles
      ((binderOf lib d imports).messages (enumsOf lib d imports)).2 = [] := by
    refine inheritanceCycles_eq_nil fun f hf => ?_
    obtain ⟨q, m, -, hfault⟩ := Binder.exists_message_of_mem_messages hf
    exact hfault.code_ne
  refine ⟨_, _, ?_, Binder.reports_enumerations (binderOf lib d imports),
    Binder.reports_messageCycleFaults hb⟩
  show inheritanceCycles (outsideFaults d ++ (Index.ofDraft d).faults
    ++ importedNamespaceFaults lib d (Index.ofDraft d).namespaces.keys imports
    ++ (binderOf lib d imports).enumerations.faults ++ (binderOf lib d imports).messageCycleFaults
    ++ ((binderOf lib d imports).messages (enumsOf lib d imports)).2) = _
  simp only [inheritanceCycles_append, houtside, hindex, howners, hmessages, nil_append, append_nil]
  rfl

end Model

end MessageSchema
