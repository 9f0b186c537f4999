/-
  The drafts that a draft leads to, each after those that it imports.

  * `Visits.unique`: there is at most one such order.
-/
import MessageSchema.Workspace
import Mathlib.Data.List.Nodup
import Mathlib.Logic.Relation

namespace MessageSchema.Workspace

open List

variable {w : Workspace} {d : Draft}

/-- A draft is attached to another as an import. -/
def Attaches (w : Workspace) (d e : Draft) : Prop := ∃ key, (key, e) ∈ w.attachedTo d

/-- No file that a draft leads to imports itself, directly or through others. -/
def Acyclic (w : Workspace) (d : Draft) : Prop :=
  ∀ x y, Relation.ReflTransGen w.Attaches d x → Relation.TransGen w.Attaches x y → x.file ≠ y.file

variable {e : Draft}

theorem Acyclic.of_attaches (h : w.Acyclic d) (he : w.Attaches d e) :
    w.Acyclic e := fun x y hx => h x y (hx.head he)

theorem mem_drafts_of_attaches (h : w.Attaches d e) : e ∈ w.drafts := by
  obtain ⟨key, h⟩ := h
  obtain ⟨⟨k, id⟩, -, he⟩ := mem_filterMap.1 h
  obtain ⟨x, hx, heq⟩ := Option.map_eq_some_iff.1 he
  cases heq
  exact mem_of_getElem? hx

/-- One draft imports the file that another stands for. -/
def Leads (w : Workspace) (order : List Draft) (d e : Draft) : Prop :=
  e ∈ order ∧ ∃ x, w.Attaches d x ∧ x.file = e.file

theorem Leads.mono {s t : List Draft} (h : s ⊆ t) (he : w.Leads s d e) : w.Leads t d e :=
  ⟨h he.1, he.2⟩

theorem acyclic_of_reached (rank : String → Nat)
    (h : ∀ x, Relation.ReflTransGen w.Attaches d x → ∀ e, w.Attaches x e →
      rank e.file < rank x.file) :
    w.Acyclic d := by
  intro x y hx hxy
  have hlt : rank y.file < rank x.file := by
    induction hxy with
    | single he => exact h x hx _ he
    | tail hxz he ih => exact Nat.lt_trans (h _ (hx.trans hxz.to_reflTransGen) _ he) ih
  intro heq
  rw [heq] at hlt
  exact Nat.lt_irrefl _ hlt

theorem acyclic_of_rank (rank : String → Nat)
    (h : ∀ x ∈ w.drafts, ∀ e ∈ w.attachedTo x, rank e.2.file < rank x.file) (hd : d ∈ w.drafts) :
    w.Acyclic d := by
  refine acyclic_of_reached rank fun x hx e he => ?_
  have hmem : x ∈ w.drafts := by
    rcases hx.cases_tail with rfl | ⟨y, -, hyx⟩
    · exact hd
    · exact mem_drafts_of_attaches hyx
  obtain ⟨key, he⟩ := he
  exact h x hmem _ he

/-- Visits to drafts one after the other, from the drafts that are behind before to
    those behind after them. -/
inductive Visits (w : Workspace) : List Draft → List Draft → List Draft → Prop
  | nil (s : List Draft) : Visits w [] s s
  /-- the file was visited before -/
  | seen {d : Draft} {ds s t : List Draft} : d.file ∈ s.map (·.file) → Visits w ds s t →
      Visits w (d :: ds) s t
  /-- first the imports, then the draft itself -/
  | new {d : Draft} {ds s s' t : List Draft} : d.file ∉ s.map (·.file) →
      Visits w ((w.attachedTo d).map (·.2)) s s' → Visits w ds (s' ++ [d]) t →
      Visits w (d :: ds) s t

namespace Visits

variable {w : Workspace} {ds s t : List Draft} {x : Draft}

theorem unique {t' : List Draft} (h : w.Visits ds s t) (h' : w.Visits ds s t') : t = t' := by
  induction h generalizing t' with
  | nil s =>
    cases h'
    rfl
  | seen hd _ ih =>
    cases h' with
    | seen _ h' => exact ih h'
    | new hd' => exact absurd hd hd'
  | new hd _ _ ihd ih =>
    cases h' with
    | seen hd' => exact absurd hd' hd
    | new _ hd' h' =>
      obtain rfl := ihd hd'
      exact ih h'

theorem cons {d : Draft} {s' : List Draft} (hd : w.Visits [d] s s') (h : w.Visits ds s' t) :
    w.Visits (d :: ds) s t := by
  cases hd with
  | seen hfile hd =>
    cases hd
    exact .seen hfile h
  | new hfile himports hd =>
    cases hd
    exact .new hfile himports h

theorem isPrefix (h : w.Visits ds s t) : s <+: t := by
  induction h with
  | nil s => exact prefix_rfl
  | seen _ _ ih => exact ih
  | new _ _ _ ihd ih => exact ihd.trans ((prefix_append _ _).trans ih)

theorem file_mem (h : w.Visits ds s t) (hd : d ∈ ds) : d.file ∈ t.map (·.file) := by
  induction h with
  | nil s => cases hd
  | seen hfile h ih =>
    rcases mem_cons.1 hd with rfl | hd
    · exact (h.isPrefix.map _).subset hfile
    · exact ih hd
  | new _ _ h _ ih =>
    rcases mem_cons.1 hd with rfl | hd
    · exact (h.isPrefix.map _).subset (mem_map_of_mem (by simp))
    · exact ih hd

theorem leads (h : w.Visits ds s t) (hx : x ∈ t) :
    x ∈ s ∨ ∃ d ∈ ds, Relation.ReflTransGen w.Attaches d x ∧
      ∃ y ∈ t, y.file = d.file ∧ Relation.ReflTransGen (w.Leads t) y x := by
  induction h with
  | nil s => exact .inl hx
  | seen _ _ ih => exact (ih hx).imp_right fun ⟨e, he, hx⟩ => ⟨e, mem_cons_of_mem _ he, hx⟩
  | @new d ds s s' t _ _ h ihd ih =>
    have hd : d ∈ t := h.isPrefix.subset (by simp)
    have hs' : s' ⊆ t := fun y hy => h.isPrefix.subset (mem_append_left _ hy)
    rcases ih hx with hx | ⟨e, he, hx⟩
    · rcases mem_append.1 hx with hx | hx
      · refine (ihd hx).imp_right ?_
        rintro ⟨e, he, hreaches, y, hy, hfile, hx⟩
        obtain ⟨⟨key, e⟩, hmem, rfl⟩ := mem_map.1 he
        exact ⟨d, mem_cons_self, hreaches.head ⟨key, hmem⟩, d, hd, rfl,
          (Relation.ReflTransGen.mono (fun _ _ => Leads.mono hs') _ _ hx).head
          ⟨hs' hy, e, ⟨key, hmem⟩, hfile.symm⟩⟩
      · rw [mem_singleton.1 hx]
        exact .inr ⟨d, mem_cons_self, .refl, d, hd, rfl, .refl⟩
    · exact .inr ⟨e, mem_cons_of_mem _ he, hx⟩

theorem file_not_mem (hd : w.Acyclic d) (hfile : d.file ∉ s.map (·.file))
    (h : w.Visits ((w.attachedTo d).map (·.2)) s t) : d.file ∉ t.map (·.file) := by
  intro hmem
  obtain ⟨x, hx, heq⟩ := mem_map.1 hmem
  rcases h.leads hx with hx | ⟨e, he, hx, -⟩
  · exact hfile (heq ▸ mem_map_of_mem hx)
  · obtain ⟨⟨key, e⟩, hmem, rfl⟩ := mem_map.1 he
    exact hd d x .refl (.head' ⟨key, hmem⟩ hx) heq.symm

/-- **What one more draft at the end preserves**, visits preserve: the file of the
    draft is new, and its imports are there. -/
theorem rec_concat {P : List Draft → Prop}
    (hP : ∀ {s d}, P s → d.file ∉ s.map (·.file) → (∀ x, w.Attaches d x → x.file ∈ s.map (·.file)) →
      P (s ++ [d]))
    (h : w.Visits ds s t) (hds : ∀ d ∈ ds, w.Acyclic d) (hs : P s) : P t := by
  induction h with
  | nil s => exact hs
  | seen _ _ ih => exact ih (fun e he => hds e (mem_cons_of_mem _ he)) hs
  | @new d ds s s' t hfile himports _ ihd ih =>
    have hd := hds d mem_cons_self
    have hs' : P s' := by
      refine ihd (fun e he => ?_) hs
      obtain ⟨⟨key, e⟩, hmem, rfl⟩ := mem_map.1 he
      exact hd.of_attaches ⟨key, hmem⟩
    refine ih (fun e he => hds e (mem_cons_of_mem _ he))
      (hP hs' (file_not_mem hd hfile himports) ?_)
    rintro x ⟨key, hx⟩
    exact himports.file_mem (mem_map_of_mem hx)

section
variable {d : Draft} {order : List Draft} (h : w.Visits [d] [] order) (hd : w.Acyclic d)
include h hd

variable {e : Draft}

theorem nodup_files : (order.map (·.file)).Nodup := by
  refine h.rec_concat (P := fun s => (s.map (·.file)).Nodup) ?_ (by simpa using hd) nodup_nil
  intro s e hs hfile _
  rw [map_append, map_singleton, ← concat_eq_append]
  exact hs.concat hfile

theorem file_mem_of_attaches (he : e ∈ order) {x : Draft} (hx : w.Attaches e x) :
    x.file ∈ order.map (·.file) := by
  refine h.rec_concat (P := fun s => ∀ e ∈ s, ∀ x, w.Attaches e x → x.file ∈ s.map (·.file)) ?_
    (by simpa using hd) (by simp) e he x hx
  intro s e hs _ himports y hy x hx
  rw [map_append]
  rcases mem_append.1 hy with hy | hy
  · exact mem_append_left _ (hs y hy x hx)
  · obtain rfl := mem_singleton.1 hy
    exact mem_append_left _ (himports x hx)

theorem mem_iff : e ∈ order ↔ Relation.ReflTransGen (w.Leads order) d e := by
  have hmem : d ∈ order := by
    cases h with
    | seen hfile => cases hfile
    | new _ _ h =>
      cases h
      simp
  constructor
  · intro he
    rcases h.leads he with he | ⟨x, hx, -, y, hy, hfile, hye⟩
    · cases he
    · obtain rfl := mem_singleton.1 hx
      obtain rfl := inj_on_of_nodup_map (h.nodup_files hd) hy hmem hfile
      exact hye
  · intro he
    rcases he.cases_tail with rfl | ⟨x, -, hx⟩
    · exact hmem
    · exact hx.1

/-- **What holds of a file if it holds of its imports** holds of all files visited. -/
theorem forall_file {Q : String → Prop}
    (hQ : ∀ e ∈ order, (∀ x, w.Attaches e x → Q x.file) → Q e.file) : ∀ e ∈ order, Q e.file := by
  refine h.rec_concat (P := fun s => s ⊆ order → ∀ e ∈ s, Q e.file) ?_ (by simpa using hd) (by simp)
    (Subset.refl _)
  intro s e hs _ himports hsub y hy
  have hs := hs fun z hz => hsub (mem_append_left _ hz)
  rcases mem_append.1 hy with hy' | hy'
  · exact hs y hy'
  · obtain rfl := mem_singleton.1 hy'
    refine hQ y (hsub hy) fun x hx => ?_
    obtain ⟨z, hz, hfile⟩ := mem_map.1 (himports x hx)
    exact hfile ▸ hs z hz

end

end Visits

end MessageSchema.Workspace
