/-
  Libraries whose models have the same shape.

  What a file reaches, which models it imports and whether two of its files declare the
  same namespace depends on the shapes of models alone: their files, their imports and
  the names of their namespaces.  So these agree between two libraries whose models are
  related, whatever the relation, as long as related models have the same shape.

  * `Library.Related.reachable`, `Library.Related.importedModels`: the models that are met.
-/
import MessageSchema.Proofs.Keeping

namespace MessageSchema

/-- Tables with the same keys are of one size. -/
theorem Table.size_eq {α β : Type} {t : Table α} {u : Table β}
    (h : ∀ k, t.contains k = u.contains k) : t.size = u.size := by
  have hkeys : t.keys.Perm u.keys := by
    refine (List.perm_ext_iff_of_nodup t.nodup u.nodup).2 fun k => ?_
    have hk := h k
    rw [Bool.eq_iff_iff] at hk
    exact (t.mem_keys_iff k).trans (hk.trans (u.mem_keys_iff k).symm)
  rw [← t.length_keys, ← u.length_keys, hkeys.length_eq]

/-- Two models of one file have the same imports, and namespaces of the same names. -/
structure Model.SameShape (m m' : Model) : Prop where
  file : m.file = m'.file
  imports : m.imports = m'.imports
  namespaces : m.namespaces.map (·.qualified) = m'.namespaces.map (·.qualified)

/-! ## Namespaces of several files -/

namespace Model.Ownership

/-- Two states of the search for namespaces in several files that differ in faults only, and
    have found some or none. -/
structure Alike (o o' : Ownership) : Prop where
  owners : o.owners = o'.owners
  reported : o.reported = o'.reported
  faults : o.faults = [] ↔ o'.faults = []

variable {o o' : Ownership}

theorem Alike.add (h : o.Alike o') (file : String) (line line' : Nat) (other name : String) :
    (o.add file line other name).Alike (o'.add file line' other name) := by
  rw [Ownership.add, Ownership.add, h.owners, h.reported]
  cases o'.owners.find? name with
  | none => exact ⟨rfl, rfl, h.faults⟩
  | some owner =>
    simp only
    split
    · exact h
    · exact ⟨rfl, rfl, by simp⟩

theorem Alike.addModel (h : o.Alike o') (file : String) (line line' : Nat) {m m' : Model}
    (hm : m.SameShape m') : (o.addModel file line m).Alike (o'.addModel file line' m') := by
  have hfold : ∀ (o : Ownership) (l : Nat) (x : Model), o.addModel file l x =
      (x.namespaces.map (·.qualified)).foldl (fun o q => o.add file l x.file q) o := fun o l x => by
    rw [List.foldl_map]
    rfl
  rw [hfold, hfold, hm.namespaces, hm.file]
  generalize m'.namespaces.map (·.qualified) = names
  induction names generalizing o o' with
  | nil => exact h
  | cons q names ih => exact ih (h.add file line line' _ q)

theorem Alike.addModels (h : o.Alike o') (file : String) (line line' : Nat) {ms ms' : List Model}
    (hms : List.Forall₂ Model.SameShape ms ms') :
    (ms.foldl (Ownership.addModel file line) o).Alike
      (ms'.foldl (Ownership.addModel file line') o') := by
  induction hms generalizing o o' with
  | nil => exact h
  | cons hm _ ih => exact ih (h.addModel file line line' hm)

end Model.Ownership

/-! ## Related libraries -/

/-- Two libraries have models of the same files, which are related. -/
def Library.Related (R : Model → Model → Prop) (lib lib' : Library) : Prop :=
  ∀ f, Option.Rel R (lib.find? f) (lib'.find? f)

namespace Library.Related

variable {R : Model → Model → Prop} {lib lib' : Library} (h : Related R lib lib')
include h

theorem contains (f : String) : Table.contains lib f = Table.contains lib' f :=
  (Model.isSome_eq_of_rel (h f)).symm

variable (hR : ∀ {m m'}, R m m' → m.SameShape m')
include hR

theorem reachFrom (depth : Nat) (seen : List String) (f : String) :
    lib.reachFrom depth seen f = lib'.reachFrom depth seen f := by
  induction depth generalizing seen f with
  | zero => rfl
  | succ depth ih =>
    have hreach : Library.reachFrom lib depth = Library.reachFrom lib' depth :=
      funext fun seen => funext fun f => ih seen f
    rw [Library.reachFrom, Library.reachFrom, hreach]
    obtain ⟨hm, hm'⟩ | ⟨m, m', hm, hm', hrel⟩ := rel_cases (h f)
    · simp only [hm, hm']
    · simp only [hm, hm', (hR hrel).imports]

theorem reachableFiles (f : String) : lib.reachableFiles f = lib'.reachableFiles f := by
  rw [Library.reachableFiles, Library.reachableFiles, Table.size_eq h.contains, h.reachFrom hR]

theorem reachable (f : String) : List.Forall₂ R (lib.reachable f) (lib'.reachable f) := by
  rw [Library.reachable, Library.reachable, h.reachableFiles hR]
  exact forall₂_filterMap h _

theorem importedModels (imports : Table String) :
    List.Forall₂ R (Model.Binder.importedModels lib imports)
      (Model.Binder.importedModels lib' imports) := by
  have hfiles : Library.reachableFiles lib = Library.reachableFiles lib' :=
    funext (h.reachableFiles hR)
  rw [Model.Binder.importedModels, Model.Binder.importedModels, hfiles]
  exact forall₂_filterMap h _

/-- **Whether a namespace is in several files** does not depend on the lines of imports. -/
theorem importedNamespaceFaults {d e : Draft} (hfile : e.file = d.file) {own : List String}
    {imports : Table String} (hnil : Model.importedNamespaceFaults lib d own imports = []) :
    Model.importedNamespaceFaults lib' e own imports = [] := by
  have hfold : ∀ (es : List (String × String)) (o o' : Model.Ownership), o.Alike o' →
      (es.foldl (fun o i =>
        (lib.reachable i.2).foldl (Model.Ownership.addModel d.file (Model.importLine d i.1)) o)
          o).Alike
      (es.foldl (fun o i =>
        (lib'.reachable i.2).foldl (Model.Ownership.addModel d.file (Model.importLine e i.1)) o)
            o') := by
    intro es
    induction es with
    | nil => exact fun _ _ ho => ho
    | cons i es ih =>
      exact fun o o' ho =>
        ih _ _ (ho.addModels _ _ _ ((h.reachable hR i.2).imp fun _ _ hm => hR hm))
  rw [Model.importedNamespaceFaults, hfile]
  exact (hfold imports.entries _ _ ⟨rfl, rfl, .rfl⟩).faults.1 hnil

end Library.Related

end MessageSchema
