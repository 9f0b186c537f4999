/-
  Compiling without remarks.

  Remarks may be blanked out of a text: it is still compiled or still refused, and its
  models change in their documentation and comments alone.  This is not so for all
  comments.  Those inside defaults are kept as they are written, and a few others
  would be read in another way once they are blanks.

  * `Compilation.alone_withoutComments`: the comments for which this fails.
-/
import MessageSchema.Proofs.BareModels
import MessageSchema.Proofs.Remarks

namespace MessageSchema

open Draft Workspace

/-! ## Loading -/

def Loading.bare (l : Loading) : Loading := { l with workspace := l.workspace.bare }

namespace Loading

variable {l l' : Loading} {d d' : Draft}

theorem bare_insert (l : Loading) (path : String) (d : Draft) :
    bare { l with workspace := l.workspace.insert path d } =
      { l.bare with workspace := l.bare.workspace.insert path (d.bare id) } := by
  simp [bare, Workspace.insert, Workspace.bare]

theorem bare_note (l : Loading) (e : Event) :
    bare { l with workspace :=
  l.workspace.note e } = { l.bare with workspace := l.bare.workspace.note e } := rfl

theorem insert_alike (hl : l.bare = l'.bare) (hd : d.bare id = d'.bare id)
    (path : String) :
    bare { l with workspace := l.workspace.insert path d } =
      bare { l' with workspace := l'.workspace.insert path d' } := by
  rw [bare_insert, bare_insert, hl, hd]

theorem note_alike (hl : l.bare = l'.bare) (e : Event) :
    bare { l with workspace := l.workspace.note e } =
      bare { l' with workspace := l'.workspace.note e } := by
  rw [bare_note, bare_note, hl]

theorem loadImports_alike (fs : FileSystem)
    {load : String → String → Loading → Loading × Option Interruption}
    (hload : ∀ path text l l', bare l = bare l' → (load path text l).map bare id =
      (load path text l').map bare id)
    (hd : d.file = d'.file) (is : List Import) (hl : l.bare = l'.bare) :
    (loadImports fs load d is l).map bare id = (loadImports fs load d' is l').map bare id := by
  induction is generalizing l l' with
  | nil => exact Prod.ext hl rfl
  | cons i is ih =>
    have hextension : l.workspace.extension = l'.workspace.extension :=
      congrArg (·.workspace.extension) hl
    have hregistry : l.workspace.registry = l'.workspace.registry :=
      congrArg (·.workspace.registry) hl
    have hreads : l.reads = l'.reads := congrArg (·.reads) hl
    have hpath : l.workspace.target d i = l'.workspace.target d' i := by
      rw [target, target, hextension, hd]
    rw [loadImports, loadImports]
    simp only [hpath, hregistry, hd, hreads]
    generalize l'.workspace.target d' i = path
    have hread : bare { l with reads := l'.reads ++ [path] } =
        bare { l' with reads := l'.reads ++ [path] } :=
      congrArg (Loading.mk · _) (congrArg Loading.workspace hl)
    split
    · exact ih hl
    · split
      · cases fs.texts.find? path with
        | none => exact Prod.ext hread rfl
        | some text =>
          have hone := hload path text _ _ hread
          dsimp only
          generalize load path text { l with reads := l'.reads ++ [path] } = x,
            load path text { l' with reads := l'.reads ++ [path] } = x' at hone
          obtain ⟨k, e⟩ := x
          obtain ⟨k', e'⟩ := x'
          obtain ⟨hk, rfl⟩ := Prod.mk.inj hone
          cases e with
          | none => exact ih hk
          | some e => exact Prod.ext hk rfl
      · exact Prod.ext hl rfl

theorem load_alike (fs : FileSystem) (depth : Nat) (path text : String) (hl : l.bare = l'.bare) :
    (load fs depth path text l).map bare id = (load fs depth path text l').map bare id := by
  induction depth generalizing path text l l' with
  | zero => exact Prod.ext hl rfl
  | succ depth ih =>
    have hnote := note_alike hl (.loading path)
    rw [load, load]
    cases Draft.read path text with
    | error fault => exact Prod.ext hnote rfl
    | ok d =>
      exact loadImports_alike fs (fun path text l l' hl => ih path text hl) rfl d.imports
        (insert_alike hnote rfl path)

/-- **A text and the text without its remarks load the same files**, or both are refused. -/
theorem run_withoutRemarks (fs : FileSystem) (path text : String) (l : Loading) :
    (∃ k k' e e', run fs path text l = (k, some e) ∧ run fs path (withoutRemarks text) l =
      (k', some e')) ∨
      (run fs path text l).map bare id = (run fs path (withoutRemarks text) l).map bare id := by
  have hread := both_read_withoutRemarks path text
  rw [run, run, load, load]
  generalize Draft.read path text = x, Draft.read path (withoutRemarks text) = x' at hread
  cases hread with
  | error => exact .inl ⟨_, _, _, _, rfl, rfl⟩
  | @ok d d' hd =>
    have hfile : d.file = d'.file := (congrArg Draft.file hd : (d.bare id).file = (d'.bare id).file)
    have himports : d.imports = d'.imports := by
      have hmap : d.imports.map (Import.bare id) = d'.imports.map (Import.bare id) :=
        congrArg imports hd
      rwa [show Import.bare id = id from rfl, List.map_id, List.map_id] at hmap
    refine .inr ?_
    simp only [himports]
    exact loadImports_alike fs (fun path text l l' hl => load_alike fs _ path text hl) hfile
      d'.imports
      (insert_alike (l := { l with workspace := l.workspace.note (.loading path) }) rfl hd path)

end Loading

/-! ## Compiling -/

namespace Compilation

/-- The models that a compilation gives, without documentation and comments. -/
def bareModels (c : Compilation) : Option Library := c.result.toOption.map Library.bare

variable {fs : FileSystem} {extension path text : String}

theorem result_ofText_eq_ok_iff {lib : Library} :
    (ofText fs extension path text).result = .ok lib ↔
      ∃ l, Loading.run fs (Path.absolute path) text ⟨.empty extension, []⟩ = (l, none) ∧
        l.workspace.Gives (Path.absolute path) lib := by
  constructor
  · intro h
    obtain ⟨l, w, ids, hrun, hrefine, hbuild⟩ := stages_of_ok h
    obtain ⟨hloaded, hfile⟩ := loaded_run (Loading.sourceOf_source fs (Path.absolute path) text)
      (Loading.source_self fs (Path.absolute path) text) hrun
    obtain ⟨d, hd⟩ := (hloaded.settled_refineAll hrefine).2 hfile
    rw [build, ← draftAt?, hd] at hbuild
    simp only at hbuild
    split at hbuild
    · cases hbuild
    · next events hmodels =>
      cases hbuild
      exact ⟨l, hrun, w, ids, d, events, hrefine, hd, hmodels⟩
  · rintro ⟨l, hrun, w, ids, d, events, hrefine, hd, hmodels⟩
    have hdraft : (w.registry.find? (Path.absolute path)).bind w.draft? = some d := hd
    simp only [ofText, ofTextAfter, hrun, hrefine, build, hdraft, hmodels]

theorem bareModels_of_run {text' : String}
    (hrun : (Loading.run fs (Path.absolute path) text ⟨.empty extension, []⟩).map Loading.bare id =
      (Loading.run fs (Path.absolute path) text' ⟨.empty extension, []⟩).map Loading.bare id)
    {models : Library} (h : (ofText fs extension path text).bareModels = some models) :
    (ofText fs extension path text').bareModels = some models := by
  obtain ⟨lib, hlib, rfl⟩ := exists_of_map_toOption h
  obtain ⟨l, hl, hgives⟩ := result_ofText_eq_ok_iff.1 hlib
  rw [hl] at hrun
  rcases hl' : Loading.run fs (Path.absolute path) text' ⟨.empty extension, []⟩ with ⟨l', e⟩
  rw [hl'] at hrun
  obtain ⟨hbare, he⟩ := Prod.mk.inj hrun
  obtain rfl : none = e := he
  obtain ⟨lib', hgives', hmodels⟩ := gives_of_bare_eq (fresh_run hl).asRead
    (fresh_run hl').asRead (congrArg Loading.workspace hbare) hgives
  have hok := result_ofText_eq_ok_iff.2 ⟨l', hl', hgives'⟩
  rw [bareModels, hok, hmodels]
  rfl

/-- **Remarks carry no meaning**: a text is compiled if and only if the text without its
    remarks is, and the models are then the same but for their documentation and comments. -/
theorem ofText_withoutRemarks (fs : FileSystem) (extension path text : String) :
    (ofText fs extension path text).bareModels =
      (ofText fs extension path (withoutRemarks text)).bareModels := by
  rcases Loading.run_withoutRemarks fs (Path.absolute path) text ⟨.empty extension, []⟩ with
    ⟨k, k', e, e', hrun, hrun'⟩ | hrun
  · rw [ofText, ofText, ofTextAfter, ofTextAfter, hrun, hrun']
    cases e <;> cases e' <;> rfl
  · exact Option.ext fun models => ⟨bareModels_of_run hrun, bareModels_of_run hrun.symm⟩

end Compilation

/-! ## Comments that cannot be blanked out -/

/-- A text with blanks in place of all its comments, up to their line ends. -/
def withoutComments (text : String) : String :=
  String.ofList ((Lexer.pieces text.toList).flatMap fun x =>
    if x.comment?.isSome then Lexer.blankOut x.image else x.image)

/-- The text of a default that is not read any further. -/
def DefaultValue.raw? : DefaultValue → Option String
  | .raw s => some s
  | _ => none

/-- The texts of the defaults of a library that are not read any further. -/
def Library.rawDefaults (lib : Library) : List String :=
  (((lib.values.flatMap (·.namespaces)).flatMap (·.messages)).flatMap (·.fields)).filterMap fun x =>
    x.default.bind DefaultValue.raw?

namespace Compilation

/-- The compilation of a text that imports nothing. -/
def alone (text : String) : Compilation := ofText ⟨.empty, [], fun _ => ""⟩ ".def" "/a.def" text

theorem alone_withoutComments :
    (alone "message M\x7bp:float\x7bx\x7d=\x7b1/**/\x7d\x7d").bareModels ≠
        (alone (withoutComments "message M\x7bp:float\x7bx\x7d=\x7b1/**/\x7d\x7d")).bareModels ∧
      (alone "/*\r*/").bareModels.isSome = true ∧
        (alone (withoutComments "/*\r*/")).bareModels.isSome = false ∧
      (alone "message M\x7bs:string=\"/*\\\u2028*/\"\x7d").bareModels.isSome = false ∧
      (alone (withoutComments "message M\x7bs:string=\"/*\\\u2028*/\"\x7d")).bareModels.isSome =
        true := by
  refine ⟨fun heq => ?_, by decide +kernel, by decide +kernel, by decide +kernel, by decide +kernel⟩
  exact absurd (congrArg (Option.map Library.rawDefaults) heq) (by decide +kernel)

end Compilation

end MessageSchema
