/-
  Every failure of a compilation is reported.

  With files that can be read, a compilation of one of them gives its model, or at least
  one fault; and every fault names a file that was read and one of its lines.

  * `Workspace.Settled.acyclic`: files in the order of the passes do not import themselves,
    so that no build breaks off for that;
  * `Build.run_cases`: a build gives the model of its draft, or reports faults.
-/
import MessageSchema.Proofs.Accumulation
import MessageSchema.Proofs.PlacedFaults

namespace MessageSchema

variable {Q : String → Nat → Prop}

namespace Workspace

variable {w : Workspace} {d : Draft} {ext f : String}

theorem Wired.draftAt?_of_reached (hw : w.Wired ext) (hd : w.draftAt? f = some d)
    {x : Draft} (hx : Relation.ReflTransGen w.Attaches d x) : w.draftAt? x.file = some x := by
  induction hx with
  | refl => rwa [hw.file hd]
  | tail _ hlast ih =>
    obtain ⟨key, hlast⟩ := hlast
    exact (hw.mem_attachedTo ih hlast).1

theorem Settled.acyclic {source : String → Option String} (h : w.Settled ext source)
    (hd : w.draftAt? f = some d) : w.Acyclic d := by
  obtain ⟨rank, -, hrank⟩ := h.ranked
  refine acyclic_of_reached rank ?_
  rintro x hx e ⟨key, he⟩
  have hat := h.wired.draftAt?_of_reached hd hx
  exact hrank hat _ (h.wired.mem_attachedTo hat he).2

theorem placed_of_mem_importTable (hd : d.Placed Q) {e : String × String}
    (he : e ∈ (w.importTable d).entries) : Q d.file (Model.importLine d e.1) := by
  rcases Table.find?_foldl_insert ((Table.mem_entries_iff _ _ _).1 he) with ⟨⟨key, x⟩, hx,
    hkey, -⟩ | hnone
  · obtain ⟨⟨k, id⟩, hlink, hsome⟩ := List.mem_filterMap.1 hx
    obtain ⟨y, -, heq⟩ := Option.map_eq_some_iff.1 hsome
    cases heq
    exact hkey ▸ hd.link ((Table.mem_entries_iff _ _ _).1 hlink)
  · cases hnone

theorem allPlaced_reported (hd : d.Placed Q) (lib : Library) :
    Model.AllPlaced Q (w.reported lib d) := by
  unfold reported
  split
  · exact Model.allPlaced_ofDraft lib hd fun e he => placed_of_mem_importTable hd he
  · exact List.forall_mem_nil _

end Workspace

theorem Build.run_cases {w : Workspace} {d : Draft} (hd : w.Acyclic d) :
    ∃ lib events, (run w .empty d = (lib, events, .ok ()) ∧ lib.contains d.file = true) ∨
      ∃ order faults, w.Visits [d] [] order ∧ faults = order.flatMap (w.reported lib) ∧
        faults ≠ [] ∧
        run w .empty d = (lib, events, .error ⟨faults⟩) := by
  have hdepth : unlisted (w.drafts.map (·.file)) ([] ++ [d.file]) < w.drafts.length + 1 :=
    Nat.lt_succ_of_le ((unlisted_le _ _).trans (List.length_map _).le)
  have hinOrder : InOrder w (file w (w.drafts.length + 1) []) d :=
    file_eq_settled hd .refl (fun f hf => nomatch hf) hdepth
  obtain ⟨order, hvisits, hfile⟩ := hinOrder [] (.nil w)
  have hiff := faults_settled_eq_nil_iff hvisits hd
  have hrun : run w .empty d = if (settled w order).library.contains d.file &&
    (settled w order).faults.isEmpty
      then ((settled w order).library, (settled w order).events, .ok ())
      else ((settled w order).library,
        (settled w order).events ++ [.failed d.file (settled w order).faults.length],
        .error ⟨(settled w order).faults⟩) := by
    rw [run, show ({ library := .empty } : Build) = settled w [] from rfl, hfile]
  by_cases hnone : (settled w order).faults = []
  · have hhas := hiff.1 hnone
    refine ⟨_, (settled w order).events, .inl ⟨hrun.trans (if_pos ?_), hhas⟩⟩
    simp [hhas, hnone]
  · have hfaults := (tallied_settled hvisits hd).faults
    refine ⟨_, _, .inr ⟨order, _, hvisits, hfaults, hnone, hrun.trans (if_neg ?_)⟩⟩
    simp [hnone]

namespace Compilation

/-- The model of a file is among the results, or there is at least one fault, and all are
    at places `Q`. -/
def Answers (Q : String → Nat → Prop) (file : String) (result : Except Failure Library) : Prop :=
  (∃ lib m, result = .ok lib ∧ lib.find? file = some m) ∨
    ∃ r, result = .error (.rejected r) ∧ r.faults ≠ [] ∧ Model.AllPlaced Q r.faults

variable {ext file : String}

theorem answers_stop (file : String) (l : Loading) {fault : Fault} (h : fault.Placed Q) :
    Answers Q file (stop file l fault).result :=
  .inr ⟨⟨[fault]⟩, rfl, List.cons_ne_nil _ _, List.forall_mem_singleton.2 h⟩

theorem answers_build {source : String → Option String} {l : Loading}
    (hsettled : l.workspace.Settled ext source) (hplaced : l.workspace.Placed Q) {d : Draft}
    (hd : l.workspace.draftAt? file = some d) : Answers Q file (build file l).result := by
  have hfile := hsettled.wired.file hd
  rw [build, ← Workspace.draftAt?, hd]
  obtain ⟨lib, events, ⟨hrun, hhas⟩ | ⟨order, faults, hvisits, hfaults, hne, hrun⟩⟩ :=
    Build.run_cases (hsettled.acyclic hd)
  · simp only [hrun]
    rw [hfile] at hhas
    obtain ⟨m, hm⟩ := (Table.contains_iff _ _).1 hhas
    exact .inl ⟨lib, m, rfl, hm⟩
  · simp only [hrun]
    refine .inr ⟨⟨faults⟩, rfl, hne, fun f hf => ?_⟩
    rw [hfaults] at hf
    obtain ⟨e, he, hf⟩ := List.mem_flatMap.1 hf
    have hreached : Relation.ReflTransGen l.workspace.Attaches d e := by
      rcases hvisits.leads he with he | ⟨x, hx, he, -⟩
      · cases he
      · rwa [← List.mem_singleton.1 hx]
    obtain ⟨id, -, hmem⟩ :=
      Option.bind_eq_some_iff.1 (hsettled.wired.draftAt?_of_reached hd hreached)
    exact Workspace.allPlaced_reported (hplaced.draft? hmem) lib f hf

theorem reads_build (file : String) (l : Loading) : (build file l).reads = l.reads := by
  unfold build
  simp only
  split
  · rfl
  · split <;> rfl

/-- Compiling a text that has been read, with files that can be read. -/
theorem answers_ofTextAfter {fs : FileSystem} {text : String} {reads : List String}
    (hfs : ∀ p, fs.exists p = true → fs.texts.contains p = true)
    (htext : fs.texts.find? file = some text) (hfile : file ∈ reads) :
    Answers (Loading.LineOf fs (ofTextAfter reads fs ext file text).reads) file
      (ofTextAfter reads fs ext file text).result := by
  have hnew : ¬ Loading.Has ⟨.empty ext, reads⟩ file := by
    intro hhas
    cases hhas
  generalize hrun : Loading.run fs file text ⟨.empty ext, reads⟩ = r
  have hgood := ((Loading.run_eq_iff hnew).1 hrun).good hfs htext hfile rfl
  obtain ⟨l, x⟩ := r
  cases x with
  | some x =>
    obtain ⟨fault, rfl, hfault⟩ := hgood.2 x rfl
    simp only [ofTextAfter, hrun]
    exact answers_stop file l hfault
  | none =>
    obtain ⟨hloaded, hregistered⟩ := loaded_run (fun _ _ => rfl) htext hrun
    generalize hrefine : l.workspace.refineAll = s
    have hleaves := Workspace.leaves_refineAll hgood.1
    rw [hrefine] at hleaves
    obtain ⟨w, result⟩ := s
    cases result with
    | error fault =>
      simp only [ofTextAfter, hrun, hrefine]
      exact answers_stop file _ hleaves.2
    | ok ids =>
      obtain ⟨hsettled, hkept⟩ := hloaded.settled_refineAll hrefine
      obtain ⟨d, hd⟩ := hkept hregistered
      simp only [ofTextAfter, hrun, hrefine]
      rw [reads_build]
      exact answers_build (l := { l with workspace := w }) hsettled hleaves.1 hd

/-- **Every failure is reported.**  If all files that exist can be read, compiling one of
    them gives models, that of the file among them, or at least one fault; and every fault
    names a file that was read and one of its lines. -/
theorem ofFile_reports {fs : FileSystem} (ext : String) {path : String}
    (hfs : ∀ p, fs.exists p = true → fs.texts.contains p = true)
    (hpath : fs.exists (Path.absolute path) = true) :
    (∃ lib m, (ofFile fs ext path).result = .ok lib ∧ lib.find? (Path.absolute path) = some m) ∨
      ∃ r, (ofFile fs ext path).result = .error (.rejected r) ∧ r.faults ≠ [] ∧
        ∀ f ∈ r.faults, f.file ∈ (ofFile fs ext path).reads ∧
          ∃ text, fs.texts.find? f.file = some text ∧
          1 ≤ f.line ∧ f.line ≤ Text.lineCount text := by
  obtain ⟨text, htext⟩ := (Table.contains_iff _ _).1 (hfs _ hpath)
  have hfile : ofFile fs ext path = ofTextAfter [Path.absolute path] fs ext
      (Path.absolute path) text := by
    simp only [ofFile, htext]
  rw [hfile]
  rcases answers_ofTextAfter hfs htext List.mem_cons_self with ⟨lib, m, hok, hm⟩ | ⟨r,
    hr, hne, hplaced⟩
  · exact .inl ⟨lib, m, hok, hm⟩
  · refine .inr ⟨r, hr, hne, fun f hf => ?_⟩
    obtain ⟨n, hn, hread, text', htext', hline⟩ := hplaced f hf
    refine ⟨hread, text', htext', ?_⟩
    rw [hn]
    exact ⟨Int.ofNat_le.2 hline.1, Int.ofNat_le.2 hline.2⟩

/-- The places of the faults that a compilation ends with. -/
def places (c : Compilation) : List (String × Int) :=
  match c.result with
  | .error (.rejected r) => r.faults.map fun f => (f.file, f.line)
  | _ => []

/-- A file that imports one with an unknown name, on a line after a carriage return in a
    comment and a line feed. -/
def commented : FileSystem where
  texts := Table.empty
    |>.insert "/a.def" "import \"b.def\" message A \x7b b: B \x7d"
    |>.insert "/b.def" "/*\r*/\nmessage B \x7b c: C \x7d"
  unreadable := []
  refusal := id

theorem ofFile_reports_commented :
    (∀ p, commented.exists p = true → commented.texts.contains p = true) ∧
    commented.exists (Path.absolute "/a.def") = true ∧
      Text.lineCount "/*\r*/\nmessage B \x7b c: C \x7d" = 3 ∧
    ∃ r, (ofFile commented ".def" "/a.def").result = .error (.rejected r) ∧
      r.faults.map (fun f => (f.file, f.line)) = [("/b.def", 3)] ∧
      ∀ f ∈ r.faults, f.file ∈ (ofFile commented ".def" "/a.def").reads ∧
        ∃ text, commented.texts.find? f.file = some text ∧ 1 ≤ f.line ∧
          f.line ≤ Text.lineCount text := by
  have hfs : ∀ p, commented.exists p = true → commented.texts.contains p = true := by
    intro p hp
    simpa [FileSystem.exists, commented] using hp
  have hpath : commented.exists (Path.absolute "/a.def") = true := by decide +kernel
  have hplaces : (ofFile commented ".def" "/a.def").places = [("/b.def", 3)] := by decide +kernel
  refine ⟨hfs, hpath, by decide +kernel, ?_⟩
  rcases ofFile_reports ".def" hfs hpath with ⟨lib, m, hok, -⟩ | ⟨r, hr, -, hfaults⟩
  · rw [places, hok] at hplaces
    cases hplaces
  · rw [places, hr] at hplaces
    exact ⟨r, hr, hplaces, hfaults⟩

end Compilation

end MessageSchema
