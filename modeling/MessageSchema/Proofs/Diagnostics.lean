/-
  Reading a text up to its first fault and reading it on.
-/
import MessageSchema.Draft.Reading
import MessageSchema.Proofs.StepBound

namespace MessageSchema

namespace Machine

variable {m : Machine}

/-- The token that a machine complains of first. -/
def firstOffence (m : Machine) : Option (Option Token) := m.complaints.head?.map (·.token)

variable {t : Option Token} {f : Frame} {callers : List Frame}

theorem firstOffence_eq_none_iff : m.firstOffence = none ↔ m.complaints = [] := by
  simp [firstOffence]

theorem firstOffence_of_isPrefix {m' : Machine} (h : m.complaints <+: m'.complaints)
    (ht : m.firstOffence = some t) : m'.firstOffence = some t := by
  obtain ⟨rest, hrest⟩ := h
  cases hc : m.complaints with
  | nil => simp [firstOffence, hc] at ht
  | cons c cs =>
    rw [firstOffence, hc] at ht
    rw [firstOffence, ← hrest, hc]
    exact ht

theorem firstOffence_complainOfRest (h : m.firstOffence = some t) :
    m.complainOfRest.firstOffence = some t :=
  firstOffence_of_isPrefix prefix_complaints_complainOfRest h

theorem run_of_frames_eq_nil (h : m.frames = []) (policy : Policy) (n : Nat) :
    m.run policy n = m := by
  cases n with
  | zero => rfl
  | succ n => rw [run, if_pos (List.isEmpty_iff.2 h)]

theorem run_succ (h : m.frames = f :: callers) (policy : Policy) (n : Nat) :
    m.run policy (n + 1) = (m.step policy).run policy n := by
  rw [run, if_neg (by simp [h])]

/-- A frame that needs another token than the next, or no more tokens, leads to a complaint
    of the next token. -/
theorem firstOffence_of_mustFollow {must : Option Kind}
    (hf : m.frames = f :: callers) (hmust : mustFollow f.pending callers = some must)
    (hnext : m.cursor.next ≠ must) (hm : m.complaints = []) (n : Nat) :
    (m.run .strict (n + 1)).complainOfRest.firstOffence = some m.cursor.ahead.head? := by
  rw [run_succ hf]
  unfold mustFollow at hmust
  split at hmust
  · next _ k items hp =>
    cases hmust
    have hstep : m.step .strict = (m.complain (.token (some k))).fail .strict := by
      rw [step, hf]
      simp only [hp]
      rw [token, if_neg hnext]
    rw [hstep, run_of_frames_eq_nil rfl]
    refine firstOffence_complainOfRest ?_
    simp [firstOffence, fail, complain, hm]
  · next hp =>
    cases hmust
    have hstep : m.step .strict = m.close f [] := by
      rw [step, hf]
      simp only [hp]
    have hrest : (m.close f []).cursor.ahead.isEmpty = false := by
      rcases ha : m.cursor.ahead with _ | ⟨t, ts⟩
      · exact absurd (by simp [Cursor.next, ha]) hnext
      · simp [close, ha]
    rw [hstep, run_of_frames_eq_nil rfl, complainOfRest, hrest]
    simp [firstOffence, complain, close, hm]
  · cases hmust

/-- What a strict and a recovering run have in common. -/
structure Agree (strict recovering : Machine) : Prop where
  firstOffence : strict.firstOffence = recovering.firstOffence
  eq : strict.complaints = [] → recovering = strict

theorem Agree.of_some {s r : Machine} (hs : s.firstOffence = some t)
    (hr : r.firstOffence = some t) : Agree s r := by
  refine ⟨hs.trans hr.symm, fun hnone => ?_⟩
  rw [firstOffence_eq_none_iff.2 hnone] at hs
  cases hs

/-- **The machines go together** up to the first complaint, if the strict one stops. -/
theorem agree_run {n : Nat} (hm : m.complaints = []) (hend : (m.run .strict n).frames = []) :
    Agree (m.run .strict n).complainOfRest (m.run .recovering n).complainOfRest := by
  induction n generalizing m with
  | zero => exact ⟨rfl, fun _ => rfl⟩
  | succ n ih =>
    cases hf : m.frames with
    | nil =>
      rw [run_of_frames_eq_nil hf, run_of_frames_eq_nil hf]
      exact ⟨rfl, fun _ => rfl⟩
    | cons f callers =>
      rw [run_succ hf] at hend ⊢
      rw [run_succ hf]
      have halike := steps_alike hf
      generalize m.step .strict = s, m.step .recovering = r at halike hend ⊢
      -- what the recovering machine complains of in this step stays its first offence
      have hfirst : ∀ {e}, r.complaints = m.complaints ++ [⟨e, m.cursor.ahead.head?⟩] →
          (r.run .recovering n).complainOfRest.firstOffence = some m.cursor.ahead.head? := by
        intro e hnew
        have hr : r.firstOffence = some m.cursor.ahead.head? := by simp [firstOffence, hnew, hm]
        exact firstOffence_complainOfRest (firstOffence_of_isPrefix (prefix_complaints_run n) hr)
      cases halike with
      | move hmove => exact ih (hmove.complaints_eq.trans hm) hend
      | @complaint e _ hnew =>
        refine .of_some ?_ (hfirst hnew)
        rw [run_of_frames_eq_nil rfl]
        refine firstOffence_complainOfRest ?_
        simp [firstOffence, fail, complain, hm]
      | @early items must _ hunfolds hmust hnext hnew =>
        cases n with
        | zero => cases hend
        | succ n =>
          refine .of_some ?_ (hfirst hnew)
          exact firstOffence_of_mustFollow
            (m := { m with frames := { f with pending := items } :: callers }) rfl hmust hnext hm n

/-! ## Whole texts -/

theorem tree_or_complaints (n : Nat) (h : m.frames ≠ []) (hend : (m.run .strict n).frames = []) :
    (m.run .strict n).complaints ≠ [] ∨ ∃ t, (m.run .strict n).tree = some t := by
  induction n generalizing m with
  | zero => exact absurd hend h
  | succ n ih =>
    cases hf : m.frames with
    | nil => exact absurd hf h
    | cons f callers =>
      rw [run_succ hf] at hend ⊢
      have halike := steps_alike hf
      generalize m.step .strict = s, m.step .recovering = r at halike hend ⊢
      by_cases hs : s.frames = []
      · rw [run_of_frames_eq_nil hs]
        cases halike with
        | move hmove =>
          cases hmove with
          | close =>
            cases callers with
            | nil => exact .inr ⟨_, rfl⟩
            | cons g gs => cases hs
          | take | enter | goOn => cases hs
        | complaint => exact .inl (by simp [fail, complain])
        | early => cases hs
      · exact ih hs hend

/-- **Both policies agree on every text**, and the strict one gives a tree or a complaint. -/
theorem agree_parse (tokens : List Token) :
    Agree (parse .strict tokens) (parse .recovering tokens) :=
  agree_run rfl (frames_run_strict tokens)

theorem tree_complainOfRest : m.complainOfRest.tree = m.tree := by
  rw [complainOfRest]
  split
  · rfl
  · rfl

theorem exists_tree_of_parse {tokens : List Token} (h : (parse .strict tokens).complaints = []) :
    ∃ t, (parse .strict tokens).tree = some t := by
  rw [parse, tree_complainOfRest]
  refine (tree_or_complaints _ (by simp [start]) (frames_run_strict tokens)).resolve_left
    fun hsome => hsome ?_
  have hprefix :=
    prefix_complaints_complainOfRest (m := (start tokens).run .strict (stepBound tokens.length))
  rw [parse] at h
  rw [h] at hprefix
  exact List.prefix_nil.1 hprefix

end Machine

/-- A diagnostic that starts on the line of a fault and, unless that is at the end of the
    text, at the same character. -/
structure Diagnostic.StartsAt (d : Diagnostic) (fault : Fault) : Prop where
  line : d.range.start.line = fault.diagnostic.range.start.line
  start : fault.token ≠ none → d.range.start = fault.diagnostic.range.start

namespace Source

theorem startsAt_stray (file : String) (s : Stray) :
    (strayDiagnostic file s).StartsAt (strayFault file s) := by
  have hstart : (strayDiagnostic file s).range.start =
      (strayFault file s).diagnostic.range.start := by
    simp only [strayDiagnostic, strayFault, Fault.diagnostic, Point.mk.injEq, Option.some.injEq]
    omega
  exact ⟨congrArg Point.line hstart, fun _ => hstart⟩

theorem startsAt_complaint (file : String) (tokens : List Token) {c c' : Complaint}
    (h : c.token = c'.token) :
    (complaintDiagnostic file tokens c').StartsAt (complaintFault file tokens c) := by
  rw [complaintDiagnostic, complaintFault, ← h]
  cases c.token with
  | none =>
    refine ⟨?_, fun hsome => absurd rfl hsome⟩
    simp only [Fault.diagnostic, Option.some.injEq]
    omega
  | some t =>
    have hstart : (⟨some (t.first.line - 1), some (t.first.column - 1)⟩ : Point) =
        ⟨some ((t.first.line : Int) - 1).toNat, some ((t.first.column : Int) - 1).toNat⟩ := by
      simp only [Point.mk.injEq, Option.some.injEq]
      omega
    exact ⟨congrArg Point.line hstart, fun _ => hstart⟩

/-- A text is read with no diagnostics, or there is a fault where the first one starts. -/
theorem read_or_fault (file text : String) :
    (∃ s, read file text = .ok s ∧ check file text = (some s, [])) ∨
    ∃ fault d ds, read file text = .error fault ∧ check file text = (none, d :: ds) ∧
      d.StartsAt fault := by
  rw [read, check]
  generalize Scan.ofText text = scan
  have hagree := Machine.agree_parse scan.tokens
  cases hstrays : scan.strays with
  | cons s rest =>
    refine .inr ⟨strayFault file s, strayDiagnostic file s, rest.map (strayDiagnostic file) ++
      (Machine.parse .recovering scan.tokens).complaints.map (complaintDiagnostic file scan.tokens),
      rfl, ?_, startsAt_stray file s⟩
    simp
  | nil =>
    cases hstrict : (Machine.parse .strict scan.tokens).complaints with
    | nil =>
      obtain ⟨tree, htree⟩ := Machine.exists_tree_of_parse hstrict
      refine .inl ⟨⟨file, text, scan.tokens, scan.comments, tree⟩, ?_, ?_⟩
      · simp [hstrict, htree]
      · simp [hagree.eq hstrict, hstrict, htree]
    | cons c cs =>
      have hfirst := hagree.firstOffence
      rw [Machine.firstOffence, Machine.firstOffence, hstrict] at hfirst
      cases hrecovering : (Machine.parse .recovering scan.tokens).complaints with
      | nil =>
        rw [hrecovering] at hfirst
        cases hfirst
      | cons c' cs' =>
        rw [hrecovering] at hfirst
        refine .inr ⟨complaintFault file scan.tokens c, complaintDiagnostic file scan.tokens c',
          cs'.map (complaintDiagnostic file scan.tokens), ?_, ?_,
          startsAt_complaint file scan.tokens (Option.some.inj hfirst)⟩
        · simp [hstrict]
        · simp

/-- **Reading a text up to its first fault and reading it on agree.**  It can be read if
    and only if there are no diagnostics, and then to the same tree and the same draft;
    otherwise the first diagnostic starts on the line of the fault and, unless that is at
    the end of the text, at the same character. -/
theorem check_agrees (file text : String) :
    ((∃ s, read file text = .ok s) ↔ (check file text).2 = []) ∧
    (check file text).1 = (read file text).toOption ∧
    (∀ stem, (check file text).1.map (Draft.ofSource stem) = (read file text).toOption.map
      (Draft.ofSource stem)) ∧
    ∀ fault, read file text = .error fault → ∃ d ds, (check file text).2 = d :: ds ∧
      d.range.start.line = fault.diagnostic.range.start.line ∧
      (fault.token ≠ none → d.range.start.character = fault.diagnostic.range.start.character) := by
  rcases read_or_fault file text with ⟨s, hread, hcheck⟩ | ⟨fault, d, ds, hread, hcheck, hstarts⟩
  · rw [hread, hcheck]
    refine ⟨⟨fun _ => rfl, fun _ => ⟨s, rfl⟩⟩, rfl, fun _ => rfl, fun fault hfault => ?_⟩
    cases hfault
  · rw [hread, hcheck]
    refine ⟨⟨fun ⟨s, hs⟩ => ?_, fun hnil => ?_⟩, rfl, fun _ => rfl, fun fault' hfault => ?_⟩
    · cases hs
    · cases hnil
    · cases hfault
      exact ⟨d, ds, rfl, hstarts.line, fun hsome => congrArg Point.character (hstarts.start hsome)⟩

theorem check_agrees_import :
    (∃ d ds, (check "a" "\nimport b").2 = d :: ds ∧ d.range.start.line = some 1 ∧
      d.range.start.character = some 7) ∧
    ∃ d ds, (check "a" "\nimport").2 = d :: ds ∧ d.range.start.line = some 1 := by
  have hread : ∀ {text fault}, (read "a" text).map (fun _ => ()) = .error fault →
      read "a" text = .error fault := by
    intro text fault h
    cases hr : read "a" text with
    | ok s =>
      rw [hr] at h
      cases h
    | error fault' =>
      rw [hr] at h
      cases h
      rfl
  have hword : read "a" "\nimport b" = .error
      { cause := .unexpected (.token (some .text)) "b"
        file := "a", line := 2, column := 8, token := some "b" } :=
    hread (by decide +kernel)
  have hend : read "a" "\nimport" = .error
      { cause := .unexpected (.token (some .text)) "", file := "a", line := 2 } :=
      hread (by decide +kernel)
  obtain ⟨d, ds, hd, hline, hcharacter⟩ := (check_agrees "a" "\nimport b").2.2.2 _ hword
  obtain ⟨d', ds', hd', hline', -⟩ := (check_agrees "a" "\nimport").2.2.2 _ hend
  exact ⟨⟨d, ds, hd, hline, hcharacter (by simp)⟩, d', ds', hd', hline'⟩

end Source

end MessageSchema
