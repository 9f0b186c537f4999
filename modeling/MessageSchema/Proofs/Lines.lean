/-
  The lines of a text, and what stands on them.

  A text has one line more than line breaks; a line feed, a carriage return and the two
  together each break a line once.

  * `hasLine_of_mem_tokens`, `hasLine_of_mem_strays`: so do its tokens and stray runs.
-/
import MessageSchema.Proofs.Blanking
import MessageSchema.Proofs.Diagnostics

namespace MessageSchema

open List Text

namespace Text

/-- The number of line breaks of a text: a line feed, a carriage return with a line
    feed, and a carriage return alone count once each. -/
def lineBreaks : List Char → Nat
  | [] => 0
  | '\r' :: '\n' :: s => lineBreaks s + 1
  | c :: s => if c = '\n' ∨ c = '\r' then lineBreaks s + 1 else lineBreaks s

/-- The number of lines of a text. -/
def lineCount (text : String) : Nat := lineBreaks text.toList + 1

/-- A text has a line with this number, counted from one. -/
def HasLine (text : String) (n : Nat) : Prop := 1 ≤ n ∧ n ≤ lineCount text

theorem lineBreaks_cons (c : Char) (s : List Char) : lineBreaks (c :: s) =
    lineBreaks s + if c = '\n' ∨ c = '\r' ∧ s.head? ≠ some '\n' then 1 else 0 := by
  by_cases hpair : c = '\r' ∧ s.head? = some '\n'
  · obtain ⟨rfl, hfeed⟩ := hpair
    obtain ⟨s', rfl⟩ := head?_eq_some_iff.1 hfeed
    simp [lineBreaks]
  · rw [lineBreaks]
    · by_cases hfeed : c = '\n'
      · simp [hfeed]
      · by_cases hreturn : c = '\r'
        · simp [hreturn, show s.head? ≠ some '\n' from fun h => hpair ⟨hreturn, h⟩]
        · simp [hfeed, hreturn]
    · rintro s' rfl rfl
      exact hpair ⟨rfl, rfl⟩

theorem lineBreaks_le_append (s t : List Char) : lineBreaks t ≤ lineBreaks (s ++ t) := by
  induction s with
  | nil => exact Nat.le_refl _
  | cons c s ih =>
    rw [cons_append, lineBreaks_cons]
    omega

/-- Only a carriage return at the end of a text can lose its break to what comes after. -/
theorem lineBreaks_append {s : List Char} (h : s.getLast? ≠ some '\r') (t : List Char) :
    lineBreaks (s ++ t) = lineBreaks s + lineBreaks t := by
  induction s with
  | nil => simp [lineBreaks]
  | cons c s ih =>
    rw [cons_append, lineBreaks_cons, lineBreaks_cons]
    cases s with
    | nil =>
      have hc : c ≠ '\r' := by simpa using h
      simp [hc, lineBreaks]
      omega
    | cons c' s =>
      rw [getLast?_cons_cons] at h
      rw [ih h, cons_append, head?_cons, head?_cons]
      omega

theorem hasLine_one (text : String) : HasLine text 1 := ⟨Nat.le_refl 1, Nat.le_add_left 1 _⟩

end Text

/-! ## Pieces -/

namespace Lexer

variable {x : Piece}

theorem line_afterLines (p : Position) (s : List Char) :
    (afterLines p s).line = p.line + lineBreaks s := by
  induction s generalizing p with
  | nil => rfl
  | cons c s ih =>
    rw [afterLines, ih, line_stepLine, lineBreaks_cons]
    split <;> omega

/-- A piece leads on by no more lines than it breaks. -/
theorem line_next_le {rest : List Char}
    (h : x.shape = .stray ∨ recognize (x.image ++ rest) = some (x.shape, x.image.length)) :
    x.first.line ≤ x.next.line ∧ x.next.line + lineBreaks rest ≤
      x.first.line + lineBreaks (x.image ++ rest) := by
  have hstays : ∀ p : Position, p.line = x.first.line →
      x.first.line ≤ p.line ∧ p.line + lineBreaks rest ≤
      x.first.line + lineBreaks (x.image ++ rest) := by
    intro p hp
    have hle := lineBreaks_le_append x.image rest
    omega
  have hspans : x.image.getLast? ≠ some '\r' → ∀ p : Position, p = afterLines x.first x.image →
      x.first.line ≤ p.line ∧ p.line + lineBreaks rest ≤
      x.first.line + lineBreaks (x.image ++ rest) := by
    intro hlast p hp
    rw [hp, line_afterLines, lineBreaks_append hlast]
    omega
  obtain ⟨shape, image, first⟩ := x
  dsimp only at h hstays hspans ⊢
  unfold Piece.next after
  split
  · next heq =>
    obtain rfl : shape = .lineEnd := heq
    refine hspans ?_ _ rfl
    rcases h with h | h
    · cases h
    · rcases lineEnd_of_recognize h with rfl | rfl <;> simp
  · next heq =>
    obtain rfl : shape = .comment .block := heq
    refine hspans ?_ _ rfl
    rcases h with h | h
    · cases h
    · cases commentText_of_recognize h with
      | @block y hy =>
        have hslash := (blockLength_take hy).2.2.1
        rw [take_length] at hslash
        rw [getLast?_cons, getLast?_cons, hslash]
        simp
  · exact hstays _ rfl

/-- **The pieces of a text start on its lines.** -/
theorem line_mem_piecesFrom {p : Position} {s : List Char} (h : x ∈ piecesFrom p 0 s) :
    p.line ≤ x.first.line ∧ x.first.line ≤ p.line + lineBreaks s := by
  generalize hps : piecesFrom p 0 s = ps at h
  induction ps generalizing p s with
  | nil => cases h
  | cons y ys ih =>
    obtain ⟨-, hs, hys, hy⟩ := piecesFrom_eq_cons hps
    have hfirst : y.first = p := (hps ▸ laid_piecesFrom p s : Laid p (y :: ys)).1
    rcases mem_cons.1 h with rfl | h
    · rw [hfirst]
      omega
    · have hbounds := ih hys h
      rw [hs] at hy
      have hnext := line_next_le (hy.imp_left And.left)
      rw [hs, ← hfirst]
      omega

theorem hasLine_of_mem_pieces {text : String} (h : x ∈ pieces text.toList) :
    HasLine text x.first.line := by
  have hbounds := line_mem_piecesFrom h
  rw [HasLine, lineCount]
  simp only [Position.origin] at hbounds
  omega

end Lexer

variable {t : Token} {text : String}

theorem Piece.line_token? {x : Piece} (h : x.token? = some t) :
    t.first.line = x.first.line ∧ t.last.line = x.first.line := by
  unfold Piece.token? at h
  split at h
  · next k hshape =>
    cases h
    simp [Piece.lexeme, hshape, Lexer.after, Lexer.afterRun, Lexer.lastOf]
  · cases h

/-- **The tokens of a text stand on its lines**, each on one. -/
theorem hasLine_of_mem_tokens (h : t ∈ (Scan.ofText text).tokens) :
    HasLine text t.first.line ∧ HasLine text t.last.line := by
  obtain ⟨x, hx, ht⟩ := mem_filterMap.1 h
  obtain ⟨hfirst, hlast⟩ := Piece.line_token? ht
  rw [hfirst, hlast]
  exact ⟨Lexer.hasLine_of_mem_pieces hx, Lexer.hasLine_of_mem_pieces hx⟩

theorem hasLine_of_mem_strays {t : Stray} (h : t ∈ (Scan.ofText text).strays) :
    HasLine text t.first.line := by
  obtain ⟨x, hx, ht⟩ := mem_filterMap.1 h
  unfold Piece.stray? at ht
  split at ht
  · cases ht
    exact Lexer.hasLine_of_mem_pieces hx
  · cases ht

/-! ## Complaints -/

theorem Cursor.ahead_advance (c : Cursor) : c.advance.ahead <:+ c.ahead := by
  unfold advance
  split
  · exact suffix_rfl
  · next h =>
    rw [h]
    exact suffix_cons _ _

theorem Cursor.ahead_skip (c : Cursor) (n : Nat) : (c.skip n).ahead <:+ c.ahead := by
  induction n generalizing c with
  | zero => exact suffix_rfl
  | succ n ih => exact (ih c.advance).trans c.ahead_advance

namespace Machine

section
variable {m : Machine} {f : Frame} {callers : List Frame}

theorem cursor_close : (m.close f callers).cursor = m.cursor := by cases callers <;> rfl

theorem ahead_fail (policy : Policy) : (m.fail policy).cursor.ahead <:+ m.cursor.ahead := by
  cases policy with
  | strict => exact suffix_rfl
  | recovering =>
    rw [fail]
    induction m.frames with
    | nil => exact suffix_rfl
    | cons f fs ih =>
      rw [unwind]
      split
      · rw [cursor_close]
        exact Cursor.ahead_skip _ _
      · exact ih

theorem ahead_leave {body items : List Item} :
    (m.leave f callers body items).cursor.ahead <:+ m.cursor.ahead := by
  rw [leave]
  split
  · exact suffix_rfl
  · next must _ =>
    dsimp only
    generalize (if must = none then [] else firstPending items.tail callers) = follows
    split
    · exact suffix_rfl
    · split
      · exact Cursor.ahead_skip _ _
      · exact Cursor.ahead_skip _ _
      · exact suffix_rfl

theorem ahead_token {policy : Policy} {k : Kind} {items : List Item} :
    (m.token policy f callers k items).cursor.ahead <:+ m.cursor.ahead := by
  rw [token]
  split
  · exact Cursor.ahead_advance _
  · cases policy with
    | strict => exact suffix_rfl
    | recovering =>
      dsimp only
      split
      · exact suffix_rfl
      · split
        · exact (Cursor.ahead_advance _).trans (Cursor.ahead_advance _)
        · exact ahead_fail _

/-- **A machine never goes back.** -/
theorem ahead_step (policy : Policy) : (m.step policy).cursor.ahead <:+ m.cursor.ahead := by
  rw [step]
  split
  · exact suffix_rfl
  · split
    · rw [cursor_close]
    · exact ahead_token
    · exact suffix_rfl
    · split <;> exact suffix_rfl
    · split
      · exact suffix_rfl
      · cases policy with
        | strict => exact suffix_rfl
        | recovering => exact ahead_leave
    · split
      · exact suffix_rfl
      · exact ahead_fail policy
    · split
      · exact suffix_rfl
      · exact ahead_fail policy

/-- A step complains of the next token, if at all. -/
theorem complaints_step (policy : Policy) : (m.step policy).complaints = m.complaints ∨
    ∃ e, (m.step policy).complaints = m.complaints ++ [⟨e, m.cursor.ahead.head?⟩] := by
  cases hf : m.frames with
  | nil =>
    rw [step, hf]
    exact .inl rfl
  | cons f callers =>
    have halike := steps_alike hf
    cases policy with
    | strict =>
      generalize m.step .strict = s, m.step .recovering = r at halike ⊢
      cases halike with
      | move hmove => exact .inl hmove.complaints_eq
      | complaint => exact .inr ⟨_, rfl⟩
      | early => exact .inl rfl
    | recovering =>
      generalize m.step .strict = s, m.step .recovering = r at halike ⊢
      cases halike with
      | move hmove => exact .inl hmove.complaints_eq
      | complaint hnew => exact .inr ⟨_, hnew⟩
      | early _ _ _ hnew => exact .inr ⟨_, hnew⟩

end

/-- The tokens that a machine has ahead, and those that it has complained of, satisfy `P`. -/
structure Meets (P : Token → Prop) (m : Machine) : Prop where
  ahead : ∀ t ∈ m.cursor.ahead, P t
  complaints : ∀ c ∈ m.complaints, ∀ t ∈ c.token, P t

variable {P : Token → Prop} {m : Machine}

theorem Meets.complaints_concat (h : m.Meets P) (e : Expectation) :
    ∀ c ∈ m.complaints ++ [⟨e, m.cursor.ahead.head?⟩], ∀ t ∈ c.token, P t := by
  intro c hc t ht
  rcases mem_append.1 hc with hc | hc
  · exact h.complaints c hc t ht
  · obtain rfl := mem_singleton.1 hc
    exact h.ahead t (mem_of_mem_head? ht)

theorem Meets.step (h : m.Meets P) (policy : Policy) : (m.step policy).Meets P := by
  refine ⟨fun t ht => h.ahead t ((ahead_step policy).subset ht), ?_⟩
  rcases complaints_step policy with hsame | ⟨e, hnew⟩
  · rw [hsame]
    exact h.complaints
  · rw [hnew]
    exact h.complaints_concat e

theorem Meets.run (n : Nat) (h : m.Meets P) (policy : Policy) : (m.run policy n).Meets P := by
  induction n generalizing m with
  | zero => exact h
  | succ n ih =>
    rw [Machine.run]
    split
    · exact h
    · exact ih (h.step policy)

/-- **A machine complains of tokens of its text.** -/
theorem mem_of_mem_complaints {policy : Policy} {tokens : List Token} {c : Complaint}
    (hc : c ∈ (parse policy tokens).complaints) {t : Token} (ht : c.token = some t) :
    t ∈ tokens := by
  have hstart : (start tokens).Meets (· ∈ tokens) :=
    ⟨fun _ h => h, fun _ h => absurd h not_mem_nil⟩
  have hrun := hstart.run (stepBound tokens.length) policy
  rw [parse, complainOfRest] at hc
  split at hc
  · exact hrun.complaints c hc t ht
  · exact hrun.complaints_concat _ c hc t ht

end Machine

/-! ## Faults of texts -/

/-- A fault at one of the places `Q`, each given by a file and a line. -/
def Fault.Placed (Q : String → Nat → Prop) (f : Fault) : Prop := ∃ n : Nat, f.line = n ∧ Q f.file n

namespace Source

variable {Q : String → Nat → Prop} {file text : String}

theorem hasLine_lastLine (text : String) : HasLine text (lastLine (Scan.ofText text).tokens) := by
  unfold lastLine
  cases h : (Scan.ofText text).tokens.getLast? with
  | none => exact hasLine_one text
  | some t => exact (hasLine_of_mem_tokens (mem_of_getLast? h)).2

theorem placed_complaintFault (hQ : ∀ n, HasLine text n → Q file n) {c : Complaint}
    (hc : ∀ t, c.token = some t → t ∈ (Scan.ofText text).tokens) :
    (complaintFault file (Scan.ofText text).tokens c).Placed Q := by
  unfold complaintFault
  cases h : c.token with
  | none => exact ⟨_, rfl, hQ _ (hasLine_lastLine text)⟩
  | some t => exact ⟨_, rfl, hQ _ (hasLine_of_mem_tokens (hc t h)).1⟩

/-- **The fault of a text that cannot be read is on a line of it.** -/
theorem placed_of_read (hQ : ∀ n, HasLine text n → Q file n) {fault : Fault}
    (h : read file text = .error fault) : fault.Placed Q := by
  unfold read at h
  simp only at h
  split at h
  · next s rest hstrays =>
    cases h
    exact ⟨_, rfl, hQ _ (hasLine_of_mem_strays (hstrays ▸ mem_cons_self))⟩
  · split at h
    · cases h
    · next c cs _ hcomplaints =>
      cases h
      exact placed_complaintFault hQ fun t ht => Machine.mem_of_mem_complaints
        (hcomplaints ▸ mem_cons_self) ht
    · cases h
      exact placed_complaintFault hQ fun t ht => nomatch ht

end Source

end MessageSchema
