/-
  What a machine does in one step, with either policy.
-/
import MessageSchema.Parser.Machine
import Mathlib.Data.List.Infix

namespace MessageSchema.Machine

/-- What the items of a frame become at a place if the machine goes on there. -/
inductive Unfolds (c : Cursor) : List Item → List Item → Prop
  | skip {body items} : Unfolds c (.optional body :: items) items
  | enter {body items} : Unfolds c (.optional body :: items) (body ++ items)
  | stop {g body items} : (c.startsWith (firstOf body) && c.allows g) = false →
      Unfolds c (.many g body :: items) items
  | round {g body items} : c.allows g = true →
    Unfolds c (.many g body :: items) (body ++ .many g body :: items)
  | first {g body items} : c.allows g = true →
    Unfolds c (.many1 g body :: items) (body ++ .many g body :: items)
  | choose {as a items} : a ∈ as → Unfolds c (.choice as :: items) (a ++ items)

/-- A step without a complaint, in the frame `f`. -/
inductive Move (m : Machine) (f : Frame) (callers : List Frame) : Machine → Prop
  | close : f.pending = [] → Move m f callers (m.close f callers)
  | take {items : List Item} {t : Token} {ts : List Token} : f.pending = .token t.kind :: items →
      m.cursor.ahead = t :: ts → Move m f callers
        { m with
          frames := { f with done := .leaf t :: f.done, pending := items } :: callers
          cursor := ⟨some t, ts⟩ }
  | enter {r : Rule} {items : List Item} : f.pending = .rule r :: items → Move m f callers
      { m with frames := ⟨r, [], r.body⟩ :: { f with pending := items } :: callers }
  | goOn {items : List Item} : Unfolds m.cursor f.pending items → Move m f callers
      { m with frames := { f with pending := items } :: callers }

/-- What a strict and a recovering machine make of the same state. -/
inductive Alike (m : Machine) (f : Frame) (callers : List Frame) : Machine → Machine → Prop
  | move {m' : Machine} : Move m f callers m' → Alike m f callers m' m'
  /-- both complain of the next token -/
  | complaint {e : Expectation} {m' : Machine} :
      m'.complaints = m.complaints ++ [⟨e, m.cursor.ahead.head?⟩] →
      Alike m f callers ((m.complain e).fail .strict) m'
  /-- the strict machine leaves a repetition after which the next token cannot come -/
  | early {items : List Item} {must : Option Kind} {m' : Machine} :
    Unfolds m.cursor f.pending items → mustFollow items callers = some must → m.cursor.next ≠ must →
    m'.complaints = m.complaints ++ [⟨.token must, m.cursor.ahead.head?⟩] →
    Alike m f callers { m with frames := { f with pending := items } :: callers } m'

section
variable {m : Machine} {f : Frame} {callers : List Frame}

@[simp]
theorem complaints_close : (m.close f callers).complaints = m.complaints := by
  cases callers <;> rfl

@[simp]
theorem complaints_unwind (fs : List Frame) : (m.unwind fs).complaints = m.complaints := by
  induction fs with
  | nil => rfl
  | cons f fs ih =>
    rw [unwind]
    split
    · exact complaints_close
    · exact ih

/-- Giving up takes back no complaint. -/
@[simp]
theorem complaints_fail (policy : Policy) : (m.fail policy).complaints = m.complaints := by
  cases policy with
  | strict => rfl
  | recovering => exact complaints_unwind _

theorem alike_fail (e : Expectation) : Alike m f callers ((m.complain e).fail .strict)
    ((m.complain e).fail .recovering) := .complaint (complaints_fail _)

theorem alike_token {k : Kind} {items : List Item} (hp : f.pending = .token k :: items) :
    Alike m f callers (m.token .strict f callers k items)
      (m.token .recovering f callers k items) := by
  rw [token, token]
  split
  · next hk =>
    rcases ha : m.cursor.ahead with _ | ⟨t, ts⟩
    · simp [Cursor.next, ha] at hk
    · obtain rfl : t.kind = k := by simpa [Cursor.next, ha] using hk
      have hmove : Move m f callers _ := .take hp ha
      simpa [Cursor.advance, ha] using Alike.move hmove
  · refine .complaint ?_
    simp only
    split
    · rfl
    · split
      · rfl
      · exact complaints_fail _

theorem alike_leave (body : List Item) {items : List Item}
    (hstop : Unfolds m.cursor f.pending items) :
    Alike m f callers { m with frames := { f with pending := items } :: callers }
      (m.leave f callers body items) := by
  rw [leave]
  cases hmust : mustFollow items callers with
  | none => exact .move (.goOn hstop)
  | some must =>
    simp only
    generalize (if must = none then [] else firstPending items.tail callers) = follows
    split
    · exact .move (.goOn hstop)
    · next hnext =>
      have hne : m.cursor.next ≠ must := fun heq => hnext (.inl heq)
      split
      · exact .early hstop hmust hne rfl
      · exact .early hstop hmust hne rfl
      · exact .move (.goOn hstop)

/-- **What the two policies do in one step.** -/
theorem steps_alike (hf : m.frames = f :: callers) :
    Alike m f callers (m.step .strict) (m.step .recovering) := by
  rw [step, step, hf]
  simp only
  split
  · next hp => exact .move (.close hp)
  · next hp => exact alike_token hp
  · next hp => exact .move (.enter hp)
  · next hp =>
    split
    · exact .move (.goOn (hp ▸ .enter))
    · exact .move (.goOn (hp ▸ .skip))
  · next hp =>
    split
    · next hgo => exact .move (.goOn (hp ▸ .round (Bool.and_eq_true_iff.1 hgo).2))
    · next hgo => exact alike_leave _ (hp ▸ .stop (Bool.not_eq_true _ ▸ hgo))
  · next hp =>
    split
    · next hgo => exact .move (.goOn (hp ▸ .first (Bool.and_eq_true_iff.1 hgo).2))
    · exact alike_fail _
  · next hp =>
    split
    · next a ha => exact .move (.goOn (hp ▸ .choose (List.mem_of_find?_eq_some ha)))
    · exact alike_fail _

/-- The strict machine moves on or complains. -/
theorem step_strict_cases (hf : m.frames = f :: callers) :
    Move m f callers (m.step .strict) ∨ ∃ e, m.step .strict = (m.complain e).fail .strict := by
  have halike := steps_alike hf
  generalize m.step .strict = s, m.step .recovering = r at halike ⊢
  cases halike with
  | move hmove => exact .inl hmove
  | complaint _ => exact .inr ⟨_, rfl⟩
  | early hunfolds => exact .inl (.goOn hunfolds)

theorem Move.complaints_eq {m' : Machine} (h : Move m f callers m') :
    m'.complaints = m.complaints := by
  cases h with
  | close => exact complaints_close
  | take | enter | goOn => rfl

theorem prefix_complaints_step : m.complaints <+: (m.step .recovering).complaints := by
  cases hf : m.frames with
  | nil =>
    rw [step, hf]
  | cons f callers =>
    have halike := steps_alike hf
    generalize m.step .strict = s, m.step .recovering = r at halike
    cases halike with
    | move hmove => rw [hmove.complaints_eq]
    | complaint hnew =>
      rw [hnew]
      exact List.prefix_append _ _
    | early _ _ _ hnew =>
      rw [hnew]
      exact List.prefix_append _ _

/-- **No complaint is taken back.** -/
theorem prefix_complaints_run (n : Nat) : m.complaints <+: (m.run .recovering n).complaints := by
  induction n generalizing m with
  | zero => exact List.prefix_rfl
  | succ n ih =>
    rw [run]
    split
    · exact List.prefix_rfl
    · exact prefix_complaints_step.trans ih

theorem prefix_complaints_complainOfRest : m.complaints <+: m.complainOfRest.complaints := by
  rw [complainOfRest]
  split
  · exact List.prefix_rfl
  · exact List.prefix_append _ _

end

end MessageSchema.Machine
