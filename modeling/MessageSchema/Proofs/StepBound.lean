/-
  The strict machine stops.

  The *lead* of items is a bound on the steps up to their first token, plus one step
  for each later part that may be left out (their *slack*).  A step that reads no token
  lowers the lead of the stack; a step that reads one raises it by less than
  `Machine.leadBound`, which the token pays for.
-/
import MessageSchema.Proofs.Moves

namespace MessageSchema

open List

/-! ## Leads -/

/-- The number of items that may derive nothing. -/
def slack (items : List Item) : Nat := items.countP Item.isOptional

mutual

/-- A bound on the steps up to the first token of an item, if it is derived. -/
def Item.lead (ofRule : Rule → Nat) : Item → Nat
  | .token _ => 1
  | .rule r => ofRule r
  | .optional body => 1 + seqLead ofRule body 0 0
  | .many _ body | .many1 _ body => 2 + seqLead ofRule body 0 0
  | .choice alternatives => 1 + choiceLead ofRule alternatives

/-- A bound on the steps up to the first token of a sequence of items, with the slack
    of the items after it.  What follows the sequence has lead `l` and slack `e`. -/
def seqLead (ofRule : Rule → Nat) : List Item → Nat → Nat → Nat
  | [], l, _ => l
  | i :: is, l, e =>
    if i.isOptional then max (i.lead ofRule + (slack is + e)) (1 + seqLead ofRule is l e)
    else i.lead ofRule + (slack is + e)

def choiceLead (ofRule : Rule → Nat) : List (List Item) → Nat
  | [] => 0
  | a :: as => max (seqLead ofRule a 0 0) (choiceLead ofRule as)

end

/-- The lead of a rule, following rules that start with rules down to `depth` of them:
    it is entered and left. -/
def Rule.leadTo : Nat → Rule → Nat
  | 0, _ => 0
  | depth + 1, r => 2 + seqLead (leadTo depth) r.body 0 0

def Rule.lead (r : Rule) : Nat := r.leadTo 6

theorem Rule.lead_eq (r : Rule) : r.lead = 2 + seqLead Rule.lead r.body 0 0 := by
  cases r <;> decide +kernel

/-! ## The shape of the grammar -/

def leadBound : Nat := 16

/-- Whether a sequence of items derives at least one token. -/
def isFirm (items : List Item) : Bool := items.any fun i => !i.isOptional

mutual

/-- Whether all parts of an item that can be left out, repeated or chosen derive at least one
    token, and have bounded leads. -/
def Item.fits : Item → Bool
  | .token _ => true
  | .rule r => r != .file
  | .optional body | .many _ body | .many1 _ body => isFirm body && seqFits body
  | .choice alternatives => choiceFits alternatives

def seqFits : List Item → Bool
  | [] => true
  | i :: is => i.fits && decide (i.lead Rule.lead ≤ leadBound) && seqFits is

def choiceFits : List (List Item) → Bool
  | [] => true
  | a :: as => isFirm a && seqFits a && choiceFits as

end

variable {as : List (List Item)} {l e : Nat}

/-- **The grammar fits.** -/
theorem Rule.fits_body (r : Rule) : seqFits r.body = true := by
  cases r <;> decide +kernel

theorem Rule.isFirm_body {r : Rule} (h : r ≠ .file) : isFirm r.body = true := by
  cases r with
  | file => exact absurd rfl h
  | _ => rfl

theorem seqFits_cons {i : Item} {is : List Item} : seqFits (i :: is) = true ↔
    (i.fits = true ∧ i.lead Rule.lead ≤ leadBound) ∧ seqFits is = true := by
  simp [seqFits]

theorem seqFits_append {xs ys : List Item} (hx : seqFits xs = true) (hy : seqFits ys = true) :
    seqFits (xs ++ ys) = true := by
  induction xs with
  | nil => exact hy
  | cons i is ih =>
    obtain ⟨hi, his⟩ := seqFits_cons.1 hx
    exact seqFits_cons.2 ⟨hi, ih his⟩

theorem choiceFits_iff : choiceFits as = true ↔ ∀ a ∈ as, isFirm a = true ∧ seqFits a = true := by
  induction as with
  | nil => simp [choiceFits]
  | cons a as ih => simp [choiceFits, ih]

/-! ## Leads of sequences -/

@[simp]
theorem slack_append (xs ys : List Item) : slack (xs ++ ys) = slack xs + slack ys := countP_append

theorem slack_cons (i : Item) (is : List Item) :
    slack (i :: is) = slack is + if i.isOptional then 1 else 0 := countP_cons

theorem seqLead_append {body : List Item} (hbody : isFirm body = true) (ofRule : Rule → Nat)
    (items : List Item) (l e : Nat) :
    seqLead ofRule (body ++ items) l e = seqLead ofRule body 0 0 + (slack items + e) := by
  induction body with
  | nil => cases hbody
  | cons i is ih =>
    rw [cons_append, seqLead, seqLead, slack_append]
    split
    · next hi =>
      have his : isFirm is = true := by simpa [isFirm, hi] using hbody
      rw [ih his]
      omega
    · omega

theorem seqLead_le_choiceLead (ofRule : Rule → Nat) {a : List Item} (h : a ∈ as) :
    seqLead ofRule a 0 0 ≤ choiceLead ofRule as := by
  induction as with
  | nil => cases h
  | cons b as ih =>
    rw [choiceLead]
    rcases mem_cons.1 h with rfl | h
    · exact Nat.le_max_left _ _
    · exact (ih h).trans (Nat.le_max_right _ _)

theorem seqLead_le {items : List Item} (h : seqFits items = true) (hl : l ≤ leadBound + e) :
    seqLead Rule.lead items l e ≤ leadBound + (slack items + e) := by
  induction items with
  | nil =>
    rw [seqLead]
    simpa [slack] using hl
  | cons i is ih =>
    obtain ⟨⟨-, hi⟩, his⟩ := seqFits_cons.1 h
    have his := ih his
    rw [seqLead, slack_cons]
    split
    · omega
    · omega

theorem seqLead_pos (items : List Item) (hl : 0 < l) (he : 0 < e) :
    0 < seqLead Rule.lead items l e := by
  cases items with
  | nil => exact hl
  | cons i is =>
    rw [seqLead]
    split
    · omega
    · omega

namespace Machine

variable {c : Cursor} {items items' : List Item}

theorem Unfolds.fits (h : Unfolds c items items') (hfits : seqFits items = true) :
    seqFits items' = true := by
  cases h with
  | skip | stop => exact (seqFits_cons.1 hfits).2
  | enter =>
    obtain ⟨⟨hbody, -⟩, hitems⟩ := seqFits_cons.1 hfits
    exact seqFits_append (Bool.and_eq_true_iff.1 hbody).2 hitems
  | round =>
    obtain ⟨⟨hbody, -⟩, -⟩ := seqFits_cons.1 hfits
    exact seqFits_append (Bool.and_eq_true_iff.1 hbody).2 hfits
  | first =>
    obtain ⟨⟨hbody, -⟩, -⟩ := seqFits_cons.1 hfits
    exact seqFits_append (Bool.and_eq_true_iff.1 hbody).2 hfits
  | choose ha =>
    obtain ⟨⟨has, -⟩, hitems⟩ := seqFits_cons.1 hfits
    exact seqFits_append (choiceFits_iff.1 has _ ha).2 hitems

theorem Unfolds.seqLead_lt (h : Unfolds c items items') (hfits : seqFits items = true)
    (l e : Nat) : seqLead Rule.lead items' l e < seqLead Rule.lead items l e := by
  cases h with
  | skip | stop =>
    simp only [seqLead, Item.isOptional, if_true]
    omega
  | enter =>
    obtain ⟨⟨hbody, -⟩, -⟩ := seqFits_cons.1 hfits
    rw [seqLead_append (Bool.and_eq_true_iff.1 hbody).1]
    simp only [seqLead, Item.isOptional, if_true, Item.lead]
    omega
  | round =>
    obtain ⟨⟨hbody, -⟩, -⟩ := seqFits_cons.1 hfits
    rw [seqLead_append (Bool.and_eq_true_iff.1 hbody).1, slack_cons]
    simp only [seqLead, Item.isOptional, if_true, Item.lead]
    omega
  | first =>
    obtain ⟨⟨hbody, -⟩, -⟩ := seqFits_cons.1 hfits
    rw [seqLead_append (Bool.and_eq_true_iff.1 hbody).1, slack_cons]
    simp only [seqLead, Item.isOptional, if_true, Bool.false_eq_true, if_false, Item.lead]
    omega
  | choose ha =>
    obtain ⟨⟨has, -⟩, -⟩ := seqFits_cons.1 hfits
    have hle := seqLead_le_choiceLead Rule.lead ha
    rw [seqLead_append (choiceFits_iff.1 has _ ha).1]
    simp only [seqLead, Item.isOptional, Bool.false_eq_true, if_false, Item.lead]
    omega

/-! ## The measure of a machine -/

/-- The slack of a stack, with the step that leaves each frame. -/
def stackSlack : List Frame → Nat
  | [] => 0
  | f :: callers => slack f.pending + (1 + stackSlack callers)

def stackLead : List Frame → Nat
  | [] => 0
  | f :: callers => seqLead Rule.lead f.pending (1 + stackLead callers) (1 + stackSlack callers)

/-- The items of all frames of a machine fit. -/
def Fits (m : Machine) : Prop := ∀ f ∈ m.frames, seqFits f.pending = true

def measure (m : Machine) : Nat := leadBound * m.cursor.ahead.length + stackLead m.frames

theorem stackLead_le {fs : List Frame} (h : ∀ f ∈ fs, seqFits f.pending = true) :
    stackLead fs ≤ leadBound + stackSlack fs := by
  induction fs with
  | nil => exact Nat.zero_le _
  | cons f fs ih =>
    have hfs := ih fun g hg => h g (mem_cons_of_mem _ hg)
    exact seqLead_le (h f mem_cons_self) (by omega)

section
variable {m m' : Machine} {f : Frame} {callers : List Frame}

theorem Move.fits (h : Move m f callers m') (hf : m.frames = f :: callers) (hm : m.Fits) :
    m'.Fits := by
  have hpending : seqFits f.pending = true := hm f (by simp [hf])
  have hcallers : ∀ g ∈ callers, seqFits g.pending = true := fun g hg => hm g (by simp [hf, hg])
  cases h with
  | close hp =>
    cases callers with
    | nil => exact fun g hg => nomatch hg
    | cons g gs =>
      obtain ⟨hg, hgs⟩ := forall_mem_cons.1 hcallers
      exact forall_mem_cons.2 ⟨hg, hgs⟩
  | take hp _ =>
    rw [hp] at hpending
    exact forall_mem_cons.2 ⟨(seqFits_cons.1 hpending).2, hcallers⟩
  | @enter r items hp =>
    rw [hp] at hpending
    exact forall_mem_cons.2 ⟨r.fits_body, forall_mem_cons.2 ⟨(seqFits_cons.1 hpending).2, hcallers⟩⟩
  | goOn hunfolds => exact forall_mem_cons.2 ⟨hunfolds.fits hpending, hcallers⟩

/-- **A move lowers the measure**: a token pays for the lead of what comes after it. -/
theorem measure_lt_of_move (h : Move m f callers m') (hf : m.frames = f :: callers) (hm : m.Fits) :
    m'.measure < m.measure := by
  have hpending : seqFits f.pending = true := hm f (by simp [hf])
  have hle : stackLead callers ≤ leadBound + stackSlack callers :=
    stackLead_le fun g hg => hm g (by simp [hf, hg])
  rw [measure, measure, hf]
  cases h with
  | close hp => cases callers <;> simp [Machine.close, stackLead, hp, seqLead]
  | @take items t ts hp ha =>
    rw [hp] at hpending
    have hitems : seqLead Rule.lead items (1 + stackLead callers) (1 + stackSlack callers) ≤
        leadBound + (slack items + (1 + stackSlack callers)) :=
      seqLead_le (seqFits_cons.1 hpending).2 (by omega)
    simp only [stackLead, hp, seqLead, Item.isOptional, Item.lead, ha, length_cons, Nat.mul_add,
      Bool.false_eq_true, if_false]
    omega
  | @enter r items hp =>
    rw [hp] at hpending
    have hr : r ≠ .file := by simpa [Item.fits] using (seqFits_cons.1 hpending).1.1
    have hbody := seqLead_append (Rule.isFirm_body hr) Rule.lead []
    rw [append_nil] at hbody
    rw [stackLead, hbody, stackSlack, stackLead, hp, seqLead, Item.lead, r.lead_eq]
    simp only [slack, countP_nil, Item.isOptional, Bool.false_eq_true, if_false]
    omega
  | goOn hunfolds =>
    exact Nat.add_lt_add_left (hunfolds.seqLead_lt hpending _ _) _

/-- **A step lowers the measure**, or ends the run. -/
theorem step_strict (hne : m.frames ≠ []) (hm : m.Fits) :
    (m.step .strict).measure < m.measure ∧ (m.step .strict).Fits := by
  cases hf : m.frames with
  | nil => exact absurd hf hne
  | cons f callers =>
    obtain hmove | ⟨e, hcomplains⟩ := step_strict_cases hf
    · exact ⟨measure_lt_of_move hmove hf hm, hmove.fits hf hm⟩
    · rw [hcomplains]
      refine ⟨?_, fun g hg => nomatch hg⟩
      rw [measure, measure, hf]
      exact Nat.add_lt_add_left (seqLead_pos _ (by omega) (by omega)) _

theorem frames_run_of_measure_le {n : Nat} (hn : m.measure ≤ n) (hm : m.Fits) :
    (m.run .strict n).frames = [] := by
  induction n generalizing m with
  | zero =>
    cases hf : m.frames with
    | nil => exact hf
    | cons f callers =>
      have := step_strict (by simp [hf]) hm
      omega
  | succ n ih =>
    rw [run]
    split
    · next hempty => exact List.isEmpty_iff.1 hempty
    · next hne =>
      obtain ⟨hlt, hfits⟩ := step_strict (fun hnil => hne (List.isEmpty_iff.2 hnil)) hm
      exact ih (by omega) hfits

end

/-- **The strict machine stops** within the bound. -/
theorem frames_run_strict (tokens : List Token) :
    ((start tokens).run .strict (stepBound tokens.length)).frames = [] := by
  have hfile := Rule.file.fits_body
  refine frames_run_of_measure_le ?_ (by simpa [Fits, start] using hfile)
  have hlead : stackLead (start tokens).frames ≤ leadBound + 2 :=
    stackLead_le (by simpa [start] using hfile)
  simp only [measure, start, stepBound, leadBound] at hlead ⊢
  omega

end Machine

end MessageSchema
