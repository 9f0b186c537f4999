/-
  What the strict parser reads is derived from the grammar.

  * `Faithful.run`: what the machine has read is derived from the grammar;
  * `Source.read_valid`: hence the tree of a text is valid.
-/
import MessageSchema.Proofs.Diagnostics
import MessageSchema.Proofs.Language

namespace MessageSchema

open List

open MessageSchema.Tree (tokensOfAll)

variable {tokens : List Token}

/-! ## Tokens of trees -/

variable {b : Option Token}

theorem tokensOfAll_append (xs ys : List Tree) :
    tokensOfAll (xs ++ ys) = tokensOfAll xs ++ tokensOfAll ys := by
  rw [Tree.tokensOfAll_eq, Tree.tokensOfAll_eq, Tree.tokensOfAll_eq, flatMap_append]

theorem lastToken_append (b : Option Token) (xs ys : List Tree) :
    lastToken b (xs ++ ys) = lastToken (lastToken b xs) ys := by
  simp [lastToken, tokensOfAll_append, Option.or_assoc]

theorem lastToken_leaf (b : Option Token) (t : Token) (ts : List Tree) :
    lastToken b (.leaf t :: ts) = lastToken (some t) ts := lastToken_append b [.leaf t] ts

theorem lastToken_node (b : Option Token) (r : Rule) (cs ts : List Tree) :
    lastToken b (.node r cs :: ts) = lastToken (lastToken b cs) ts := by
  rw [← singleton_append, lastToken_append]
  simp [lastToken, tokensOfAll, Tree.tokens]

theorem allows_sameLine_iff : (⟨b, tokens⟩ : Cursor).allows .sameLine = true ↔ OnLine b tokens := by
  rcases b with _ | p <;> rcases tokens with _ | ⟨t, ts⟩ <;> simp [Cursor.allows, OnLine]

theorem startsWith_iff {kinds : List Kind} :
    (⟨b, tokens⟩ : Cursor).startsWith kinds = true ↔ ∃ k ∈ kinds, nextKind tokens = some k := by
  rcases tokens with _ | ⟨t, ts⟩ <;> simp [Cursor.startsWith, Cursor.next, nextKind]

namespace Machine

variable {b : Option Token} {m' : Machine}

/-! ## What the machine has read is derived -/

theorem admits_of_allows {g : Guard} (h : (⟨b, tokens⟩ : Cursor).allows g = true) :
    g.Admits b tokens := by
  cases g with
  | always | notBeforeColon => trivial
  | sameLine => exact allows_sameLine_iff.1 h

theorem releases_of_not_allows {g : Guard} {body : List Item}
    (hbody : isFirm body = true ∧ seqFits body = true)
    (h : ((⟨b, tokens⟩ : Cursor).startsWith (firstOf body) && (⟨b, tokens⟩ : Cursor).allows g) =
      false) :
    g.Releases body b tokens := by
  cases g with
  | always | notBeforeColon => trivial
  | sameLine =>
    intro cs rest hcs hrest hline
    have hmem := hcs.nextKind_mem hbody.2 rest
    obtain ⟨k, hk, hfirst⟩ := (mem_nextKinds_of_isFirm hbody.1).1 hmem
    have hstarts : (⟨b, tokens⟩ : Cursor).startsWith (firstOf body) = true :=
      startsWith_iff.2 ⟨k, hfirst, hrest ▸ hk⟩
    rw [hstarts, allows_sameLine_iff.2 hline] at h
    cases h

theorem Unfolds.parses {ahead rest : List Token} {items items' : List Item} {ts : List Tree}
    (h : Unfolds ⟨b, ahead⟩ items items') (hfits : seqFits items = true)
    (hahead : tokensOfAll ts ++ rest = ahead) (hts : Parses b items' ts rest) :
    Parses b items ts rest := by
  subst hahead
  cases h with
  | skip => exact .skip hts
  | enter => exact .enter hts
  | stop hstop =>
    obtain ⟨⟨hbody, -⟩, -⟩ := seqFits_cons.1 hfits
    exact .stop (releases_of_not_allows (Bool.and_eq_true_iff.1 hbody) hstop) hts
  | round hallows => exact .round (admits_of_allows hallows) hts
  | first hallows => exact .first (admits_of_allows hallows) hts
  | choose ha => exact .choose ha hts

/-- What a frame has read from its start to a place, and what comes of its items there, make
    up its rule. -/
structure Completes (f : Frame) (start here : Cursor) : Prop where
  fits : seqFits f.pending = true
  tokens : tokensOfAll f.done.reverse ++ here.ahead = start.ahead
  last : lastToken start.before f.done.reverse = here.before
  parses : ∀ ts rest, tokensOfAll ts ++ rest = here.ahead → Parses here.before f.pending ts rest →
    Parses start.before f.rule.body (f.done.reverse ++ ts) rest

/-- The frames of a stack wait for a tree of rule `r` that starts at a place. -/
def Awaits (tokens : List Token) : Cursor → Rule → List Frame → Prop
  | c, r, [] => c = ⟨none, tokens⟩ ∧ r = .file
  | c, r, g :: gs => ∃ start,
    (∀ cs rest, tokensOfAll cs ++ rest = c.ahead → Parses c.before r.body cs rest →
      Completes { g with done := .node r cs :: g.done } start ⟨lastToken c.before cs, rest⟩) ∧
    Awaits tokens start g.rule gs

/-- The machine has read a part of a text as the grammar says. -/
structure Faithful (tokens : List Token) (m : Machine) : Prop where
  frames : ∀ f callers, m.frames = f :: callers →
    ∃ start, Completes f start m.cursor ∧ Awaits tokens start f.rule callers
  tree : ∀ t, m.tree = some t → m.frames = [] ∧ ∃ cs, t = .node .file cs ∧
    tokensOfAll cs ++ m.cursor.ahead = tokens ∧ Parses none Rule.file.body cs m.cursor.ahead

theorem faithful_start (tokens : List Token) : Faithful tokens (start tokens) where
  frames f callers hf := by
    cases hf
    exact ⟨_, ⟨Rule.file.fits_body, rfl, rfl, fun ts rest _ hts => hts⟩, rfl, rfl⟩
  tree t ht := by cases ht

variable {tokens : List Token} {m : Machine} {f : Frame} {callers : List Frame}

theorem Faithful.tree_eq_none (h : Faithful tokens m) (hf : m.frames = f :: callers) :
    m.tree = none := by
  rcases ht : m.tree with _ | t
  · rfl
  · exact absurd (hf ▸ (h.tree t ht).1) (by simp)

theorem Faithful.close (h : Faithful tokens m) (hf : m.frames = f :: callers)
    (hp : f.pending = []) : Faithful tokens (m.close f callers) := by
  obtain ⟨start, hcompletes, hawaits⟩ := h.frames f callers hf
  have hparses : Parses start.before f.rule.body f.done.reverse m.cursor.ahead := by
    simpa using hcompletes.parses [] m.cursor.ahead rfl (hp ▸ .nil)
  cases callers with
  | nil =>
    obtain ⟨rfl, hr⟩ := hawaits
    refine ⟨fun g gs hg => by simp [Machine.close] at hg,
      fun t ht => ⟨rfl, f.done.reverse, ?_, ?_, ?_⟩⟩
    · simpa [Machine.close, hr] using ht.symm
    · exact hcompletes.tokens
    · simpa [Machine.close, hr] using hparses
  | cons g gs =>
    obtain ⟨start', hg, hgs⟩ := hawaits
    refine ⟨fun f' callers' hf' => ?_, fun t ht => by simp [Machine.close, h.tree_eq_none hf] at ht⟩
    cases hf'
    have hnode := hg f.done.reverse m.cursor.ahead hcompletes.tokens hparses
    rw [hcompletes.last] at hnode
    exact ⟨start', hnode, hgs⟩

/-- **A step of the strict machine reads on as the grammar says.** -/
theorem Faithful.step (h : Faithful tokens m) (hf : m.frames = f :: callers) :
    Faithful tokens (m.step .strict) := by
  obtain ⟨start, hcompletes, hawaits⟩ := h.frames f callers hf
  have htree : ∀ t, m.tree ≠ some t := fun t => by simp [h.tree_eq_none hf]
  obtain hm | ⟨e, hcomplains⟩ := step_strict_cases hf
  on_goal 2 =>
    rw [hcomplains]
    exact ⟨fun f' callers' hf' => (by simp [fail] at hf'), fun t ht => absurd ht (htree t)⟩
  generalize m.step .strict = m' at hm ⊢
  cases hm with
  | close hp => exact h.close hf hp
  | @take items t ts hp ha =>
    refine ⟨fun f' callers' hf' => ?_, fun t ht => absurd ht (htree t)⟩
    cases hf'
    refine ⟨start,
      ⟨(seqFits_cons.1 (hp ▸ hcompletes.fits)).2, ?_, ?_, fun ts' rest hrest hts' => ?_⟩, hawaits⟩
    · simpa [tokensOfAll_append, tokensOfAll, Tree.tokens, ha] using hcompletes.tokens
    · rw [reverse_cons, lastToken_append]
      rfl
    · have hleaf : tokensOfAll (.leaf t :: ts') ++ rest = m.cursor.ahead :=
        (congrArg (t :: ·) hrest).trans ha.symm
      simpa using hcompletes.parses (.leaf t :: ts') rest hleaf (hp ▸ .token rfl hts')
  | @enter r items hp =>
    refine ⟨fun f' callers' hf' => ?_, fun t ht => absurd ht (htree t)⟩
    cases hf'
    refine ⟨m.cursor, ⟨r.fits_body, rfl, rfl, fun ts rest _ hts => hts⟩, start,
      fun cs rest hrest hcs => ?_, hawaits⟩
    refine ⟨(seqFits_cons.1 (hp ▸ hcompletes.fits)).2, ?_, ?_, fun ts rest' hrest' hts => ?_⟩
    · simpa [tokensOfAll_append, tokensOfAll, Tree.tokens, hrest] using hcompletes.tokens
    · rw [reverse_cons, lastToken_append, hcompletes.last, lastToken_node]
      rfl
    · subst hrest'
      have hnode : tokensOfAll (.node r cs :: ts) ++ rest' = m.cursor.ahead := by
        rw [← hrest, tokensOfAll, Tree.tokens, append_assoc]
      simpa using hcompletes.parses (.node r cs :: ts) rest' hnode (hp ▸ .rule hcs hts)
  | goOn hunfolds =>
    refine ⟨fun f' callers' hf' => ?_, fun t ht => absurd ht (htree t)⟩
    cases hf'
    refine ⟨start, ⟨hunfolds.fits hcompletes.fits, hcompletes.tokens, hcompletes.last,
      fun ts rest hrest hts => ?_⟩, hawaits⟩
    exact hcompletes.parses ts rest hrest (hunfolds.parses hcompletes.fits hrest hts)

theorem Faithful.run (n : Nat) (h : Faithful tokens m) : Faithful tokens (m.run .strict n) := by
  induction n generalizing m with
  | zero => exact h
  | succ n ih =>
    rcases hf : m.frames with _ | ⟨f, callers⟩
    · rwa [run_of_frames_eq_nil hf]
    · rw [run_succ hf]
      exact ih (h.step hf)

theorem parse_valid {P : Token → Prop} (h : ∀ t ∈ tokens, P t) {t : Tree}
    (ht : (parse .strict tokens).tree = some t) : t.Valid P := by
  rw [parse, tree_complainOfRest] at ht
  obtain ⟨-, cs, rfl, htokens, hparses⟩ :=
    ((faithful_start tokens).run (stepBound tokens.length)).tree t ht
  have hvalid := Tree.Valid.node hparses.contextFree.1 hparses.contextFree.2
  exact hvalid.of_tokens fun x hx => h x (htokens ▸ mem_append_left _ hx)

end Machine

variable {file text : String} {s : Source}

theorem Source.read_elim (h : Source.read file text = .ok s) :
    s.file = file ∧ (Machine.parse .strict (Scan.ofText text).tokens).tree = some s.tree := by
  unfold Source.read at h
  simp only at h
  split at h
  · cases h
  · split at h
    · next tree _ ht =>
      cases h
      exact ⟨rfl, ht⟩
    · cases h
    · cases h

/-- **The tree of a text that is read is valid.** -/
theorem Source.read_valid (h : Source.read file text = .ok s) :
    s.tree.Valid (· ∈ (Scan.ofText text).tokens) :=
  Machine.parse_valid (fun _ ht => ht) (read_elim h).2

end MessageSchema
