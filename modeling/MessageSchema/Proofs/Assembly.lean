/-
  Derivations put together from words.

  `Built r ws items P` says: tokens that spell the words `ws` are derived from the
  items, wherever they stand, and what is derived satisfies `P`.  Constructs are put
  together as their words are; `P` says what the reader makes of them.

  * `Built.append`, `Built.rule`, `Built.many`: sequences, rules and repetitions;
  * `Reads`, `reads_mapM`: what is read of a tree and of several.
-/
import MessageSchema.Proofs.Acceptance
import MessageSchema.Proofs.Schema

namespace MessageSchema

open List

open MessageSchema.Tree (tokensOfAll)

/-! ## Parts of trees -/

namespace Tree

@[simp] theorem isNode_leaf (q : Rule) (t : Token) : (leaf t).isNode q = false := rfl

@[simp] theorem isNode_node (p q : Rule) (cs : List Tree) : (node p cs).isNode q = decide (p = q) :=
  rfl

@[simp] theorem leaf?_leaf (k : Kind) (t : Token) :
    (leaf t).leaf? k = if t.kind = k then some t else none :=
  rfl

@[simp] theorem leaf?_node (k : Kind) (q : Rule) (cs : List Tree) : (node q cs).leaf? k = none :=
  rfl

@[simp] theorem find?_nil (p q : Rule) : (node p []).find? q = none := rfl

@[simp] theorem find?_cons (p q : Rule) (c : Tree) (cs : List Tree) :
    (node p (c :: cs)).find? q = if c.isNode q then some c else (node p cs).find? q := by
  rw [find?, children, List.find?_cons]
  cases c.isNode q <;> rfl

theorem find?_append (p q : Rule) (cs ds : List Tree) :
    (node p (cs ++ ds)).find? q = ((node p cs).find? q).or ((node p ds).find? q) :=
  List.find?_append

@[simp] theorem all_nil (p q : Rule) : (node p []).all q = [] := rfl

@[simp] theorem all_cons (p q : Rule) (c : Tree) (cs : List Tree) :
    (node p (c :: cs)).all q = if c.isNode q then c :: (node p cs).all q else (node p cs).all q :=
  filter_cons

@[simp] theorem all_append (p q : Rule) (cs ds : List Tree) :
    (node p (cs ++ ds)).all q = (node p cs).all q ++ (node p ds).all q := filter_append ..

@[simp] theorem leaves_nil (q : Rule) (k : Kind) : (node q []).leaves k = [] := rfl

@[simp] theorem leaves_cons (q : Rule) (k : Kind) (c : Tree) (cs : List Tree) :
    (node q (c :: cs)).leaves k = (c.leaf? k).toList ++ (node q cs).leaves k := by
  rw [leaves, children, filterMap_cons]
  cases c.leaf? k <;> rfl

@[simp] theorem find?_leaves_append (p q : Rule) (ts : List Token) (cs : List Tree) :
    (node p (ts.map leaf ++ cs)).find? q = (node p cs).find? q := by
  induction ts with
  | nil => rfl
  | cons t ts ih => simpa using ih

@[simp] theorem leaves_leaves_append (q : Rule) (k : Kind) (ts : List Token) (cs : List Tree) :
    (node q (ts.map leaf ++ cs)).leaves k = ts.filter (·.kind = k) ++ (node q cs).leaves k := by
  induction ts with
  | nil => rfl
  | cons t ts ih =>
    rw [map_cons, cons_append, leaves_cons, ih, leaf?_leaf, filter_cons]
    by_cases h : t.kind = k <;> simp [h]

end Tree

/-! ## Derivations put together -/

theorem lastToken_nil (b : Option Token) : lastToken b [] = b := by simp [lastToken, tokensOfAll]

/-- Trees derived one after the other. -/
theorem Parses.append {b : Option Token} {xs ys : List Item} {cs ds : List Tree} {rest : List Token}
    (h : Parses b xs cs (tokensOfAll ds ++ rest)) (h' : Parses (lastToken b cs) ys ds rest) :
    Parses b (xs ++ ys) (cs ++ ds) rest := by
  have hahead : ∀ ts, tokensOfAll ts ++ (tokensOfAll ds ++ rest) = tokensOfAll (ts ++ ds) ++ rest :=
      fun ts => by
    rw [tokensOfAll_append, append_assoc]
  generalize hafter : tokensOfAll ds ++ rest = after at h
  induction h with
  | nil => rwa [lastToken_nil] at h'
  | token hk _ ih =>
    rw [lastToken_leaf] at h'
    exact .token hk (ih h' hafter)
  | rule hcs _ _ ih =>
    subst hafter
    rw [hahead] at hcs
    rw [lastToken_node] at h'
    exact .rule hcs (ih h' rfl)
  | skip _ ih => exact .skip (ih h' hafter)
  | enter _ ih =>
    have hbody := ih h' hafter
    rw [append_assoc] at hbody
    exact .enter hbody
  | stop hreleases _ ih =>
    subst hafter
    rw [hahead] at hreleases
    exact .stop hreleases (ih h' rfl)
  | round hadmits _ ih =>
    subst hafter
    rw [hahead] at hadmits
    have hbody := ih h' rfl
    rw [append_assoc, cons_append] at hbody
    exact .round hadmits hbody
  | first hadmits _ ih =>
    subst hafter
    rw [hahead] at hadmits
    have hbody := ih h' rfl
    rw [append_assoc, cons_append] at hbody
    exact .first hadmits hbody
  | choose ha _ ih =>
    have hbody := ih h' hafter
    rw [append_assoc] at hbody
    exact .choose ha hbody

/-- Tokens that spell words, for a reader that finds them in its text. -/
structure Draft.Reader.Spells (r : Draft.Reader) (ws : List Word) (ts : List Token) : Prop where
  words : ts.map Lexeme.word = ws.map fun w => (w.kind, w.text)
  joined : ts.IsChain Lexeme.Joined
  text : ∀ t ∈ ts, r.textOf (.leaf t) = t.image

open Draft (Reader RawValue)

variable {r : Reader} {ts : List Token}

theorem Draft.Reader.Spells.append {ws vs : List Word}
    (h : r.Spells (ws ++ vs) ts) : ∃ xs ys, ts = xs ++ ys ∧ r.Spells ws xs ∧ r.Spells vs ys := by
  have hwords := h.words
  rw [map_append] at hwords
  obtain ⟨xs, ys, rfl, hxs, hys⟩ := map_eq_append_iff.1 hwords
  obtain ⟨hleft, hright, -⟩ := isChain_append.1 h.joined
  exact ⟨xs, ys, rfl, ⟨hxs, hleft, fun t ht => h.text t (mem_append_left _ ht)⟩,
    ⟨hys, hright, fun t ht => h.text t (mem_append_right _ ht)⟩⟩

theorem Draft.Reader.Spells.eq_nil (h : r.Spells [] ts) : ts = [] :=
  map_eq_nil_iff.1 h.words

theorem Draft.Reader.Spells.singleton {w : Word} (h : r.Spells [w] ts) :
    ∃ t, ts = [t] ∧ t.kind = w.kind ∧ t.image = w.text ∧ r.textOf (.leaf t) = w.text := by
  obtain ⟨t, rest, rfl, ht, hrest⟩ := map_eq_cons_iff.1 h.words
  obtain rfl := map_eq_nil_iff.1 hrest
  obtain ⟨hkind, himage⟩ := Prod.mk.inj ht
  exact ⟨t, rfl, hkind, himage, (h.text t mem_cons_self).trans himage⟩

/-- Tokens that spell words are derived from items wherever they stand, as trees that
    satisfy `P`. -/
def Built (r : Reader) (ws : List Word) (items : List Item) (P : List Tree → Prop) : Prop :=
  ∀ ts, r.Spells ws ts →
    ∃ cs, tokensOfAll cs = ts ∧ (∀ b rest, Parses b items cs rest) ∧ P cs

namespace Built

variable {r : Reader} {ws vs : List Word} {items xs ys body : List Item} {P Q : List Tree → Prop}
  {g : Guard}

theorem imp (h : Built r ws items P) (hPQ : ∀ cs, P cs → Q cs) : Built r ws items Q := by
  intro ts hts
  obtain ⟨cs, htokens, hparses, hP⟩ := h ts hts
  exact ⟨cs, htokens, hparses, hPQ cs hP⟩

theorem append (h : Built r ws xs P) (h' : Built r vs ys Q) :
    Built r (ws ++ vs) (xs ++ ys) fun cs => ∃ as bs, cs = as ++ bs ∧ P as ∧ Q bs := by
  intro ts hts
  obtain ⟨ts₁, ts₂, rfl, hts₁, hts₂⟩ := hts.append
  obtain ⟨as, htokens, hparses, hP⟩ := h ts₁ hts₁
  obtain ⟨bs, htokens', hparses', hQ⟩ := h' ts₂ hts₂
  exact ⟨as ++ bs, by rw [tokensOfAll_append, htokens, htokens'],
    fun b rest => (hparses b _).append (hparses' _ rest), as, bs, rfl, hP, hQ⟩

/-- A word is derived from a token of its kind. -/
theorem token {k : Kind} (w : Word) (hk : w.kind = k) : Built r [w] [.token k] fun cs =>
    ∃ t, cs = [.leaf t] ∧ t.kind = k ∧ t.image = w.text := by
  intro ts hts
  obtain ⟨t, rfl, hkind, himage, -⟩ := hts.singleton
  rw [hk] at hkind
  exact ⟨[.leaf t], rfl, fun _ _ => .token hkind .nil, t, rfl, hkind, himage⟩

theorem rule {q : Rule} (h : Built r ws q.body P) :
    Built r ws [.rule q] fun cs => ∃ ds, cs = [.node q ds] ∧ P ds := by
  intro ts hts
  obtain ⟨ds, htokens, hparses, hP⟩ := h ts hts
  refine ⟨[.node q ds], ?_, fun b rest => .rule (hparses b _) .nil, ds, rfl, hP⟩
  rw [tokensOfAll, Tree.tokens, tokensOfAll, append_nil, htokens]

theorem skip : Built r [] [.optional body] (· = []) := by
  intro ts hts
  exact ⟨[], by rw [hts.eq_nil]; rfl, fun _ _ => .skip .nil, rfl⟩

theorem enter (h : Built r ws body P) : Built r ws [.optional body] P := by
  intro ts hts
  obtain ⟨cs, htokens, hparses, hP⟩ := h ts hts
  exact ⟨cs, htokens, fun b rest => .enter (by rw [append_nil]; exact hparses b rest), hP⟩

theorem choose {as : List (List Item)} {a : List Item} (ha : a ∈ as) (h : Built r ws a P) :
    Built r ws [.choice as] P := by
  intro ts hts
  obtain ⟨cs, htokens, hparses, hP⟩ := h ts hts
  exact ⟨cs, htokens, fun b rest => .choose ha (by rw [append_nil]; exact hparses b rest), hP⟩

theorem oneOf {kinds : List Kind} (w : Word) (hk : w.kind ∈ kinds) :
    Built r [w] [Rule.oneOf kinds] fun cs =>
    ∃ t, cs = [.leaf t] ∧ t.kind = w.kind ∧ t.image = w.text :=
  (token w rfl).choose (mem_map_of_mem hk)

theorem oneRuleOf {rules : List Rule} {q : Rule} (hq : q ∈ rules) (h : Built r ws [.rule q] P) :
    Built r ws [Rule.oneRuleOf rules] P := h.choose (mem_map_of_mem hq)

/-- What is repeated with no regard to lines. -/
theorem many {α : Type} (hg : g ≠ .sameLine) {P : α → List Tree → Prop} {as : List α}
    {wss : List (List Word)} (h : Forall₂ (fun a ws => Built r ws body (P a)) as wss) :
    Built r wss.flatten [.many g body] fun cs => ∃ css, cs = css.flatten ∧
      Forall₂ P as css := by
  have hadmits : ∀ b tokens, g.Admits b tokens := by
    intro b tokens
    cases g with
    | sameLine => exact absurd rfl hg
    | always | notBeforeColon => trivial
  have hreleases : ∀ b tokens, g.Releases body b tokens := by
    intro b tokens
    cases g with
    | sameLine => exact absurd rfl hg
    | always | notBeforeColon => trivial
  induction h with
  | nil =>
    intro ts hts
    exact ⟨[], by rw [hts.eq_nil]; rfl, fun b rest => .stop (hreleases b _) .nil, [], rfl, .nil⟩
  | cons h _ ih =>
    intro ts hts
    obtain ⟨ts₁, ts₂, rfl, hts₁, hts₂⟩ := hts.append
    obtain ⟨cs, htokens, hparses, hP⟩ := h ts₁ hts₁
    obtain ⟨ds, htokens', hparses', css, rfl, hall⟩ := ih ts₂ hts₂
    refine ⟨cs ++ css.flatten, by rw [tokensOfAll_append, htokens, htokens'], fun b rest => ?_,
      cs :: css, rfl, .cons hP hall⟩
    exact .round (hadmits b _) ((hparses b _).append (hparses' _ rest))

theorem flatMap {α : Type} (hg : g ≠ .sameLine) {f : α → List Word} {P : α → List Tree → Prop}
    {as : List α} (h : ∀ a ∈ as, Built r (f a) body (P a)) :
    Built r (as.flatMap f) [.many g body] fun cs => ∃ css, cs = css.flatten ∧
      Forall₂ P as css := by
  rw [flatMap_def]
  refine many hg ?_
  rw [forall₂_map_right_iff]
  exact forall₂_same.2 h

/-- What is repeated with or without commas between. -/
theorem listed {α : Type} {f : α → List Word} {P : α → List Tree → Prop}
    (h : ∀ a, Built r (f a) body (P a)) (hcomma : ∀ a, Built r (f a ++ [.comma]) body (P a))
    (as : List α) :
    Built r (Word.listed (as.map f)) [.many .always body] fun cs =>
      ∃ css, cs = css.flatten ∧ Forall₂ P as css := by
  refine many (by decide) ?_
  induction as with
  | nil => exact .nil
  | cons a as ih =>
    cases as with
    | nil => exact .cons (h a) .nil
    | cons b as => exact .cons (hcomma a) ih

theorem braced (h : Built r ws items P) :
    Built r (Word.braced ws) (.token .leftBrace :: (items ++ [.token .rightBrace])) fun cs =>
      ∃ a b ds, cs = .leaf a :: (ds ++ [.leaf b]) ∧ P ds := by
  have hbraced :
      Built r (Word.braced ws) (.token .leftBrace :: (items ++ [.token .rightBrace])) _ :=
    (token (.mark '{' .leftBrace rfl) rfl).append
      (h.append (.token (.mark '}' .rightBrace rfl) rfl))
  refine hbraced.imp ?_
  rintro _ ⟨_, _, rfl, ⟨a, rfl, -⟩, ds, _, rfl, hP, b, rfl, -⟩
  exact ⟨a, b, ds, rfl, hP⟩

/-- The text of what is built is that of its words put together. -/
theorem image (h : Built r ws items P) : Built r ws items fun cs =>
    P cs ∧ String.join ((tokensOfAll cs).map (·.image)) = String.join (ws.map Word.text) := by
  intro ts hts
  obtain ⟨cs, htokens, hparses, hP⟩ := h ts hts
  refine ⟨cs, htokens, hparses, hP, ?_⟩
  have himages := congrArg (map Prod.snd) hts.words
  rw [map_map, map_map] at himages
  rw [htokens]
  exact congrArg String.join himages

end Built

/-! ## Reading several trees -/

/-- What is read of a tree is `b`, seen through `f`. -/
def Reads {α β : Type} (g : Tree → Except Fault α) (f : α → β) (b : β) (t : Tree) : Prop :=
  (g t).map f = .ok b

theorem exists_of_map_eq_ok {α β : Type} {x : Except Fault α} {f : α → β} {b : β}
    (h : x.map f = .ok b) : ∃ a, x = .ok a ∧ f a = b := by
  cases x with
  | error fault => cases h
  | ok a => exact ⟨a, rfl, Except.ok.inj h⟩

/-- What is made of a result, seen through `k`, if it is seen through `f` as `b`. -/
theorem map_return {α β γ δ : Type} {x : Except Fault α} {f : α → β} {b : β} (h : x.map f = .ok b)
    {g : α → γ} {k : γ → δ} (c : β → δ) (hc : ∀ a, k (g a) = c (f a)) :
    (x >>= fun a => pure (g a)).map k = .ok (c b) := by
  obtain ⟨a, rfl, rfl⟩ := exists_of_map_eq_ok h
  exact congrArg Except.ok (hc a)

theorem reads_mapM {α β γ : Type} {g : Tree → Except Fault α} {f : α → β} {h : γ → β} {as : List γ}
    {ts : List Tree} (hts : Forall₂ (fun a t => Reads g f (h a) t) as ts) :
    (ts.mapM g).map (map f) = .ok (as.map h) := by
  induction hts with
  | nil => rfl
  | cons hone _ ih =>
    obtain ⟨a, ha, hfa⟩ := exists_of_map_eq_ok hone
    obtain ⟨rest, hrest, hfrest⟩ := exists_of_map_eq_ok ih
    rw [mapM_cons, ha, hrest, map_cons, ← hfa, ← hfrest]
    rfl

/-- Rounds of a repetition that are one tree each. -/
theorem forall₂_flatten {α : Type} {Q : α → Tree → Prop} {as : List α} {css : List (List Tree)}
    (h : Forall₂ (fun a cs => ∃ t, cs = [t] ∧ Q a t) as css) :
    Forall₂ Q as css.flatten := by
  induction h with
  | nil => exact .nil
  | cons hone _ ih =>
    obtain ⟨t, rfl, ht⟩ := hone
    exact .cons ht ih

section Nodes

variable {α : Type} {p q : Rule} {R : α → Tree → Prop} {as : List α} {ts : List Tree}

theorem all_of_isNode (h : Forall₂ (fun a t => t.isNode q = true ∧ R a t) as ts) :
    (Tree.node p ts).all q = ts := by
  induction h with
  | nil => rfl
  | cons hone _ ih => rw [Tree.all_cons, if_pos hone.1, ih]

theorem find?_of_isNode (h : Forall₂ (fun a t => t.isNode q = true ∧ R a t) as ts) {o : Rule}
    (ho : q ≠ o) : (Tree.node p ts).find? o = none := by
  induction h with
  | nil => rfl
  | @cons _ t _ _ hone _ ih =>
    have hother : t.isNode o = false := by
      cases t with
      | leaf => rfl
      | node x cs =>
        obtain rfl : x = q := by simpa using hone.1
        simpa using ho
    rw [Tree.find?_cons, hother]
    exact ih

theorem isNode_of_mem (h : Forall₂ (fun a t => t.isNode q = true ∧ R a t) as ts) {t : Tree}
    (ht : t ∈ ts) : t.isNode q = true := by
  rw [← all_of_isNode (p := q) h] at ht
  exact of_mem_filter ht

end Nodes

end MessageSchema
