/-
  The language of schema texts.

  `Parses b items ts rest` reads the grammar as a description: after the token `b`
  and before the tokens `rest`, the items derive the trees `ts`.  Every part that may
  be left out, repeated or chosen is left out, repeated or chosen freely, but for the
  atoms of a default, which run as far as they can on one line.

  * `Derivation tokens t`: the tree `t` derives a whole text.
-/
import MessageSchema.Proofs.Derivations
import MessageSchema.Proofs.StepBound

namespace MessageSchema

open MessageSchema.Tree (tokensOfAll)

variable {items : List Item} {after : List (Option Kind)}

/-! ## Derivations -/

/-- Trees derived from items, at every depth and with no regard to lines. -/
def ContextFree (items : List Item) (ts : List Tree) : Prop :=
  Derives items ts ∧ ∀ t ∈ ts, t.Valid fun _ => True

/-- The last token of some trees, or `b` if they have none. -/
def lastToken (b : Option Token) (ts : List Tree) : Option Token := (tokensOfAll ts).getLast?.or b

/-- The first of some tokens starts on the line on which the token `b` ends. -/
def OnLine (b : Option Token) (tokens : List Token) : Prop :=
  ∃ p t, b = some p ∧ tokens.head? = some t ∧ t.first.line = p.last.line

/-- Whether a round of a repetition may start with some tokens, after the token `b`.
    Which identifiers are modifiers the grammar itself says: those before the name,
    which is the token before the colon. -/
def Guard.Admits : Guard → Option Token → List Token → Prop
  | .sameLine, b, tokens => OnLine b tokens
  | .always, _, _ | .notBeforeColon, _, _ => True

/-- Whether a repetition of `body` may end before some tokens, after the token `b`: one
    that is bound to a line ends only where no further round starts on the line. -/
def Guard.Releases (body : List Item) : Guard → Option Token → List Token → Prop
  | .sameLine, b, tokens =>
    ∀ cs rest, ContextFree body cs → tokens = tokensOfAll cs ++ rest → ¬ OnLine b tokens
  | .always, _, _ | .notBeforeColon, _, _ => True

/-- Trees derived from items after a token and before other tokens. -/
inductive Parses : Option Token → List Item → List Tree → List Token → Prop
  | nil {b rest} : Parses b [] [] rest
  | token {b k t is ts rest} : t.kind = k → Parses (some t) is ts rest →
      Parses b (.token k :: is) (.leaf t :: ts) rest
  | rule {b r cs is ts rest} : Parses b r.body cs (tokensOfAll ts ++ rest) →
      Parses (lastToken b cs) is ts rest → Parses b (.rule r :: is) (.node r cs :: ts) rest
  | skip {b body is ts rest} : Parses b is ts rest → Parses b (.optional body :: is) ts rest
  | enter {b body is ts rest} : Parses b (body ++ is) ts rest →
    Parses b (.optional body :: is) ts rest
  | stop {b g body is ts rest} : g.Releases body b (tokensOfAll ts ++ rest) → Parses b is ts rest →
      Parses b (.many g body :: is) ts rest
  | round {b g body is ts rest} : g.Admits b (tokensOfAll ts ++ rest) →
      Parses b (body ++ .many g body :: is) ts rest → Parses b (.many g body :: is) ts rest
  | first {b g body is ts rest} : g.Admits b (tokensOfAll ts ++ rest) →
      Parses b (body ++ .many g body :: is) ts rest → Parses b (.many1 g body :: is) ts rest
  | choose {b as a is ts rest} : a ∈ as → Parses b (a ++ is) ts rest →
    Parses b (.choice as :: is) ts rest

/-- A tree that derives a text of the given tokens. -/
def Derivation (tokens : List Token) (t : Tree) : Prop :=
  ∃ cs, t = .node .file cs ∧ tokensOfAll cs = tokens ∧ Parses none Rule.file.body cs []

theorem Parses.contextFree {b : Option Token} {ts : List Tree} {rest : List Token}
    (h : Parses b items ts rest) : ContextFree items ts := by
  induction h with
  | nil => exact ⟨.nil, by simp⟩
  | token hk _ ih => exact ⟨.token hk ih.1, List.forall_mem_cons.2 ⟨.leaf trivial, ih.2⟩⟩
  | rule _ _ ihcs ih => exact ⟨.rule ih.1, List.forall_mem_cons.2 ⟨.node ihcs.1 ihcs.2, ih.2⟩⟩
  | skip _ ih => exact ⟨.skip ih.1, ih.2⟩
  | enter _ ih => exact ⟨.enter ih.1, ih.2⟩
  | stop _ _ ih => exact ⟨.stop ih.1, ih.2⟩
  | round _ _ ih => exact ⟨.round ih.1, ih.2⟩
  | first _ _ ih => exact ⟨.first ih.1, ih.2⟩
  | choose ha _ ih => exact ⟨.choose ha ih.1, ih.2⟩

/-! ## First tokens -/

/-- The kind of the first of some tokens, `none` if there is none. -/
def nextKind (tokens : List Token) : Option Kind := tokens.head?.map (·.kind)

/-- What items, with one of `after` after them, can start with. -/
def nextKinds (items : List Item) (after : List (Option Kind)) : List (Option Kind) :=
  (firstOf items).map some ++ if isFirm items then [] else after

theorem nextKinds_nil (after : List (Option Kind)) : nextKinds [] after = after := rfl

theorem mem_nextKinds_cons {i : Item} {is : List Item} {k : Option Kind} :
    k ∈ nextKinds (i :: is) after ↔
      k ∈ (i.first Rule.first).map some ∨ i.isOptional = true ∧ k ∈ nextKinds is after := by
  cases hi : i.isOptional <;> simp [nextKinds, firstOf, seqFirst, isFirm, hi]

theorem nextKinds_append (xs ys : List Item) (after : List (Option Kind)) :
    nextKinds (xs ++ ys) after = nextKinds xs (nextKinds ys after) := by
  induction xs with
  | nil => rfl
  | cons i is ih =>
    rw [nextKinds, nextKinds] at ih
    cases hi : i.isOptional
    · simp [nextKinds, firstOf, seqFirst, isFirm, hi]
    · simpa [nextKinds, firstOf, seqFirst, isFirm, hi] using ih

theorem mem_nextKinds_of_isFirm (h : isFirm items = true) {k : Option Kind} :
    k ∈ nextKinds items after ↔ ∃ k', k = some k' ∧ k' ∈ firstOf items := by
  simp [nextKinds, h, eq_comm, and_comm]

theorem firstOf_body (r : Rule) : firstOf r.body = r.first := r.firstTo_six

theorem mem_choiceFirst {as : List (List Item)} {k : Kind} :
    k ∈ choiceFirst Rule.first as ↔ ∃ a ∈ as, k ∈ firstOf a := by
  induction as with
  | nil => simp [choiceFirst]
  | cons a as ih => simp [choiceFirst, ih, firstOf]

theorem Derives.nextKind_mem {ts : List Tree} (h : Derives items ts) (hfits : seqFits items = true)
    (hnode : ∀ r cs, .node r cs ∈ ts → r ≠ .file →
      ∃ k ∈ r.first, nextKind (tokensOfAll cs) = some k)
    (rest : List Token) : nextKind (tokensOfAll ts ++ rest) ∈ nextKinds items [nextKind rest] := by
  induction h with
  | nil => simp [tokensOfAll, nextKinds_nil]
  | token hk _ _ =>
    subst hk
    exact mem_nextKinds_cons.2 (.inl (by simp [tokensOfAll, Tree.tokens, nextKind, Item.first]))
  | @rule r cs is ts _ _ =>
    have hr : r ≠ .file := by simpa [Item.fits] using (seqFits_cons.1 hfits).1.1
    obtain ⟨k, hk, hnext⟩ := hnode r cs List.mem_cons_self hr
    obtain ⟨t, ht, rfl⟩ := Option.map_eq_some_iff.1 hnext
    obtain ⟨tokens, htokens⟩ := List.head?_eq_some_iff.1 ht
    refine mem_nextKinds_cons.2 (.inl ?_)
    simp [tokensOfAll, Tree.tokens, nextKind, htokens, Item.first, hk]
  | skip _ ih | stop _ ih =>
    exact mem_nextKinds_cons.2 (.inr ⟨rfl, ih (seqFits_cons.1 hfits).2 hnode⟩)
  | enter _ ih =>
    obtain ⟨⟨hbody, -⟩, hitems⟩ := seqFits_cons.1 hfits
    obtain ⟨hfirm, hbody⟩ := Bool.and_eq_true_iff.1 hbody
    have hmem := ih (seqFits_append hbody hitems) hnode
    rw [nextKinds_append] at hmem
    obtain ⟨k, hk, hfirst⟩ := (mem_nextKinds_of_isFirm hfirm).1 hmem
    exact mem_nextKinds_cons.2 (.inl (by simpa [hk, Item.first, firstOf] using hfirst))
  | round _ ih | first _ ih =>
    obtain ⟨⟨hbody, hlead⟩, hitems⟩ := seqFits_cons.1 hfits
    obtain ⟨hfirm, hbody'⟩ := Bool.and_eq_true_iff.1 hbody
    have hmem := ih (seqFits_append hbody' (seqFits_cons.2 ⟨⟨hbody, hlead⟩, hitems⟩)) hnode
    rw [nextKinds_append] at hmem
    obtain ⟨k, hk, hfirst⟩ := (mem_nextKinds_of_isFirm hfirm).1 hmem
    exact mem_nextKinds_cons.2 (.inl (by simpa [hk, Item.first, firstOf] using hfirst))
  | @choose as a is ts ha _ ih =>
    obtain ⟨⟨has, -⟩, hitems⟩ := seqFits_cons.1 hfits
    obtain ⟨hfirm, hbody⟩ := choiceFits_iff.1 has _ ha
    have hmem := ih (seqFits_append hbody hitems) hnode
    rw [nextKinds_append] at hmem
    obtain ⟨k, hk, hfirst⟩ := (mem_nextKinds_of_isFirm hfirm).1 hmem
    refine mem_nextKinds_cons.2 (.inl ?_)
    simpa [hk, Item.first] using mem_choiceFirst.2 ⟨a, ha, hfirst⟩

theorem Tree.Valid.nextKind_mem {t : Tree} (h : t.Valid fun _ => True) {r : Rule} {cs : List Tree}
    (ht : t = .node r cs) (hr : r ≠ .file) : ∃ k ∈ r.first, nextKind (tokensOfAll cs) = some k := by
  induction h generalizing r cs with
  | leaf => cases ht
  | @node r cs hderives _ ih =>
    cases ht
    have hmem := hderives.nextKind_mem r.fits_body (fun r' ds hd => ih _ hd rfl) []
    rw [List.append_nil, mem_nextKinds_of_isFirm (Rule.isFirm_body hr), firstOf_body] at hmem
    obtain ⟨k, hk, hfirst⟩ := hmem
    exact ⟨k, hfirst, hk⟩

/-- **What is derived starts with a first token of the items.** -/
theorem ContextFree.nextKind_mem {ts : List Tree} (h : ContextFree items ts)
    (hfits : seqFits items = true) (rest : List Token) :
    nextKind (tokensOfAll ts ++ rest) ∈ nextKinds items [nextKind rest] :=
  h.1.nextKind_mem hfits (fun _ _ hmem hr => (h.2 _ hmem).nextKind_mem rfl hr) rest

/-! ## Decisions -/

/-- The tokens that may stand for a name. -/
def nameKinds : List Kind := .identifier :: Keyword.all.map .keyword

namespace Rule

/-- What can come after a declaration. -/
def afterDeclaration : List (Option Kind) :=
  none :: some .rightBrace :: (.keyword .import_ :: Rule.first .declaration).map some

def afterField : List (Option Kind) := some .rightBrace :: nameKinds.map some

/-- What can come after the type of a field or of the values of a map. -/
def afterType : List (Option Kind) :=
  [some .equals, some .semicolon, some .rightAngle] ++ afterField

/-- What can come after a name that stands for a type. -/
def afterTypeName : List (Option Kind) :=
  [some .leftBrace, some .comma, some .leftBracket] ++ afterType

def followers : Rule → List (Option Kind)
  | file => [none]
  | importLine | declaration | namespaceBlock | messageBlock | enumBlock | optionsBlock
  | compoundBlock => afterDeclaration
  | field | value => afterField
  | default => some .semicolon :: afterField
  | defaultAtom | defaultGroup =>
    [some .semicolon, some .rightBracket] ++ afterField ++ (Rule.first .defaultAtom).map some
  | type | mapType => afterType
  | elementType | inlineEnum | inlineOptions => some .leftBracket :: afterType
  | scalarType | primitiveType | qualifiedName => afterTypeName
  | valueList | componentList => some .leftBracket :: afterType ++ afterDeclaration
  | name => [some .colon, some .colons, some .dot] ++ afterTypeName ++ afterDeclaration

end Rule

/-- Whether no token is in both of two sets. -/
def apart (kinds : List Kind) (after : List (Option Kind)) : Bool :=
  kinds.all fun k => !after.contains (some k)

/-- Whether a repetition is that of the modifiers of a field. -/
def areModifiers : List Item → List Item → Bool
  | [.token .identifier], .rule .name :: .token .colon :: _ => true
  | _, _ => false

/-- Whether a repetition is that of the atoms of a default, after which only an
    identifier may be mistaken for another one. -/
def areAtoms (body : List Item) (after : List (Option Kind)) : Bool :=
  match body with
  | [.rule .defaultAtom] => (firstOf body).all fun k => k == .identifier || !after.contains (some k)
  | _ => false

/-- Whether it can be told if a repetition of `body` goes on or `items` come, with one of
    `after` after them. -/
def Guard.isClear (body items : List Item) (after : List (Option Kind)) : Guard → Bool
  | .always => apart (firstOf body) (nextKinds items after)
  | .notBeforeColon => areModifiers body items
  | .sameLine => areAtoms body (nextKinds items after)

mutual

/-- Whether it can be told how to derive an item with `items` after it and one of `after`
    after them. -/
def Item.isClear (items : List Item) (after : List (Option Kind)) : Item → Bool
  | .token _ => true
  | .rule r => (nextKinds items after).all r.followers.contains
  | .optional body =>
    apart (firstOf body) (nextKinds items after) && seqIsClear (nextKinds items after) body
  | .many g body | .many1 g body =>
    g.isClear body items after && seqIsClear ((firstOf body).map some ++ nextKinds items after) body
  | .choice alternatives => choiceIsClear (nextKinds items after) alternatives

/-- Whether it can be told how to derive items with one of `after` after them. -/
def seqIsClear (after : List (Option Kind)) : List Item → Bool
  | [] => true
  | i :: is => i.isClear is after && seqIsClear after is

/-- Whether it can be told which of some alternatives is derived. -/
def choiceIsClear (after : List (Option Kind)) : List (List Item) → Bool
  | [] => true
  | a :: as =>
    seqIsClear after a && apart (firstOf a) ((choiceFirst Rule.first as).map some) &&
      choiceIsClear after as

end

variable {xs ys : List Item} {i : Item}

/-- **The grammar is clear.** -/
theorem Rule.isClear_body (r : Rule) : seqIsClear r.followers r.body = true := by
  cases r <;> decide +kernel

theorem apart_iff {kinds : List Kind} : apart kinds after = true ↔ ∀ k ∈ kinds, some k ∉ after := by
  simp [apart]

theorem nextKinds_many (g : Guard) (body items : List Item) (after : List (Option Kind)) :
    nextKinds (.many g body :: items) after = (firstOf body).map some ++ nextKinds items after := by
  simp [nextKinds, firstOf, seqFirst, isFirm, Item.first, Item.isOptional]

theorem areModifiers_append {body : List Item} (h : areModifiers body xs = true) (ys : List Item) :
    areModifiers body (xs ++ ys) = true := by
  unfold areModifiers at h
  split at h
  · rfl
  · cases h

theorem Item.isClear_append (h : i.isClear xs (nextKinds ys after) = true) :
    i.isClear (xs ++ ys) after = true := by
  have hguard : ∀ (g : Guard) (body : List Item), g.isClear body xs (nextKinds ys after) = true →
      g.isClear body (xs ++ ys) after = true := by
    intro g body hg
    cases g with
    | notBeforeColon => exact areModifiers_append hg ys
    | always | sameLine => simpa only [Guard.isClear, nextKinds_append] using hg
  cases i with
  | token => rfl
  | many g body | many1 g body =>
    rw [Item.isClear, nextKinds_append]
    obtain ⟨hg, hbody⟩ := Bool.and_eq_true_iff.1 h
    exact Bool.and_eq_true_iff.2 ⟨hguard g body hg, hbody⟩
  | rule | optional | choice => simpa only [Item.isClear, nextKinds_append] using h

theorem seqIsClear_cons {is : List Item} :
    seqIsClear after (i :: is) = true ↔ i.isClear is after = true ∧ seqIsClear after is = true := by
  rw [seqIsClear, Bool.and_eq_true]

theorem seqIsClear_append (hx : seqIsClear (nextKinds ys after) xs = true)
    (hy : seqIsClear after ys = true) : seqIsClear after (xs ++ ys) = true := by
  induction xs with
  | nil => exact hy
  | cons i is ih =>
    obtain ⟨hi, his⟩ := seqIsClear_cons.1 hx
    exact seqIsClear_cons.2 ⟨Item.isClear_append hi, ih his⟩

end MessageSchema
