/-
  Tokens at other places.

  The grammar looks at the kinds of tokens and, in defaults, at the lines on which they
  stand, and at nothing else; the two separators of names mean the same to it.  So two
  lists of tokens that differ only in offsets, columns and separators have the same
  derivations, but for these, and what comes after a derivation counts only where a
  default ends.
-/
import MessageSchema.Proofs.Acceptance

namespace MessageSchema

open List Option

/-- Tokens that differ in their offsets and columns at most. -/
structure Token.Alike (t t' : Token) : Prop where
  kind : t.kind = t'.kind
  image : t.image = t'.image
  first : t.first.line = t'.first.line
  last : t.last.line = t'.last.line

def Kind.isLink : Kind → Bool
  | .colons | .dot => true
  | _ => false

/-- The same kind, or two separators. -/
def Kind.Near (k k' : Kind) : Prop := k = k' ∨ k.isLink = true ∧ k'.isLink = true

variable {t t' : Token}

theorem Kind.Near.symm {k k' : Kind} (h : k.Near k') : k'.Near k := h.imp Eq.symm And.symm

theorem Kind.Near.eq_iff {k k' l : Kind} (h : k.Near k') (hl : l.isLink = false) :
    k = l ↔ k' = l := by
  rcases h with rfl | ⟨hk, hk'⟩
  · rfl
  · constructor <;> rintro rfl <;> simp_all

/-- Tokens on the same lines that mean the same to the grammar. -/
structure Token.Near (t t' : Token) : Prop where
  kind : t.kind.Near t'.kind
  first : t.first.line = t'.first.line
  last : t.last.line = t'.last.line

theorem Token.Near.symm (h : t.Near t') : t'.Near t := ⟨h.kind.symm, h.first.symm, h.last.symm⟩

theorem Token.Alike.near (h : t.Alike t') : t.Near t' := ⟨.inl h.kind, h.first, h.last⟩

/-! ## Both or neither -/

/-- Two computations that both fail, or both give results, which are related. -/
inductive Both {α β : Type} (R : α → β → Prop) : Except Fault α → Except Fault β → Prop
  | ok {a b} : R a b → Both R (.ok a) (.ok b)
  | error {e e'} : Both R (.error e) (.error e')

namespace Both

variable {α β γ δ : Type} {R : α → β → Prop} {S : γ → δ → Prop} {x : Except Fault α}
  {y : Except Fault β}

theorem bind {g : α → Except Fault γ} {h : β → Except Fault δ} (hxy : Both R x y)
    (hgh : ∀ a b, R a b → Both S (g a) (h b)) : Both S (x >>= g) (y >>= h) := by
  cases hxy with
  | ok hab => exact hgh _ _ hab
  | error => exact .error

theorem eq_ok {y : Except Fault α} (h : Both Eq x y) {a : α} (hx : x = .ok a) : y = .ok a := by
  subst hx
  cases h with
  | ok hab => rw [hab]

theorem mapM {g : γ → Except Fault α} {h : δ → Except Fault β} {cs : List γ} {ds : List δ}
    (hall : Forall₂ (fun c d => Both R (g c) (h d)) cs ds) :
    Both (Forall₂ R) (cs.mapM g) (ds.mapM h) := by
  induction hall with
  | nil => exact .ok .nil
  | cons hone _ ih =>
    rw [mapM_cons, mapM_cons]
    exact hone.bind fun _ _ hab => ih.bind fun _ _ hrest => .ok (.cons hab hrest)

end Both

/-! ## Trees -/

namespace Tree

variable {R : Token → Token → Prop} {t t' : Tree}

variable (R) in
/-- Two trees of one shape over related tokens. -/
inductive Rel : Tree → Tree → Prop
  | leaf {a b} : R a b → Rel (.leaf a) (.leaf b)
  | node {r cs ds} : Forall₂ Rel cs ds → Rel (.node r cs) (.node r ds)

theorem Rel.children (h : Rel R t t') : Forall₂ (Rel R) t.children t'.children := by
  cases h with
  | leaf _ => exact .nil
  | node hs => exact hs

theorem Rel.single {p q : Rule} {cs : List Tree} (h : Rel R (.node p [.node q cs]) t) :
    ∃ ds, t = .node p [.node q ds] ∧ Rel R (.node q cs) (.node q ds) := by
  rcases h with _ | hs
  rcases hs with _ | ⟨hone, _ | _⟩
  rcases hone with _ | hcs
  exact ⟨_, rfl, .node hcs⟩

theorem Rel.isNode_eq (h : Rel R t t') (q : Rule) : t.isNode q = t'.isNode q := by
  cases h <;> rfl

mutual

theorem Rel.tokens : ∀ {t t' : Tree}, Rel R t t' → Forall₂ R t.tokens t'.tokens
  | .leaf _, _, .leaf h => .cons h .nil
  | .node _ _, _, .node hs => rel_tokensOfAll hs

theorem rel_tokensOfAll : ∀ {cs ds : List Tree}, Forall₂ (Rel R) cs ds →
    Forall₂ R (tokensOfAll cs) (tokensOfAll ds)
  | [], _, .nil => .nil
  | _ :: _, _, .cons h hs => rel_append h.tokens (rel_tokensOfAll hs)

end

theorem Rel.find? (h : Rel R t t') (q : Rule) : Option.Rel (Rel R) (t.find? q) (t'.find? q) := by
  unfold Tree.find?
  have hchildren := h.children
  generalize t.children = cs, t'.children = ds at hchildren
  induction hchildren with
  | nil => exact .none
  | cons hone _ ih =>
    rw [find?_cons, find?_cons, hone.isNode_eq q]
    split
    · exact .some hone
    · exact ih

theorem Rel.leaves {k : Kind} (hR : ∀ a b, R a b → (a.kind = k ↔ b.kind = k)) (h : Rel R t t') :
    Forall₂ (fun a b => R a b ∧ a.kind = k) (t.leaves k) (t'.leaves k) := by
  unfold Tree.leaves
  have hchildren := h.children
  generalize t.children = cs, t'.children = ds at hchildren
  induction hchildren with
  | nil => exact .nil
  | @cons c d _ _ hone _ ih =>
    cases hone with
    | @leaf a b hab =>
      rw [filterMap_cons, filterMap_cons, leaf?, leaf?]
      by_cases ha : a.kind = k
      · rw [if_pos ha, if_pos ((hR a b hab).1 ha)]
        exact .cons ⟨hab, ha⟩ ih
      · rw [if_neg ha, if_neg (ha ∘ (hR a b hab).2)]
        exact ih
    | node _ => exact ih

theorem Rel.image_eq (hR : ∀ a b, R a b → a.image = b.image) (h : Rel R t t') :
    t.image = t'.image := by
  have himages : t.tokens.map (·.image) = t'.tokens.map (·.image) :=
    map_eq_of_forall₂ (h.tokens.imp hR)
  rw [Tree.image, Tree.image, himages]

mutual

theorem Rel.symm : ∀ {t t' : Tree}, Rel R t t' → Rel (fun a b => R b a) t' t
  | .leaf _, _, .leaf h => .leaf h
  | .node _ _, _, .node hs => .node (rel_symm hs)

theorem rel_symm : ∀ {cs ds : List Tree}, Forall₂ (Rel R) cs ds →
    Forall₂ (Rel fun a b => R b a) ds cs
  | [], _, .nil => .nil
  | _ :: _, _, .cons h hs => .cons h.symm (rel_symm hs)

end

mutual

theorem Rel.refl : ∀ t : Tree, (∀ a ∈ t.tokens, R a a) → Rel R t t
  | .leaf a, h => .leaf (h a mem_cons_self)
  | .node _ cs, h => .node (rel_refl cs h)

theorem rel_refl : ∀ ts : List Tree, (∀ a ∈ tokensOfAll ts, R a a) → Forall₂ (Rel R) ts ts
  | [], _ => .nil
  | t :: ts, h => by
    rw [tokensOfAll, forall_mem_append] at h
    exact .cons (Rel.refl t h.1) (rel_refl ts h.2)

end

mutual

/-- Related tokens are those of a tree of the same shape. -/
theorem exists_rel : ∀ (t : Tree) {us : List Token}, Forall₂ R t.tokens us →
    ∃ t', Rel R t t' ∧ t'.tokens = us
  | .leaf _, _, .cons h .nil => ⟨_, .leaf h, rfl⟩
  | .node r cs, _, h => by
    obtain ⟨ds, hds, htokens⟩ := exists_rel_all cs h
    exact ⟨.node r ds, .node hds, htokens⟩

theorem exists_rel_all : ∀ (ts : List Tree) {us : List Token}, Forall₂ R (tokensOfAll ts) us →
    ∃ ts', Forall₂ (Rel R) ts ts' ∧ tokensOfAll ts' = us
  | [], _, .nil => ⟨[], .nil, rfl⟩
  | t :: ts, us, h => by
    have hfirst := forall₂_take t.tokens.length h
    have hrest := forall₂_drop t.tokens.length h
    rw [tokensOfAll, take_left] at hfirst
    rw [tokensOfAll, drop_left] at hrest
    obtain ⟨t', ht, htokens⟩ := exists_rel t hfirst
    obtain ⟨ts', hts, htokens'⟩ := exists_rel_all ts hrest
    exact ⟨t' :: ts', .cons ht hts, by rw [tokensOfAll, htokens, htokens', take_append_drop]⟩

end

end Tree

/-! ## Derivations -/

open MessageSchema.Tree (tokensOfAll)

mutual

/-- Whether the separators of names are alternatives to each other wherever an item speaks of
    them. -/
def Item.isFair : Item → Bool
  | .token k => !k.isLink
  | .rule _ => true
  | .optional body | .many _ body | .many1 _ body => seqIsFair body
  | .choice alternatives => choiceIsFair alternatives

/-- Whether the separators of names are alternatives to each other in some items. -/
def seqIsFair : List Item → Bool
  | [] => true
  | i :: is => i.isFair && seqIsFair is

/-- Whether the separators of names stand side by side among some alternatives. -/
def choiceIsFair : List (List Item) → Bool
  | [] => true
  | [.token .colons] :: [.token .dot] :: as => choiceIsFair as
  | a :: as => seqIsFair a && choiceIsFair as

end

/-- **Where one separator may stand, the other may.** -/
theorem Rule.isFair_body (r : Rule) : seqIsFair r.body = true := by
  cases r <;> decide +kernel

theorem seqIsFair_cons {i : Item} {is : List Item} :
    seqIsFair (i :: is) = true ↔ i.isFair = true ∧ seqIsFair is = true := by
  rw [seqIsFair, Bool.and_eq_true]

theorem seqIsFair_append {xs ys : List Item} (hx : seqIsFair xs = true) (hy : seqIsFair ys = true) :
    seqIsFair (xs ++ ys) = true := by
  induction xs with
  | nil => exact hy
  | cons i is ih => exact seqIsFair_cons.2 ⟨(seqIsFair_cons.1 hx).1, ih (seqIsFair_cons.1 hx).2⟩

theorem isFair_of_mem {as : List (List Item)} (h : choiceIsFair as = true) {a : List Item}
    (ha : a ∈ as) :
    seqIsFair a = true ∨ ∃ k, k.isLink = true ∧ a = [.token k] ∧ ∀ k', k'.isLink = true →
      [.token k'] ∈ as := by
  unfold choiceIsFair at h
  split at h
  · cases ha
  · next as =>
    have hboth : ∀ k : Kind, k.isLink = true →
        [.token k] ∈ [Item.token .colons] :: [.token .dot] :: as := by
      intro k hk
      cases k <;> simp_all [Kind.isLink]
    rcases mem_cons.1 ha with rfl | ha
    · exact .inr ⟨_, rfl, rfl, hboth⟩
    rcases mem_cons.1 ha with rfl | ha
    · exact .inr ⟨_, rfl, rfl, hboth⟩
    · exact (isFair_of_mem h ha).imp id fun ⟨k, hk, heq, _⟩ => ⟨k, hk, heq, hboth⟩
  · next as _ =>
    obtain ⟨hfirst, hrest⟩ := Bool.and_eq_true_iff.1 h
    rcases mem_cons.1 ha with rfl | ha
    · exact .inl hfirst
    · exact (isFair_of_mem hrest ha).imp id fun ⟨k, hk, heq, hall⟩ =>
        ⟨k, hk, heq, fun k' hk' => .tail _ (hall k' hk')⟩
termination_by as.length

/-- Whether a further atom of a default starts at a place. -/
def Cursor.goesOn (c : Cursor) : Bool :=
  c.startsWith (firstOf [.rule .defaultAtom]) && c.allows .sameLine

theorem eq_atom_of_isClear {body items : List Item} {after : List (Option Kind)}
    (h : Guard.sameLine.isClear body items after = true) : body = [.rule .defaultAtom] := by
  have h : areAtoms body (nextKinds items after) = true := h
  unfold areAtoms at h
  split at h
  · rfl
  · cases h

section Derivations

variable {R : Token → Token → Prop}

theorem rel_lastToken {b b' : Option Token} {cs ds : List Tree} (hb : Rel R b b')
    (h : Forall₂ (Tree.Rel R) cs ds) : Rel R (lastToken b cs) (lastToken b' ds) := by
  have hlast := rel_getLast? (Tree.rel_tokensOfAll h)
  rw [lastToken, lastToken]
  rcases rel_cases hlast with ⟨hc, hd⟩ | ⟨t, t', hc, hd, ht⟩
  · rwa [hc, hd]
  · rw [hc, hd]
    exact .some ht

variable (R) in
/-- Tokens before which the same defaults end. -/
def EndAlike (rest rest' : List Token) : Prop :=
  ∀ b b', Rel R b b' → (⟨b, rest⟩ : Cursor).goesOn = (⟨b', rest'⟩ : Cursor).goesOn

/-- Both separators start an atom of a default. -/
theorem starts_atom_iff {k k' : Kind} (h : k.Near k') :
    k ∈ firstOf [.rule .defaultAtom] ↔ k' ∈ firstOf [.rule .defaultAtom] := by
  have hlink : ∀ k : Kind, k.isLink = true → k ∈ firstOf [.rule .defaultAtom] := by
    intro k hk
    cases k <;> first | decide +kernel | cases hk
  rcases h with rfl | ⟨hk, hk'⟩
  · rfl
  · exact iff_of_true (hlink k hk) (hlink k' hk')

variable (hR : ∀ a b, R a b → a.Near b)

include hR

variable {rest rest' : List Token}

theorem EndAlike.append {xs ys : List Token} (h : EndAlike R rest rest') (hxs : Forall₂ R xs ys) :
    EndAlike R (xs ++ rest) (ys ++ rest') := by
  intro b b' hb
  cases hxs with
  | nil => exact h b b' hb
  | cons hone _ =>
    obtain ⟨hkind, hline, -⟩ := hR _ _ hone
    cases hb with
    | none => simp [Cursor.goesOn, Cursor.allows]
    | some hb =>
      simp [Cursor.goesOn, Cursor.startsWith, Cursor.next, Cursor.allows, starts_atom_iff hkind,
        hline, (hR _ _ hb).last]

/-- **A derivation over related tokens**, in front of tokens before which the same defaults
    end.  A separator in front of items stands for either of the two. -/
theorem Parses.of_rel {b b' : Option Token} {items : List Item} {ts ts' : List Tree}
    {after : List (Option Kind)} (h : Parses b items ts rest) (hclear : Clear after items rest)
    (hb : Rel R b b') (hts : Forall₂ (Tree.Rel R) ts ts') (hrest : EndAlike R rest rest') :
    (seqIsFair items = true → Parses b' items ts' rest') ∧
      ∀ k is, k.isLink = true → seqIsFair is = true → items = .token k :: is →
        ∃ k', k'.isLink = true ∧ Parses b' (.token k' :: is) ts' rest' := by
  induction h generalizing after b' ts' rest' with
  | nil =>
    cases hts
    exact ⟨fun _ => .nil, fun _ _ _ _ h => by cases h⟩
  | @token b k t is ts rest hk _ ih =>
    cases hts with
    | cons hone hts =>
      cases hone with
      | @leaf _ t' ht =>
        have hgo := (ih hclear.tail (.some ht) hts hrest).1
        have hkind := (hR _ _ ht).kind
        refine ⟨fun hfair => ?_, fun k is hlink his heq => ?_⟩
        · obtain ⟨hk', his⟩ := seqIsFair_cons.1 hfair
          exact .token ((hkind.eq_iff (by simpa [Item.isFair] using hk')).1 hk) (hgo his)
        · cases heq
          refine ⟨t'.kind, ?_, .token rfl (hgo his)⟩
          rcases hkind with hkind | ⟨-, hkind⟩
          · rw [← hkind, hk, hlink]
          · exact hkind
  | @rule b r cs is ts rest _ h ihcs ih =>
    refine ⟨fun hfair => ?_, fun _ _ _ _ h => by cases h⟩
    cases hts with
    | cons hone hts =>
      cases hone with
      | node hcs =>
        have hbody :=
          ihcs (hclear.rule h) hb hcs (hrest.append hR (Tree.rel_tokensOfAll hts))
        exact .rule (hbody.1 r.isFair_body)
          ((ih hclear.tail (rel_lastToken hb hcs) hts hrest).1 (seqIsFair_cons.1 hfair).2)
  | skip _ ih =>
    refine ⟨fun hfair => ?_, fun _ _ _ _ h => by cases h⟩
    exact .skip ((ih hclear.tail hb hts hrest).1 (seqIsFair_cons.1 hfair).2)
  | enter _ ih =>
    refine ⟨fun hfair => ?_, fun _ _ _ _ h => by cases h⟩
    have hgo := ih hclear.enter.2 hb hts hrest
    exact .enter (hgo.1 (seqIsFair_append (seqIsFair_cons.1 hfair).1 (seqIsFair_cons.1 hfair).2))
  | @stop b g body is ts rest hreleases h ih =>
    refine ⟨fun hfair => ?_, fun _ _ _ _ h => by cases h⟩
    refine .stop ?_ ((ih hclear.tail hb hts hrest).1 (seqIsFair_cons.1 hfair).2)
    have hguard := (Bool.and_eq_true_iff.1 hclear.item).1
    have hno := stops_of_releases hguard hreleases hclear.tail.fits h hclear.next
    cases g with
    | always | notBeforeColon => trivial
    | sameLine =>
      obtain rfl := eq_atom_of_isClear hguard
      have hsame := hrest.append hR (Tree.rel_tokensOfAll hts) b b' hb
      exact Machine.releases_of_not_allows hclear.round.1 (hsame.symm.trans hno)
  | @round b g body is ts rest hadmits h ih | @first b g body is ts rest hadmits h ih =>
    refine ⟨fun hfair => ?_, fun _ _ _ _ h => by cases h⟩
    have hclear : Clear after (.many g body :: is) rest := ⟨hclear.fits, hclear.clear, hclear.next⟩
    obtain ⟨hbody, hclear'⟩ := hclear.round
    have hguard := (Bool.and_eq_true_iff.1 hclear.item).1
    have hgo := (ih hclear' hb hts hrest).1 (seqIsFair_append (seqIsFair_cons.1 hfair).1 hfair)
    have hadmits' : g.Admits b' (tokensOfAll ts' ++ rest') := by
      cases g with
      | always | notBeforeColon => trivial
      | sameLine =>
        obtain rfl := eq_atom_of_isClear hguard
        have hyes : (⟨b, tokensOfAll ts ++ rest⟩ : Cursor).goesOn = true :=
          Bool.and_eq_true_iff.2 ⟨h.startsWith hbody hclear.fits,
            allows_of_admits hguard hadmits hclear.fits h⟩
        have hsame := hrest.append hR (Tree.rel_tokensOfAll hts) b b' hb
        exact Machine.admits_of_allows (Bool.and_eq_true_iff.1 (hsame.symm.trans hyes)).2
    first
    | exact .round hadmits' hgo
    | exact .first hadmits' hgo
  | choose ha _ ih =>
    refine ⟨fun hfair => ?_, fun _ _ _ _ h => by cases h⟩
    obtain ⟨hfair, hfairs⟩ := seqIsFair_cons.1 hfair
    have hgo := ih (hclear.choose ha).2 hb hts hrest
    rcases isFair_of_mem hfair ha with hfair | ⟨k, hk, rfl, hall⟩
    · exact .choose ha (hgo.1 (seqIsFair_append hfair hfairs))
    · obtain ⟨k', hk', hparses⟩ := hgo.2 k _ hk hfairs rfl
      exact .choose (hall k' hk') hparses

theorem Derivation.of_rel {tokens tokens' : List Token} {t : Tree} (h : Derivation tokens t)
    (htokens : Forall₂ R tokens tokens') : ∃ t', Tree.Rel R t t' ∧ Derivation tokens' t' := by
  obtain ⟨cs, rfl, rfl, hparses⟩ := h
  obtain ⟨ds, hds, htokens⟩ := Tree.exists_rel_all cs htokens
  refine ⟨.node .file ds, .node hds, ds, rfl, htokens, ?_⟩
  exact (hparses.of_rel hR (.ofRule (by decide)) .none hds
    fun _ _ _ => rfl).1 Rule.file.isFair_body

/-- **Two texts with related tokens are both read or both refused**, if stray runs stand in
    both or in neither. -/
theorem Source.both_read {text text' : String} (file : String)
    (hstrays : (Scan.ofText text).strays = [] ↔ (Scan.ofText text').strays = [])
    (htokens : (Scan.ofText text).strays = [] →
      Forall₂ R (Scan.ofText text).tokens (Scan.ofText text').tokens) :
    Both (fun s s' : Source => s.file = s'.file ∧ s.text = text ∧ s'.text = text' ∧
      Tree.Rel R s.tree s'.tree ∧
      (Machine.parse .strict (Scan.ofText text).tokens).tree = some s.tree)
      (Source.read file text) (Source.read file text') := by
  cases hs : Source.read file text with
  | ok s =>
    obtain ⟨hnone, hderivation, hsource⟩ := read_eq_ok_iff.1 hs
    obtain ⟨t', htree, hderivation'⟩ := hderivation.of_rel hR (htokens hnone)
    have hs' := read_eq_ok_iff.2 ⟨hstrays.1 hnone, hderivation',
      (rfl :
      (⟨file, text', (Scan.ofText text').tokens, (Scan.ofText text').comments, t'⟩ : Source) = _)⟩
    rw [hs']
    rw [hsource] at htree ⊢
    exact .ok ⟨rfl, rfl, rfl, htree, hderivation.parse_eq.2⟩
  | error e =>
    cases hs' : Source.read file text' with
    | error e' => exact .error
    | ok s' =>
      -- a derivation over the tokens of the other text would be one over these
      obtain ⟨hnone, hderivation, -⟩ := read_eq_ok_iff.1 hs'
      have hnear : ∀ a b, R b a → a.Near b := fun a b hab => (hR b a hab).symm
      obtain ⟨t, -, hderivation⟩ := hderivation.of_rel hnear (htokens (hstrays.2 hnone)).flip
      have hread := read_eq_ok_iff.2 ⟨hstrays.2 hnone, hderivation,
        (rfl :
        (⟨file, text, (Scan.ofText text).tokens, (Scan.ofText text).comments, t⟩ : Source) = _)⟩
      rw [hs] at hread
      cases hread

end Derivations

end MessageSchema
