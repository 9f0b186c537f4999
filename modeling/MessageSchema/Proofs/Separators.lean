/-
  Separators of type names.

  A dot and a double colon between the parts of a type name mean the same: a text in which
  some of these separators are exchanged is read to the same draft, up to the pass that
  writes all of them as double colons, and so compiles to the same models.  Defaults, in
  which separators are part of the text, stay as they are.
-/
import MessageSchema.Proofs.CommentOwners
import MessageSchema.Proofs.FieldTrees
import MessageSchema.Proofs.Relinking
import MessageSchema.Proofs.SeparateCompilation

namespace MessageSchema

open List QualifiedName Piece Draft Reader

theorem eq_of_before {α : Type} {us vs us' vs' : List α} {a b c : α}
    (hnodup : (us ++ a :: c :: vs).Nodup) (h : us ++ a :: c :: vs = us' ++ b :: c :: vs') :
    a = b := by
  rw [append_cons] at hnodup h
  rw [append_cons us'] at h
  obtain ⟨-, htail, hapart⟩ := nodup_append.1 hnodup
  obtain ⟨hbefore, -⟩ := (append_cons_inj_of_notMem (fun hin => hapart _ hin _ mem_cons_self rfl)
    (nodup_cons.1 htail).1).1 h
  exact (cons.inj (append_inj' hbefore rfl).2).1

/-! ## Separators in trees -/

/-- A token, and the next one: before a separator stands a name. -/
def BeforeLink (a b : Token) : Prop := b.kind.isLink = true → a.kind.IsName

namespace Tree

variable {P : Token → Prop} {cs : List Tree} {t d e : Tree} {x : Token}

theorem isLink_of_isName {k : Kind} (h : k.IsName) : k.isLink = false := by
  rcases h with rfl | ⟨w, rfl⟩ <;> rfl

theorem isChain_beforeLink {ts : List Tree}
    (h : Derives [.many .always [Rule.oneOf [.colons, .dot], .rule .name]] ts)
    (hts : ∀ t ∈ ts, t.Valid P) {a : Token} (ha : a.kind.IsName) :
    (a :: tokensOfAll ts).IsChain BeforeLink := by
  induction hn : ts.length using Nat.strongRecOn generalizing ts a with
  | _ n ih =>
    cases h with
    | stop h =>
      obtain rfl := h.of_nil
      exact .singleton a
    | round h =>
      obtain ⟨t, rest, rfl, -, h'⟩ := Derives.of_oneOf h
      obtain ⟨cs, rest, rfl, h''⟩ := h'.of_rule
      obtain ⟨b, cs, rfl, hk, hcs⟩ := Derives.of_oneOf (hts (.node .name cs) (by simp)).derives
      obtain rfl := hcs.of_nil
      have hb : b.kind.IsName :=
        (mem_cons.1 hk).imp id fun hk => (mem_map.1 hk).imp fun _ hw => hw.2.symm
      have hrest :=
        ih rest.length (by simp at hn; omega) h'' (fun t ht => hts t (by simp [ht])) hb rfl
      refine .cons_cons (fun _ => ha) (.cons_cons (fun hlink => ?_) hrest)
      rw [isLink_of_isName hb] at hlink
      cases hlink

theorem Valid.isChain_qualifiedName (h : (Tree.node .qualifiedName cs).Valid P) :
    ∃ a ts, (Tree.node .qualifiedName cs).tokens = a :: ts ∧ a.kind = .identifier ∧
      (a :: ts).IsChain BeforeLink := by
  obtain ⟨a, ts, rfl, ha, hts⟩ := Derives.of_token h.derives
  exact ⟨a, _, rfl, ha,
    isChain_beforeLink hts (fun t ht => h.child (mem_cons_of_mem _ ht)) (.inl ha)⟩

theorem Valid.exists_before (h : (Tree.node .qualifiedName cs).Valid P) {t : Token}
    (ht : t ∈ (Tree.node .qualifiedName cs).tokens) (hlink : t.kind.isLink = true) :
    ∃ us n vs, (Tree.node .qualifiedName cs).tokens = us ++ n :: t :: vs ∧ n.kind.IsName := by
  obtain ⟨a, ts, htokens, ha, hchain⟩ := h.isChain_qualifiedName
  obtain ⟨us, vs, hsplit⟩ := append_of_mem ht
  rw [hsplit] at htokens
  rcases eq_nil_or_concat' us with rfl | ⟨us, n, rfl⟩
  · -- the first token of a type name is no separator
    obtain rfl := (cons.inj htokens).1
    rw [ha] at hlink
    cases hlink
  · rw [← htokens, append_assoc] at hchain
    exact ⟨us, n, vs, by simpa using hsplit,
      isChain_iff_forall_rel_of_append_cons_cons.1 hchain rfl hlink⟩

/-- **Two parts of a tree with a common token**: one is part of the other. -/
theorem Valid.mem_parts_of_common {q r : Rule} (h : t.Valid P) (hnodup : t.tokens.Nodup)
    (hd : d ∈ t.parts q) (he : e ∈ t.parts r) (hxd : x ∈ d.tokens) (hxe : x ∈ e.tokens) :
    d ∈ e.parts q ∨ e ∈ d.parts r := by
  induction h with
  | leaf _ => cases hd
  | @node p cs _ _ ih =>
    rcases eq_or_exists_of_mem_parts hd with ⟨-, rfl⟩ | ⟨c, hc, hdc⟩
    · exact .inr he
    rcases eq_or_exists_of_mem_parts he with ⟨-, rfl⟩ | ⟨c', hc', hec⟩
    · exact .inl hd
    rw [tokens, tokensOfAll_eq] at hnodup
    obtain ⟨hone, hdisjoint⟩ := nodup_flatMap.1 hnodup
    have hx := (tokens_infix_of_mem_parts hdc).subset hxd
    have hx' := (tokens_infix_of_mem_parts hec).subset hxe
    obtain rfl : c = c' := by
      by_contra hne
      have hsymm : Std.Symm (Function.onFun List.Disjoint tokens) :=
        ⟨fun _ _ hab _ hx hx' => hab hx' hx⟩
      exact hdisjoint.forall hc hc' hne hx hx'
    exact ih c hc (hone c hc) hdc hec

theorem Valid.not_mem_parts (rs : List Rule) (hrs : ∀ r ∈ rs, ∀ r' ∈ seqRules r.body, r' ∈ rs)
    {q : Rule} (hq : q ∉ rs) (h : t.Valid P) :
    ∀ {r cs}, t = .node r cs → r ∈ rs → d ∉ t.parts q := by
  induction h with
  | leaf _ => rintro _ _ ⟨⟩
  | @node r cs hderives hcs ih =>
    rintro _ _ ⟨⟩ hr hd
    rcases eq_or_exists_of_mem_parts hd with ⟨rfl, -⟩ | ⟨c, hc, hd⟩
    · exact hq hr
    · cases c with
      | leaf _ => cases hd
      | node r' ds => exact ih _ hc rfl (hrs r hr r' (hderives.mem_seqRules hc)) hd

/-- **No default shares a token with a type name.** -/
theorem Valid.disjoint_default (h : t.Valid P) (hnodup : t.tokens.Nodup)
    (hd : d ∈ t.parts .qualifiedName) (he : e ∈ t.parts .default) (hxd : x ∈ d.tokens) :
    x ∉ e.tokens := by
  intro hxe
  obtain ⟨ds, rfl⟩ := h.exists_node hd
  obtain ⟨es, rfl⟩ := h.exists_node he
  rcases h.mem_parts_of_common hnodup hd he hxd hxe with hpart | hpart
  · exact Valid.not_mem_parts [.default, .defaultAtom, .defaultGroup] (by decide) (by decide)
      (h.of_mem_parts he) rfl mem_cons_self hpart
  · exact Valid.not_mem_parts [.qualifiedName, .name] (by decide) (by decide) (h.of_mem_parts hd)
      rfl mem_cons_self hpart

end Tree

theorem Tree.mem_tokens_of_surrounds {e : Tree} {tokens : List Token}
    (hordered : Margins.Ordered tokens) (he : e.tokens <:+: tokens) {t : Token} (ht : t ∈ tokens)
    {c : Comment} (hc : c.first = t.first) (h : e.surrounds c = true) : t ∈ e.tokens := by
  obtain ⟨u, v, rfl⟩ := he
  unfold surrounds at h
  split at h
  · next a b ha hb =>
    have ha := mem_of_mem_head? ha
    have hb := mem_of_getLast? hb
    obtain ⟨hfirst, hlast⟩ : a.first.offset ≤ t.first.offset ∧ t.first.offset ≤ b.first.offset := by
      simpa [hc] using h
    obtain ⟨hleft, -, hbefore⟩ := pairwise_append.1 hordered
    obtain ⟨-, -, hafter⟩ := pairwise_append.1 hleft
    rcases mem_append.1 ht with ht | ht
    · rcases mem_append.1 ht with ht | ht
      · exact absurd (hafter t ht a ha) (Nat.not_lt.2 hfirst)
      · exact ht
    · exact absurd (hbefore b (mem_append_right u hb) t ht) (Nat.not_lt.2 hlast)
  · cases h

/-! ## Respelled texts -/

/-- Whether a token of a text stands in a type name: the type of a field or a part of it, or the
    parent of a message or an enumeration. -/
def inTypeName (text : String) (t : Token) : Bool :=
  match (Machine.parse .strict (Scan.ofText text).tokens).tree with
  | some tree => (tree.parts .qualifiedName).any fun d => decide (t ∈ d.tokens)
  | none => false

/-- A text in which the chosen separators of type names are exchanged, double colons for dots
    and dots for double colons. -/
def respell (chosen : Token → Bool) (text : String) : String :=
  String.ofList ((Lexer.pieces text.toList).flatMap (relink fun t => chosen t && inTypeName text t))

example :
    respell (fun _ => true) "message M:a.b\x7bx:c::d=e.f\x7d" = "message M:a::b\x7bx:c.d=e.f\x7d" :=
  by decide +kernel

theorem map_image_relinkFrom (chosen : Token → Bool) (p : Position) (q : List Piece) :
    (relinkFrom chosen p q).map (·.image) = q.map (relink chosen) := by
  induction q generalizing p with
  | nil => rfl
  | cons x xs ih => rw [relinkFrom, map_cons, map_cons, x.image_relinkAt, ih]

section Respelled

open Lexer

variable (chosen : Token → Bool) {file text : String} {s : Source}
  (hs : Source.read file text = .ok s)
include hs

theorem exists_typeName {x : Piece}
    (hx : (x.otherLink? fun t => chosen t && inTypeName text t).isSome = true) :
    ∃ l d, l.isLink = true ∧ x.shape = .token l ∧ d ∈ s.tree.parts .qualifiedName ∧
      x.lexeme l ∈ d.tokens := by
  obtain ⟨other, hother⟩ := Option.isSome_iff_exists.1 hx
  obtain ⟨l, hl, hshape, hchosen⟩ := (otherLink?_elim hother).1
  obtain ⟨-, hderivation, -⟩ := Source.read_eq_ok_iff.1 hs
  obtain ⟨-, hin⟩ := Bool.and_eq_true_iff.1 hchosen
  rw [inTypeName, hderivation.parse_eq.2] at hin
  obtain ⟨d, hd, hmem⟩ := any_eq_true.1 hin
  exact ⟨l, d, hl, hshape, hd, of_decide_eq_true hmem⟩

/-- Before a separator that is exchanged stands a name. -/
theorem isName_before {xs ys : List Piece} {x y : Piece}
    (hq : pieces text.toList = xs ++ x :: y :: ys)
    (hy : (y.otherLink? fun t => chosen t && inTypeName text t).isSome = true) {k : Kind}
    (hk : x.shape = .token k) : k.IsName := by
  obtain ⟨l, d, hl, hshape, hd, hmem⟩ := exists_typeName chosen hs hy
  obtain ⟨cs, rfl⟩ := (Source.read_valid hs).exists_node hd
  obtain ⟨us, n, vs, hsplit, hname⟩ :=
    ((Source.read_valid hs).of_mem_parts hd).exists_before hmem hl
  obtain ⟨u, v, hinfix⟩ := Tree.tokens_infix_of_mem_parts hd
  -- the token before the separator in the type name is the one before it in the text
  have hscan : (Scan.ofText text).tokens = xs.filterMap token? ++
      x.lexeme k :: y.lexeme l :: ys.filterMap token? := by
    simp [Scan.ofText, hq, filterMap_cons, token?, hk, hshape]
  have htree : s.tree.tokens = (u ++ us) ++ n :: y.lexeme l :: (vs ++ v) := by
    rw [← hinfix, hsplit]
    simp
  have hnodup := Source.nodup_tree hs
  rw [Source.tokens_tree hs, hscan] at htree
  rw [Source.tokens_tree hs, hscan] at hnodup
  rw [← eq_of_before hnodup htree] at hname
  exact hname

/-- **The pieces of a respelled text.** -/
theorem pieces_respell : pieces (respell chosen text).toList =
    relinkFrom (fun t => chosen t && inTypeName text t) .origin (pieces text.toList) := by
  obtain ⟨hstrays, -, -⟩ := Source.read_eq_ok_iff.1 hs
  rw [respell, String.toList_ofList]
  refine piecesFrom_relink (rfl : piecesFrom .origin 0 text.toList = _)
    (strays_eq_nil_iff.1 hstrays) (fun x hx k hk => isLink_of_mem hx hk) ?_ .origin
  refine isChain_iff_forall_rel_of_append_cons_cons.2 fun x y xs ys hq hy =>
    ⟨fun hk => ?_, fun hk => ?_⟩
  · rcases isName_before chosen hs hq hy hk with h | ⟨w, h⟩ <;> cases h
  · rcases isName_before chosen hs hq hy hk with h | ⟨w, h⟩ <;> cases h

theorem forall₂_respells :
    Forall₂ Respells (pieces text.toList) (pieces (respell chosen text).toList) := by
  rw [pieces_respell chosen hs]
  exact forall₂_relinkFrom (rfl : piecesFrom .origin 0 text.toList = _)
    (fun x hx k hk => isLink_of_mem hx hk) rfl

/-- **A default holds no separator that is exchanged.** -/
theorem image_eq_of_surrounds {e : Tree} (he : e ∈ s.tree.parts .default) {n : Nat} {z z' : Piece}
    (hz : (pieces text.toList)[n]? = some z)
    (hz' : (pieces (respell chosen text).toList)[n]? = some z')
    (hsurrounds : e.surrounds (z.lexeme .doc) = true) : z.image = z'.image := by
  rw [pieces_respell chosen hs] at hz'
  have himage : z'.image = z.relink fun t => chosen t && inTypeName text t := by
    have hmap :=
      congrArg (·[n]?) (map_image_relinkFrom (fun t => chosen t && inTypeName text t) .origin
      (pieces text.toList))
    simpa [hz, hz'] using hmap
  cases hother : z.otherLink? fun t => chosen t && inTypeName text t with
  | none => rw [himage, relink, hother]
  | some other =>
    obtain ⟨l, d, -, -, hd, hmem⟩ := exists_typeName chosen hs (by rw [hother]; rfl)
    have hvalid := Source.read_valid hs
    have hin : z.lexeme l ∈ e.tokens := Tree.mem_tokens_of_surrounds (Source.ordered_tree hs)
      (Tree.tokens_infix_of_mem_parts he) ((Tree.tokens_infix_of_mem_parts hd).subset hmem)
      rfl hsurrounds
    exact absurd hin (hvalid.disjoint_default (Source.nodup_tree hs) hd he hmem)

end Respelled

/-! ## Respelled drafts -/

theorem toList_withColons (s : String) :
    (withColons s).toList = s.toList.flatMap fun c =>
      dotsToColons ([c].filter fun c => !Text.isBlank c) := by
  rw [withColons, Text.squeeze, String.toList_ofList, String.toList_ofList]
  induction s.toList with
  | nil => rfl
  | cons c cs ih =>
    rw [flatMap_cons, ← ih]
    cases hblank : Text.isBlank c with
    | true => simp [hblank, dotsToColons]
    | false =>
      simp only [filter_cons, hblank, Bool.not_false, if_true, filter_nil, dotsToColons]
      split <;> rfl

theorem withColons_image {t t' : Tree}
    (h : Forall₂ (fun a b : Token => withColons a.image = withColons b.image)
      t.tokens t'.tokens) : withColons t.image = withColons t'.image := by
  refine String.toList_inj.1 ?_
  simp only [toList_withColons, Tree.image, String.toList_join, flatMap_map, flatMap_assoc]
  generalize t.tokens = ts, t'.tokens = us at h
  induction h with
  | nil => rfl
  | cons hone _ ih =>
    have hone := congrArg String.toList hone
    rw [toList_withColons, toList_withColons] at hone
    rw [flatMap_cons, flatMap_cons, hone, ih]

theorem Piece.Respells.rereads {x x' : Piece} (h : x.Respells x') {k k' : Kind}
    (hk : x.shape = .token k) (hk' : x'.shape = .token k') :
    Token.Near (x.lexeme k) (x'.lexeme k') ∧
      Token.Rereads (.spelled withColons) (x.lexeme k) (x'.lexeme k') := by
  obtain ⟨hfirst, hnext, hsame⟩ := h
  rcases hsame with ⟨hshape, himage⟩ | ⟨hlink, hlink'⟩
  · rw [hk, hk'] at hshape
    cases hshape
    have himage : (x.lexeme k).image = (x'.lexeme k).image := congrArg String.ofList himage
    exact ⟨⟨.inl rfl, hfirst, hnext⟩, ⟨.inl rfl, fun _ => himage, congrArg _ himage, hfirst⟩⟩
  · have hcolons : ∀ y : Piece, y.IsLink → ∀ l, y.shape = .token l → l.isLink = true ∧
        withColons (String.ofList y.image) = "::" := by
      rintro y (⟨hy, himage⟩ | ⟨hy, himage⟩) l hl
      · rw [hy] at hl
        cases hl
        exact ⟨rfl, by rw [himage]; decide⟩
      · rw [hy] at hl
        cases hl
        exact ⟨rfl, by rw [himage]; decide⟩
    obtain ⟨hl, htext⟩ := hcolons x hlink k hk
    obtain ⟨hl', htext'⟩ := hcolons x' hlink' k' hk'
    refine ⟨⟨.inr ⟨hl, hl'⟩, hfirst, hnext⟩,
      ⟨.inr ⟨hl, hl'⟩, fun hno => ?_, htext.trans htext'.symm, hfirst⟩⟩
    rw [show (x.lexeme k).kind = k from rfl, hl] at hno
    cases hno

/-- The words of a tree are no separators. -/
theorem Tree.Valid.image_eq_of_rereads {P : Token → Prop} {v : View} {R : Token → Token → Prop}
    (hR : ∀ a b, R a b → a.Rereads v b) {q : Rule} {cs ds : List Tree}
    (h : (Tree.node q cs).Valid P) (hq : q = .name ∨ q = .primitiveType)
    (hrel : Tree.Rel R (.node q cs) (.node q ds)) :
    (Tree.node q cs).image = (Tree.node q ds).image := by
  obtain ⟨ks, hbody, hks⟩ : ∃ ks, q.body = [Rule.oneOf ks] ∧ ∀ k ∈ ks, Kind.isLink k = false := by
    rcases hq with rfl | rfl
    · exact ⟨_, rfl, by decide⟩
    · exact ⟨_, rfl, by decide⟩
  have hderives := h.derives
  rw [hbody] at hderives
  obtain ⟨t, rest, rfl, hk, hrest⟩ := hderives.of_oneOf
  obtain rfl := hrest.of_nil
  cases hrel.children with
  | cons hone hnil =>
    cases hnil
    cases hone with
    | leaf ht => simp [Tree.image, Tree.tokens, Tree.tokensOfAll, (hR _ _ ht).image (hks _ hk)]

theorem forall₂_sameRank {ts us : List Token} (h : ts.length = us.length) :
    Forall₂ (SameRank ts us) ts us :=
  forall₂_iff_get.2 ⟨h, fun i hi hi' => ⟨i, getElem?_eq_getElem hi, getElem?_eq_getElem hi'⟩⟩

namespace Draft

section Respelled

variable (chosen : Token → Bool) {file text : String} {s s' : Source}
  (hs : Source.read file text = .ok s)
include hs

theorem moved_respell : Forall₂ (Moved token? (Lexer.pieces text.toList)
    (Lexer.pieces (respell chosen text).toList)) (Scan.ofText text).tokens
      (Scan.ofText (respell chosen text)).tokens :=
  moved_respells (append_nil _).symm (forall₂_respells chosen hs) fun _ _ h => h.isSome_eq.1

theorem rereads_of_sameRank {a b : Token}
    (h : SameRank (Scan.ofText text).tokens (Scan.ofText (respell chosen text)).tokens a b) :
    a.Near b ∧ a.Rereads (.spelled withColons) b := by
  obtain ⟨i, ha, hb⟩ := h
  obtain ⟨j, x, x', hx, hx', ht, ht'⟩ := forall₂_getElem? (moved_respell chosen hs) ha hb
  obtain ⟨k, hk, rfl⟩ := token?_eq_some ht
  obtain ⟨k', hk', rfl⟩ := token?_eq_some ht'
  exact (forall₂_getElem? (forall₂_respells chosen hs) hx hx').rereads hk hk'

theorem strays_respell : (Scan.ofText (respell chosen text)).strays = [] := by
  obtain ⟨hstrays, -, -⟩ := Source.read_eq_ok_iff.1 hs
  refine strays_eq_nil_iff.2 fun x' hx' hstray => ?_
  obtain ⟨x, hx, hone⟩ := exists_left_of_mem (forall₂_respells chosen hs) hx'
  rcases hone.same with hsame | ⟨-, hlink⟩
  · exact strays_eq_nil_iff.1 hstrays x hx (hsame.1.trans hstray)
  · obtain ⟨k, -, hk⟩ := hlink.exists_kind
    rw [hstray] at hk
    cases hk

/-- Trees of a text and of the respelled one look the same, but for separators. -/
theorem rereads_respell (hs' : Source.read file (respell chosen text) = .ok s')
    (htree :
      Tree.Rel (SameRank (Scan.ofText text).tokens (Scan.ofText (respell chosen text)).tokens)
      s.tree s'.tree) :
    Rereads (.spelled withColons) (.ofSource s) (.ofSource s') s.tree s'.tree := by
  have hR := fun a b => @rereads_of_sameRank chosen file text s hs a b
  have hq := forall₂_respells chosen hs
  have hvalid := Source.read_valid hs
  obtain ⟨-, -, hsource⟩ := Source.read_eq_ok_iff.1 hs
  obtain ⟨-, -, hsource'⟩ := Source.read_eq_ok_iff.1 hs'
  refine rereads_of_rel (fun a b hab => (hR a b hab).2) htree fun q cs ds hd hpart => ?_
  have hsame : Forall₂ (SameRank s.tokens s'.tokens) (Tree.node q cs).tokens
      (Tree.node q ds).tokens := by
    rw [hsource, hsource']
    exact hpart.tokens
  refine ⟨withColons_image (hpart.tokens.imp fun a b hab => (hR a b hab).2.text), fun hword => ?_,
    fun hblock => ?_, fun hdefault => ?_, ?_⟩
  · exact (hvalid.of_mem_parts hd).image_eq_of_rereads (fun a b hab => (hR a b hab).2)
      (hword.imp of_decide_eq_true of_decide_eq_true) hpart
  · have hnone : (Tree.node q cs).find? .qualifiedName = none := by
      obtain rfl : q = .optionsBlock := of_decide_eq_true hblock
      refine find?_eq_none.2 fun c hc hnode => ?_
      cases c with
      | leaf _ => cases hnode
      | node r es =>
        obtain rfl : r = .qualifiedName := of_decide_eq_true hnode
        exact absurd ((hvalid.of_mem_parts hd).derives.mem_seqRules hc) (by decide)
    have hfind := hpart.find? .qualifiedName
    rw [hnone] at hfind ⊢
    generalize (Tree.node q ds).find? .qualifiedName = other at hfind
    cases hfind
    rfl
  · obtain rfl : q = .default := of_decide_eq_true hdefault
    exact textOf_eq_of_respells (append_nil _).symm hq hs hs' hsame fun n z z' hz hz' =>
      image_eq_of_surrounds chosen hs hd hz hz'
  · exact congrArg id (notesOf_eq_of_respells (append_nil _).symm hq hs hs' hsame rfl (by simp))

end Respelled

/-- **What is read of a respelled text** is what is read of the text, but for separators. -/
theorem read_respell (chosen : Token → Bool) {file text : String} {raw : Draft}
    (h : read file text = .ok raw) :
    ∃ raw', read file (respell chosen text) = .ok raw' ∧ raw'.useColons = raw.useColons := by
  cases hs : Source.read file text with
  | error fault =>
    rw [read, hs] at h
    cases h
  | ok s =>
    have hboth := Source.both_read (fun a b hab => (rereads_of_sameRank chosen hs hab).1) file
      (iff_of_true (Source.read_eq_ok_iff.1 hs).1 (strays_respell chosen hs))
      fun _ => forall₂_sameRank (moved_respell chosen hs).length_eq
    rw [hs] at hboth
    generalize hs' : Source.read file (respell chosen text) = result at hboth
    cases hboth with
    | @ok _ s' hrel =>
      have hdrafts :=
        both_ofSource (Path.stem file) hrel.1 (rereads_respell chosen hs hs' hrel.2.2.2.1)
      rw [read, hs] at h
      rw [show ofSource (Path.stem file) s = .ok raw from h] at hdrafts
      rw [read, hs']
      generalize hraw' : ofSource (Path.stem file) s' = result at hdrafts
      cases hdrafts with
      | @ok _ raw' hlook =>
        rw [View.draft_useColons, View.draft_useColons] at hlook
        exact ⟨raw', hraw', hlook.symm⟩

end Draft

/-! ## Respelled files -/

namespace Draft

theorem adopt_map {f : Namespace → Namespace}
    (hf : ∀ (ns : Namespace) p, f { ns with parent := p } = { f ns with parent := p }) (p : Nat)
    (cs : List Nat) (arena : List Namespace) :
    adopt p cs (arena.map f) = (adopt p cs arena).map f := by
  unfold adopt
  induction cs generalizing arena with
  | nil => rfl
  | cons i cs ih =>
    rw [foldl_cons, foldl_cons, ← ih]
    congr 1
    refine ext_getElem? fun j => ?_
    simp only [getElem?_modify, getElem?_map]
    cases arena[j]? with
    | none => rfl
    | some ns =>
      by_cases h : i = j
      · simp only [if_pos h]
        exact congrArg some (hf ns _).symm
      · simp only [if_neg h]
        rfl

/-- Putting a file into its namespace has nothing to do with separators. -/
theorem wrap_useColons (d : Draft) : d.wrap.useColons = d.useColons.wrap := by
  rw [wrap, wrap, isWrapped_useColons]
  split
  · rfl
  · have hadopt :=
      adopt_map (f := fun ns => { ns with scope := ns.scope.mapNames TypeName.useColons })
      (fun _ _ => rfl) d.arena.length d.top.children d.arena
    have hmove : (d.top.moveTo d.stem).mapNames TypeName.useColons =
        (d.top.mapNames TypeName.useColons).moveTo d.stem := by
      simp [Scope.mapNames, Scope.moveTo, Function.comp_def, Message.mapNames, Enumeration.mapNames]
    rw [useColons, useColons]
    simp only [map_append, map_cons, map_nil, length_map, hmove, ← hadopt]
    rfl

end Draft

variable {ext : String} {source source' : String → Option String} {final : String → Option Draft}

theorem Settles.of_useColons {f : String} {raw raw' d : Draft}
    (h : Settles ext source final f raw d) (hread : readFrom source' f = some raw')
    (hraw : raw'.useColons = raw.useColons) : Settles ext source' final f raw' d := by
  have himports : raw'.imports = raw.imports :=
    show raw'.useColons.imports = raw.useColons.imports from congrArg _ hraw
  have hfile : raw'.file = raw.file :=
    show raw'.useColons.file = raw.useColons.file from congrArg _ hraw
  have hlinked : raw'.linked ext final = raw.linked ext final := by
    rw [linked, linked, links, links, himports, hfile]
  refine ⟨hread, himports ▸ h.keys, himports ▸ h.present, ?_⟩
  have hrefines := h.refines
  rwa [Refines, wrap_useColons, ← hraw, ← wrap_useColons, ← hlinked] at hrefines

/-- **Other separators leave a system as it is.** -/
theorem System.of_useColons {lib : Library} (h : System ext source final lib)
    (hread : ∀ f raw, readFrom source f = some raw → ∃ raw', readFrom source' f = some raw' ∧
      raw'.useColons = raw.useColons) :
    System ext source' final lib where
  settled hd := by
    obtain ⟨raw, hset⟩ := h.settled hd
    obtain ⟨raw', hread', hraw⟩ := hread _ raw hset.read
    exact ⟨raw', hset.of_useColons hread' hraw⟩
  ranked := h.ranked
  built := h.built
  closed := h.closed

namespace Compilation

/-- **Separators are interchangeable**: a file that compiles does so with any separators of type
    names exchanged, in it and in the files that it reaches, and gives the same models. -/
theorem models_respell {fs fs' : FileSystem} {ext path : String} {lib : Library}
    (h : (ofFile fs ext path).result = .ok lib) (chosen : String → Token → Bool)
    (hfs : ∀ g ∈ lib.reachableFiles (Path.absolute path),
      fs'.texts.find? g = (fs.texts.find? g).map (respell (chosen g))) :
    ∃ lib', (ofFile fs' ext path).result = .ok lib' ∧
      lib'.reachableFiles (Path.absolute path) = lib.reachableFiles (Path.absolute path) ∧
      lib'.reachable (Path.absolute path) = lib.reachable (Path.absolute path) ∧
      Path.absolute path ∈ lib.reachableFiles (Path.absolute path) ∧
      ∀ g ∈ lib.reachableFiles (Path.absolute path), lib'.find? g = lib.find? g := by
  obtain ⟨final, hsys, hcontains⟩ := (Compiles.ofFile h).system
  have hmem : ∀ g, g ∈ lib.reachableFiles (Path.absolute path) ↔
      lib.Reaches (Path.absolute path) g :=
    fun g => Library.mem_reachableFiles_iff hsys.closed hcontains
  -- files that are not reached keep their texts
  have hsys' :
      System ext (fun g => if g ∈ lib.reachableFiles (Path.absolute path) then fs'.texts.find? g
      else fs.texts.find? g) final lib := by
    refine hsys.of_useColons fun g raw hraw => ?_
    obtain ⟨text, htext, hread⟩ := readFrom_eq_some_iff.1 hraw
    by_cases hg : g ∈ lib.reachableFiles (Path.absolute path)
    · obtain ⟨raw', hread', hcolons⟩ := read_respell (chosen g) hread
      refine ⟨raw', readFrom_eq_some_iff.2 ⟨_, ?_, hread'⟩, hcolons⟩
      rw [if_pos hg, hfs g hg, htext]
      rfl
    · exact ⟨raw, readFrom_eq_some_iff.2 ⟨text, by rw [if_neg hg, htext], hread⟩, rfl⟩
  obtain ⟨lib', -, hok, hagree⟩ :=
    hsys'.ofFile_eq hcontains (fun g hg => (if_pos ((hmem g).2 hg)).symm)
    (rfl : fs'.texts.find? = _) (Path.absolute_absolute path)
  have hpath : ofFile fs' ext (Path.absolute path) = ofFile fs' ext path := by
    simp only [ofFile, Path.absolute_absolute]
  refine ⟨lib', hpath ▸ hok, Library.reachableFiles_congr hagree, Library.reachable_congr hagree,
    (hmem _).2 .refl, fun g hg => hagree g ?_⟩
  rw [← Library.reachableFiles_congr hagree] at hg
  exact (Library.reaches_of_mem_reachableFiles hg).1

/-- The files of the shop with the other separators. -/
def respelledShop : FileSystem where
  texts := shop.texts
    |>.insert "/shop/order.def"
      "import \"item.def\" as I import \"party.def\"
       message Order : Party \x7b items: I.Item[] state: enum \x7b Open, Closed \x7d \x7d"
    |>.insert "/shop/item.def"
      "import \"base.def\" message Item \x7b spot: Spot sizes: Map<base::Size, Size> \x7d"
  unreadable := []
  refusal := id

theorem models_respell_shop : ∃ lib lib', (ofFile shop ".def" "/shop/order.def").result = .ok lib ∧
    (ofFile respelledShop ".def" "/shop/order.def").result = .ok lib' ∧
    lib'.find? "/shop/item.def" = lib.find? "/shop/item.def" ∧
    lib'.reachable "/shop/order.def" = lib.reachable "/shop/order.def" := by
  obtain ⟨lib, hlib, hfiles, -⟩ := ofFile_shop
  have htexts : ∀ g ∈ lib.reachableFiles (Path.absolute "/shop/order.def"),
      respelledShop.texts.find? g = (shop.texts.find? g).map (respell fun _ => true) := by
    rw [absolute_order, hfiles]
    decide +kernel
  obtain ⟨lib', hok, -, hmodels, -, hfind⟩ := models_respell hlib (fun _ _ => true) htexts
  rw [absolute_order] at hmodels hfind
  exact ⟨lib, lib', hlib, hok, hfind _ (by rw [hfiles]; decide), hmodels⟩

end Compilation

end MessageSchema
