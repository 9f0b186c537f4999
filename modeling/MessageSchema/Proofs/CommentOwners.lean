/-
  Comments belong to one declaration.

  A comment leads the declaration that starts at the next token, and trails the one that
  ends at the token before.  No two declarations start or end at one token, and what leads
  one is on another line than what trails the one before, so no comment is taken twice.
-/
import MessageSchema.Proofs.Appending
import Mathlib.Data.List.Flatten
import Mathlib.Data.List.Perm.Subperm

namespace MessageSchema

open List Lexer

open MessageSchema.Tree (tokensOfAll)

/-! ## The declarations of a tree -/

/-- Whether a rule makes a declaration, inside others or not. -/
def Rule.declares : Rule → Bool
  | namespaceBlock | messageBlock | field | enumBlock | optionsBlock | compoundBlock | value => true
  | _ => false

namespace Tree

mutual

/-- The declarations in a tree, each before those inside it. -/
def declarations : Tree → List Tree
  | leaf _ => []
  | node r cs => (if r.declares then [node r cs] else []) ++ declarationsOfAll cs

/-- The declarations in several trees. -/
def declarationsOfAll : List Tree → List Tree
  | [] => []
  | t :: ts => t.declarations ++ declarationsOfAll ts

end

variable {d : Tree}

theorem declarationsOfAll_eq (ts : List Tree) : declarationsOfAll ts = ts.flatMap declarations := by
  induction ts with
  | nil => rfl
  | cons t ts ih => rw [declarationsOfAll, ih, flatMap_cons]

/-- A tree stands among others, in front of tokens, and some tokens come after it. -/
inductive Stands (d : Tree) (after : List Token) : List Tree → List Token → Prop
  | here {ts rest} : after = tokensOfAll ts ++ rest → Stands d after (d :: ts) rest
  | there {t ts rest} : Stands d after ts rest → Stands d after (t :: ts) rest
  | inside {r cs ts rest} : Stands d after cs (tokensOfAll ts ++ rest) →
    Stands d after (.node r cs :: ts) rest

/-- **Where a declaration stands.** -/
theorem exists_stands : ∀ (ts : List Tree) (rest : List Token), d ∈ declarationsOfAll ts →
    ∃ q ds before after, d = .node q ds ∧ q.declares = true ∧
      tokensOfAll ts ++ rest = before ++ (d.tokens ++ after) ∧ Stands d after ts rest
  | [], _, h => by cases h
  | .leaf x :: ts, rest, h => by
    obtain ⟨q, ds, before, after, hd, hq, htokens, hstands⟩ := exists_stands ts rest h
    exact ⟨q, ds, x :: before, after, hd, hq, by simp [tokensOfAll, tokens, htokens],
      .there hstands⟩
  | .node r cs :: ts, rest, h => by
    rw [declarationsOfAll, declarations, append_assoc, mem_append, mem_append] at h
    rcases h with h | h | h
    · split at h
      · next hr =>
        obtain rfl := mem_singleton.1 h
        exact ⟨r, cs, [], _, rfl, hr, by simp [tokensOfAll], .here rfl⟩
      · cases h
    · obtain ⟨q, ds, before, after, hd, hq, htokens, hstands⟩ :=
        exists_stands cs (tokensOfAll ts ++ rest) h
      exact ⟨q, ds, before, after, hd, hq, by simp [tokensOfAll, tokens, htokens], .inside hstands⟩
    · obtain ⟨q, ds, before, after, hd, hq, htokens, hstands⟩ := exists_stands ts rest h
      exact ⟨q, ds, tokens (.node r cs) ++ before, after, hd, hq, by simp [tokensOfAll, htokens],
        .there hstands⟩

theorem infix_of_mem_declarationsOfAll {ts : List Tree} (h : d ∈ declarationsOfAll ts) :
    d.tokens <:+: tokensOfAll ts := by
  obtain ⟨-, -, before, after, -, -, htokens, -⟩ := exists_stands ts [] h
  exact ⟨before, after, by simpa using htokens.symm⟩

/-- Trees that neither start nor end at the same token. -/
structure Apart (x y : Tree) : Prop where
  first : ∀ t ∈ x.tokens.head?, t ∉ y.tokens.head?
  last : ∀ t ∈ x.tokens.getLast?, t ∉ y.tokens.getLast?

theorem Apart.of_disjoint {x y : Tree} (h : x.tokens.Disjoint y.tokens) : x.Apart y :=
  ⟨fun _ hx hy => h (mem_of_mem_head? hx) (mem_of_mem_head? hy),
    fun _ hx hy => h (mem_of_getLast? hx) (mem_of_getLast? hy)⟩

end Tree

theorem Derives.of_concat_token {k : Kind} {is : List Item} {ts : List Tree}
    (h : Derives (is ++ [.token k]) ts) : ∃ us t, ts = us ++ [.leaf t] := by
  generalize hitems : is ++ [.token k] = items at h
  induction h generalizing is with
  | nil => simp at hitems
  | @token _ t _ ts _ h ih =>
    rcases append_eq_cons_iff.1 hitems with ⟨rfl, hlast⟩ | ⟨is', rfl, hrest⟩
    · cases hlast
      cases h
      exact ⟨[], t, rfl⟩
    · obtain ⟨us, t', rfl⟩ := ih hrest.symm
      exact ⟨.leaf t :: us, t', rfl⟩
  | @rule r cs _ _ _ ih =>
    rcases append_eq_cons_iff.1 hitems with ⟨-, hlast⟩ | ⟨is', rfl, hrest⟩
    · cases hlast
    · obtain ⟨us, t', rfl⟩ := ih hrest.symm
      exact ⟨.node r cs :: us, t', rfl⟩
  | skip _ ih | stop _ ih =>
    rcases append_eq_cons_iff.1 hitems with ⟨-, hlast⟩ | ⟨is', rfl, hrest⟩
    · cases hlast
    · exact ih hrest.symm
  | enter _ ih | choose _ _ ih =>
    rcases append_eq_cons_iff.1 hitems with ⟨-, hlast⟩ | ⟨is', rfl, rfl⟩
    · cases hlast
    · exact ih (append_assoc _ is' _)
  | round _ ih | first _ ih =>
    rcases append_eq_cons_iff.1 hitems with ⟨-, hlast⟩ | ⟨is', rfl, rfl⟩
    · cases hlast
    · exact ih (append_assoc _ (_ :: is') _)

namespace Tree.Valid

variable {P : Token → Prop}

theorem exists_fence {r : Rule} {cs : List Tree} (h : (Tree.node r cs).Valid P)
    (hr : r = .namespaceBlock ∨ r = .messageBlock ∨ r = .valueList) :
    ∃ a mid b, cs = .leaf a :: mid ++ [.leaf b] := by
  have hbody : ∃ k, r.body = .token k :: (r.body.tail.dropLast ++ [.token .rightBrace]) := by
    rcases hr with rfl | rfl | rfl <;> exact ⟨_, rfl⟩
  obtain ⟨k, hbody⟩ := hbody
  have hderives := h.derives
  rw [hbody] at hderives
  obtain ⟨a, rest, rfl, -, hrest⟩ := hderives.of_token
  obtain ⟨mid, b, rfl⟩ := hrest.of_concat_token
  exact ⟨a, mid, b, rfl⟩

/-- **Declarations inside another tree have tokens of it before and after them.** -/
theorem exists_around {t d : Tree} (h : t.Valid P) :
    ∀ {r cs}, t = .node r cs → r ≠ .file → r ≠ .declaration →
    d ∈ declarationsOfAll cs → ∃ u v, u ≠ [] ∧ v ≠ [] ∧ tokensOfAll cs = u ++ (d.tokens ++ v) := by
  induction h with
  | leaf _ => rintro _ _ ⟨⟩
  | @node r cs hderives hcs ih =>
    rintro _ _ ⟨⟩ hfile hdeclaration hd
    by_cases hr : r = .namespaceBlock ∨ r = .messageBlock ∨ r = .valueList
    · obtain ⟨a, mid, b, rfl⟩ := exists_fence (.node hderives hcs) hr
      have hmid : d ∈ declarationsOfAll mid := by
        simpa [declarationsOfAll_eq, declarations] using hd
      obtain ⟨u, v, htokens⟩ := infix_of_mem_declarationsOfAll hmid
      exact ⟨a :: u, v ++ [b], by simp, by simp,
        by simp [tokensOfAll, tokensOfAll_append, tokens, ← htokens]⟩
    · -- any other rule holds declarations further down only
      have hplain : ∀ r : Rule, r ≠ .file → r ≠ .declaration →
          ¬ (r = .namespaceBlock ∨ r = .messageBlock ∨ r = .valueList) →
          ∀ q ∈ seqRules r.body, q.declares = false ∧ q ≠ .file ∧ q ≠ .declaration := by
        intro r
        cases r <;> decide
      rw [declarationsOfAll_eq] at hd
      obtain ⟨c, hc, hd⟩ := mem_flatMap.1 hd
      cases c with
      | leaf _ => cases hd
      | node q ds =>
        obtain ⟨hq, hqfile, hqdeclaration⟩ :=
          hplain r hfile hdeclaration hr q (hderives.mem_seqRules hc)
        rw [declarations, hq] at hd
        obtain ⟨u, v, hu, hv, htokens⟩ := ih _ hc rfl hqfile hqdeclaration hd
        obtain ⟨before, after, rfl⟩ := append_of_mem hc
        exact ⟨tokensOfAll before ++ u, v ++ tokensOfAll after, by simp [hu], by simp [hv],
          by simp [tokensOfAll, tokensOfAll_append, tokens, htokens]⟩

/-- **No two declarations of a tree start or end at one token.** -/
theorem pairwise_declarations {t : Tree} (h : t.Valid P) (hnodup : t.tokens.Nodup) :
    t.declarations.Pairwise Apart := by
  induction h with
  | leaf _ => exact .nil
  | @node r cs hderives hcs ih =>
    rw [tokens, tokensOfAll_eq] at hnodup
    obtain ⟨hone, hdisjoint⟩ := nodup_flatMap.1 hnodup
    have hinside : (declarationsOfAll cs).Pairwise Apart := by
      rw [declarationsOfAll_eq, pairwise_flatMap]
      refine ⟨fun c hc => ih c hc (hone c hc), hdisjoint.imp fun {a b} hab x hx y hy =>
        .of_disjoint ?_⟩
      have hsub : ∀ {c d : Tree}, d ∈ c.declarations → d.tokens ⊆ c.tokens := fun {c d} hd => by
        have hinfix : d.tokens <:+: tokensOfAll [c] :=
          infix_of_mem_declarationsOfAll (by simpa [declarationsOfAll] using hd)
        simpa [tokensOfAll] using hinfix.subset
      exact disjoint_of_subset_left (hsub hx) (disjoint_of_subset_right (hsub hy) hab)
    rw [declarations]
    split
    · next hr =>
      refine pairwise_cons.2 ⟨fun d hd => ?_, hinside⟩
      obtain ⟨u, v, hu, hv, htokens⟩ := exists_around (.node hderives hcs) rfl
        (by rintro rfl; cases hr) (by rintro rfl; cases hr) hd
      rw [← tokensOfAll_eq, htokens] at hnodup
      obtain ⟨-, hrest, hud⟩ := nodup_append'.1 hnodup
      obtain ⟨-, -, hdv⟩ := nodup_append'.1 hrest
      constructor
      · intro t ht hmem
        rw [tokens, htokens, head?_append_of_ne_nil _ hu] at ht
        exact hud (mem_of_mem_head? ht) (mem_append_left _ (mem_of_mem_head? hmem))
      · intro t ht hmem
        rw [tokens, htokens, ← append_assoc, getLast?_append_of_ne_nil _ hv] at ht
        exact hdv (mem_of_getLast? hmem) (mem_of_getLast? ht)
    · exact hinside

end Tree.Valid

/-! ## What comes after a tree -/

/-- **What comes after a tree** is among what may follow its rule. -/
theorem Parses.follows {b : Option Token} {items : List Item} {ts : List Tree} {rest : List Token}
    {after : List (Option Kind)} (h : Parses b items ts rest) (hclear : Clear after items rest)
    {q : Rule} {ds : List Tree} {next : List Token}
    (hd : Tree.Stands (.node q ds) next ts rest) : nextKind next ∈ q.followers := by
  induction h generalizing after with
  | nil => cases hd
  | token _ _ ih =>
    cases hd with
    | there hd => exact ih hclear.tail hd
  | rule _ h ihcs ih =>
    cases hd with
    | here hnext => exact hnext ▸ (hclear.rule h).next
    | there hd => exact ih hclear.tail hd
    | inside hd => exact ihcs (hclear.rule h) hd
  | skip _ ih | stop _ _ ih => exact ih hclear.tail hd
  | enter _ ih => exact ih hclear.enter.2 hd
  | @round b g body is ts rest _ _ ih | @first b g body is ts rest _ _ ih =>
    have hclear : Clear after (.many g body :: is) rest := ⟨hclear.fits, hclear.clear, hclear.next⟩
    exact ih hclear.round.2 hd
  | choose ha _ ih => exact ih (hclear.choose ha).2 hd

/-! ## Comments between tokens -/

/-- The tokens that start before a comment. -/
def earlier (tokens : List Token) (c : Comment) : List Token :=
  tokens.filter fun t => t.first.offset < c.first.offset

/-- The next token after a comment starts a tree, and none before it reaches its line. -/
def Leads (tokens : List Token) (t : Tree) (c : Comment) : Prop :=
  ∃ first after, t.tokens.head? = some first ∧ tokens = earlier tokens c ++ first :: after ∧
    ∀ p ∈ (earlier tokens c).getLast?, p.last.line < c.first.line

/-- The last token before a comment ends a tree, on the line of the comment. -/
def Trails (tokens : List Token) (t : Tree) (c : Comment) : Prop :=
  ∃ last, t.tokens.getLast? = some last ∧ (earlier tokens c).getLast? = some last ∧
    c.first.line = last.last.line

section Margins

variable {tokens : List Token} {t t' : Tree} {c : Comment}

theorem Leads.not_trails (h : Leads tokens t c) : ¬ Trails tokens t' c := by
  rintro ⟨last, -, hlast, hline⟩
  obtain ⟨-, -, -, -, hlines⟩ := h
  exact Nat.ne_of_gt (hlines last hlast) hline

theorem Tree.Apart.not_both (h : t.Apart t') (hc : Leads tokens t c ∨ Trails tokens t c) :
    ¬ (Leads tokens t' c ∨ Trails tokens t' c) := by
  rintro (hc' | hc')
  · rcases hc with ⟨first, after, hfirst, hsplit, -⟩ | hc
    · obtain ⟨first', after', hfirst', hsplit', -⟩ := hc'
      obtain ⟨rfl, -⟩ := cons.inj (append_cancel_left (hsplit.symm.trans hsplit'))
      exact h.first first hfirst hfirst'
    · exact hc'.not_trails hc
  · rcases hc with hc | ⟨last, hlast, hend, -⟩
    · exact hc.not_trails hc'
    · obtain ⟨last', hlast', hend', -⟩ := hc'
      cases hend.symm.trans hend'
      exact h.last last hlast hlast'

variable {before after : List Token} {comments : List Comment}
  (hlong : ∀ t ∈ tokens, t.first.offset ≤ t.last.offset) (hordered : Margins.Ordered tokens)
include hlong hordered

theorem earlier_eq (hsplit : tokens = before ++ after)
    (hbefore : ∀ p ∈ before.getLast?, p.last.offset < c.first.offset)
    (hafter : ∀ n ∈ after.head?, c.first.offset < n.first.offset) : earlier tokens c = before := by
  subst hsplit
  obtain ⟨hinit, htail, -⟩ := pairwise_append.1 hordered
  have hall : ∀ u ∈ before, u.first.offset < c.first.offset := by
    rcases eq_nil_or_concat before with rfl | ⟨init, p, rfl⟩
    · simp
    · have hp := hbefore p (by simp)
      have hple := hlong p (by simp)
      rw [concat_eq_append, forall_mem_append, forall_mem_singleton]
      refine ⟨fun u hu => ?_, by omega⟩
      have hup := (pairwise_append.1 (concat_eq_append ▸ hinit)).2.2 u hu p (by simp)
      omega
  have hnone : ∀ u ∈ after, ¬ u.first.offset < c.first.offset := by
    cases after with
    | nil => simp
    | cons n after =>
      have hn := hafter n rfl
      refine forall_mem_cons.2 ⟨by omega, fun u hu => ?_⟩
      have hnu := (pairwise_cons.1 htail).1 u hu
      omega
  rw [earlier, filter_append, filter_eq_self.2 (by simpa using hall),
    filter_eq_nil_iff.2 (by simpa using hnone), append_nil]

theorem leads_of_mem_leading {first : Token} (hsplit : tokens = before ++ first :: after)
    (hfirst : t.tokens.head? = some first)
    (hc : c ∈ (Margins.mk tokens.toArray comments).leading first) : Leads tokens t c := by
  rw [hsplit, Margins.leading_eq (hsplit ▸ hordered)] at hc
  simp only [mem_filter, Bool.and_eq_true, decide_eq_true_eq] at hc
  obtain ⟨-, hoffset, hlines⟩ := hc
  have hbefore : ∀ p ∈ before.getLast?, p.last.offset < c.first.offset ∧
      p.last.line < c.first.line := by
    intro p hp
    simpa [Option.mem_def.1 hp] using hlines
  have hearlier :=
    earlier_eq hlong hordered hsplit (fun p hp => (hbefore p hp).1) (by simpa using hoffset)
  exact ⟨first, after, hfirst, by rw [hearlier, hsplit], hearlier ▸ fun p hp => (hbefore p hp).2⟩

theorem trails_of_mem_trailing {last : Token} (hsplit : tokens = before ++ last :: after)
    (hlast : t.tokens.getLast? = some last)
    (hnext : ∀ n ∈ after.head?, Margins.isSeparator n = false)
    (hc : c ∈ (Margins.mk tokens.toArray comments).trailing last) : Trails tokens t c := by
  have hdrop : (after.dropWhile fun u => u.first.line = last.last.line && Margins.isSeparator u) =
      after := by
    cases after with
    | nil => rfl
    | cons n after => simp [hnext n rfl]
  rw [hsplit, Margins.trailing_eq (hsplit ▸ hordered), hdrop] at hc
  simp only [mem_filter, Bool.and_eq_true, decide_eq_true_eq, beq_iff_eq] at hc
  obtain ⟨-, ⟨hoffset, hline⟩, hnext⟩ := hc
  have hconcat : tokens = (before ++ [last]) ++ after := by simp [hsplit]
  have hearlier := earlier_eq hlong hordered hconcat (by simpa using hoffset)
    fun n hn => by simpa [Option.mem_def.1 hn] using hnext
  exact ⟨last, hlast, by simp [hearlier], hline⟩

end Margins

section Tokens

variable {file text : String} {s : Source} (hs : Source.read file text = .ok s)
include hs

theorem Source.tokens_tree : s.tree.tokens = (Scan.ofText text).tokens := by
  obtain ⟨-, ⟨cs, htree, htokens, -⟩, -⟩ := Source.read_eq_ok_iff.1 hs
  rw [htree, ← htokens]
  rfl

theorem Source.ordered_tree : Margins.Ordered s.tree.tokens := by
  rw [Source.tokens_tree hs]
  exact ordered_tokens (laid_piecesFrom .origin _) fun _ => image_ne_nil

theorem Source.nodup_tree : s.tree.tokens.Nodup :=
  (Source.ordered_tree hs).imp fun hlt heq => absurd (heq ▸ hlt) (Nat.lt_irrefl _)

end Tokens

/-! ## What a draft declares -/

namespace Draft

/-- A declaration of a draft: its name, its line and its notes. -/
structure Entry extends Notes where
  name : String
  line : Nat
  deriving DecidableEq

def Entry.of (name : String) (o : Origin) : Entry := ⟨o.toNotes, name, o.line⟩

def RawValue.entry (v : RawValue) : Entry := ⟨v.toNotes, v.name, v.line⟩

/-- A field, and the values that are written in its type. -/
def Field.entries (f : Field) : List Entry :=
  .of f.name f.origin :: ((f.type.inline?.map Prod.snd).getD []).map RawValue.entry

def Message.entries (m : Message) : List Entry :=
  .of m.name m.origin :: m.fields.flatMap Field.entries

def Enumeration.entries (e : Enumeration) : List Entry :=
  .of e.name e.origin :: e.values.map fun v => .of v.name v.origin

def Scope.entries (s : Scope) : List Entry :=
  s.messages.flatMap Message.entries ++ (s.enums ++ s.options).flatMap Enumeration.entries ++
    s.compounds.map fun c => .of c.name c.origin

def Namespace.entries (ns : Namespace) : List Entry :=
  ⟨ns.toNotes, ns.name, ns.line⟩ :: ns.scope.entries

/-- The declarations of a draft, fields and values included. -/
def entries (d : Draft) : List Entry := d.top.entries ++ d.arena.flatMap Namespace.entries

theorem Scope.entries_append (s t : Scope) : (s ++ t).entries.Perm (s.entries ++ t.entries) := by
  have happend : (s ++ t).entries = (s.messages ++ t.messages).flatMap Message.entries ++
      (s.enums ++ t.enums ++ (s.options ++ t.options)).flatMap Enumeration.entries ++
      (s.compounds ++ t.compounds).map fun c => .of c.name c.origin := rfl
  rw [happend, entries, entries]
  refine perm_iff_count.2 fun e => ?_
  simp only [flatMap_append, map_append, count_append]
  omega

theorem entry_of_number {kind : EnumKind} {file home : String} {previous : Option Int}
    {raws : List RawValue} {vs : List EnumValue}
    (h : numberFrom kind file home previous raws = .ok vs) :
    (vs.map fun v => Entry.of v.name v.origin) = raws.map RawValue.entry := by
  induction raws generalizing previous vs with
  | nil =>
    cases h
    rfl
  | cons v raws ih =>
    rw [numberFrom] at h
    split at h
    · obtain ⟨rest, hrest, h⟩ := bind_eq_ok h
      cases h
      rw [map_cons, map_cons, ih hrest]
      rfl
    · cases h

namespace Reader

variable {r : Reader} {cs : List Tree} {t : Tree} {vs : List RawValue} {kind : EnumKind}
  {home : String}

/-- What a draft says about the declaration that a tree is. -/
def entry (r : Reader) (t : Tree) : Entry := ⟨r.notesOf t, nameOf t, lineOf t⟩

/-- The comments that lead or trail the declaration that a tree is. -/
def commentsOf (r : Reader) (t : Tree) : List Comment :=
  match t.tokens.head?, t.tokens.getLast? with
  | some first, some last => r.margins.leading first ++ r.margins.trailing last
  | _, _ => []

variable {q : Rule} {file text : String} {s : Source}

theorem comment_entry (r : Reader) (t : Tree) :
    (r.entry t).comment = "\n".intercalate ((r.commentsOf t).map fun c => Text.trim c.image) := by
  rw [entry, notesOf, commentsOf]
  cases t.tokens.head? <;> cases t.tokens.getLast? <;> rfl

/-- The entries of the declarations of a tree. -/
def entriesOf (r : Reader) (t : Tree) : List Entry := t.declarations.map r.entry

theorem sublist_of_mem {xs : List Entry} {c : Tree}
    (h : xs.Sublist (c.children.flatMap r.entriesOf)) (hc : c ∈ cs) :
    xs.Sublist (cs.flatMap r.entriesOf) := by
  refine (h.trans ?_).trans (sublist_flatten_of_mem (mem_map_of_mem hc))
  cases c with
  | leaf _ => exact .refl _
  | node q cs =>
    rw [entriesOf, Tree.declarations, map_append, Tree.declarationsOfAll_eq, map_flatMap]
    exact sublist_append_right _ _

theorem flatMap_all_sublist {α : Type} {f : Tree → Except Fault α} {xs : List α}
    (h : (t.all q).mapM f = .ok xs) {g : α → List Entry}
    (hg : ∀ cs x, f (.node q cs) = .ok x → (g x).Sublist (r.entriesOf (.node q cs))) :
    (xs.flatMap g).Sublist (t.children.flatMap r.entriesOf) := by
  have hsub : (t.all q).Sublist t.children := filter_sublist
  refine Sublist.trans ?_ (hsub.flatMap r.entriesOf)
  have hall : ∀ c ∈ t.all q, c.isNode q = true := fun c hc => (mem_filter.1 hc).2
  have hmapped := forall₂_of_mapM h
  clear h hsub
  generalize t.all q = cs at hmapped hall
  induction hmapped with
  | nil => exact .refl _
  | @cons c x _ _ hx _ ih =>
    obtain ⟨hc, hrest⟩ := forall_mem_cons.1 hall
    cases c with
    | leaf _ => cases hc
    | node q' cs =>
      obtain rfl : q' = q := by simpa [Tree.isNode] using hc
      exact (hg cs x hx).append (ih hrest)

theorem entriesOf_node (hq : q.declares = true) :
    r.entriesOf (.node q cs) = r.entry (.node q cs) :: cs.flatMap r.entriesOf := by
  rw [entriesOf, Tree.declarations, if_pos hq, Tree.declarationsOfAll_eq, map_append, map_flatMap]
  rfl

theorem entry_values (h : r.values t = .ok vs) :
    (vs.map RawValue.entry).Sublist (t.children.flatMap r.entriesOf) := by
  rw [values] at h
  split at h
  · next list hlist =>
    have hvalues := flatMap_all_sublist (g := fun v => [v.entry]) h fun cs v hv => by
      obtain ⟨n, -, hv⟩ := bind_eq_ok hv
      cases hv
      rw [entriesOf_node rfl]
      exact singleton_sublist.2 mem_cons_self
    rw [← map_eq_flatMap] at hvalues
    exact sublist_of_mem hvalues (Tree.mem_of_find? hlist).1
  · cases h
    exact nil_sublist _

theorem entry_element {e : ElementType} (h : r.element t = .ok e) (he : e = .inline kind vs) :
    (vs.map RawValue.entry).Sublist (t.children.flatMap r.entriesOf) := by
  subst he
  have hinner : ∀ {q cs}, r.values (.node q cs) = .ok vs →
      (vs.map RawValue.entry).Sublist
      ((Tree.node .elementType [.node q cs]).children.flatMap r.entriesOf) :=
    fun hvs => sublist_of_mem (entry_values hvs) mem_cons_self
  unfold element at h
  split at h
  · simp only at h
    split at h
    · cases h
    · obtain ⟨vs', hvs, h⟩ := bind_eq_ok h
      cases h
      exact hinner hvs
  · obtain ⟨vs', hvs, h⟩ := bind_eq_ok h
    cases h
    exact hinner hvs
  · simp only [Except.ok.injEq] at h
    split at h <;> cases h

theorem entry_fieldType {f : FieldType} (h : r.fieldType t = .ok f)
    (hf : f.inline? = some (kind, vs)) :
    (vs.map RawValue.entry).Sublist (t.children.flatMap r.entriesOf) := by
  fun_induction fieldType r t generalizing f with
  | case1 _ _ key _ value _ ih =>
    obtain ⟨v, hv, h⟩ := bind_eq_ok h
    cases h
    exact sublist_of_mem (sublist_of_mem (ih hv hf) (by simp [Tree.children])) mem_cons_self
  | case2 e | case3 e =>
    obtain ⟨v, hv, h⟩ := bind_eq_ok h
    cases h
    cases v <;> cases hf
    exact sublist_of_mem (entry_element hv rfl) mem_cons_self
  | case4 e =>
    obtain ⟨v, hv, h⟩ := bind_eq_ok h
    cases h
    cases v <;> cases hf
    exact entry_element hv rfl

theorem entries_field {f : Field} (h : r.field home (.node .field cs) = .ok f) :
    f.entries.Sublist (r.entriesOf (.node .field cs)) := by
  obtain ⟨type, htype, h⟩ := bind_eq_ok h
  cases h
  rw [Field.entries, entriesOf_node rfl]
  refine .cons_cons _ ?_
  cases hinline : type.inline? with
  | none => exact nil_sublist _
  | some inline =>
    have hvalues := entry_fieldType htype hinline
    cases hfind : (Tree.node .field cs).find? .type with
    | none => simpa [hfind, Tree.children] using hvalues
    | some t => exact sublist_of_mem (by simpa [hfind] using hvalues) (Tree.mem_of_find? hfind).1

theorem entries_message {m : Message} (h : r.message home (.node .messageBlock cs) = .ok m) :
    m.entries.Sublist (r.entriesOf (.node .messageBlock cs)) := by
  obtain ⟨fields, hfields, h⟩ := bind_eq_ok h
  cases h
  rw [Message.entries, entriesOf_node rfl]
  exact .cons_cons _ (flatMap_all_sublist hfields fun _ _ => entries_field)

theorem entries_enumeration {e : Enumeration} (hq : q.declares = true)
    (h : r.enumeration home kind (.node q cs) = .ok e) :
    e.entries.Sublist (r.entriesOf (.node q cs)) := by
  obtain ⟨raws, hraws, h⟩ := bind_eq_ok h
  obtain ⟨values, hvalues, h⟩ := bind_eq_ok h
  cases h
  rw [Enumeration.entries, entriesOf_node hq, entry_of_number hvalues]
  exact .cons_cons _ (entry_values hraws)

/-- **Every entry of a draft is read off a declaration of its own.** -/
theorem Contributes.entries {p : Place} {ts : List Tree} {c : Contribution}
    (h : Contributes r p ts c) :
    (c.scope.entries ++ c.arena.flatMap Namespace.entries).Subperm (ts.flatMap r.entriesOf) := by
  induction h with
  | nil | other => exact nil_subperm
  | @cons p t ts one rest _ _ ihone ihrest =>
    have hboth := ihone.append ihrest
    rw [← flatMap_append] at hboth
    refine List.Subperm.trans (Perm.subperm (perm_iff_count.2 fun e => ?_)) hboth
    simp only [count_append, flatMap_append, (Scope.entries_append _ _).count_eq]
    omega
  | declaration _ ih =>
    rw [flatMap_singleton, entriesOf, Tree.declarations, Tree.declarationsOfAll_eq,
      if_neg (by decide), nil_append, map_flatMap]
    exact ih
  | @namespaceBlock p cs t inner ht _ ih =>
    subst ht
    rw [flatMap_singleton, entriesOf_node rfl]
    exact (subperm_cons _).2 ih
  | message hm => simpa [Scope.entries] using (entries_message hm).subperm
  | enumeration hq he =>
    rcases hq with ⟨rfl, rfl⟩ | ⟨rfl, rfl⟩
    all_goals simpa [Scope.entries] using (entries_enumeration rfl he).subperm
  | compound =>
    rw [flatMap_singleton, entriesOf_node rfl]
    exact (subperm_cons _).2 nil_subperm

theorem ordered_of_read (hs : Source.read file text = .ok s) :
    Margins.Ordered s.tokens ∧ (∀ t ∈ s.tokens, t.first.offset ≤ t.last.offset) ∧
      s.comments.Nodup := by
  obtain ⟨-, -, hsource⟩ := Source.read_eq_ok_iff.1 hs
  have hlaid := laid_piecesFrom .origin text.toList
  have hlt : ∀ x ∈ pieces text.toList, x.first.offset < x.next.offset :=
    fun x hx => offset_lt_next (image_ne_nil hx)
  rw [hsource]
  refine ⟨ordered_tokens hlaid fun x hx => image_ne_nil hx, fun t ht => ?_, ?_⟩
  · obtain ⟨x, hx, ht⟩ := mem_filterMap.1 ht
    obtain ⟨k, -, rfl⟩ := Piece.token?_eq_some ht
    refine Nat.le_of_lt_succ ?_
    rw [Nat.succ_eq_add_one, last_offset_succ (image_ne_nil hx)]
    exact hlt x hx
  · refine ((pairwise_of_laid hlaid).imp_of_mem fun hx _ h =>
      Nat.lt_of_lt_of_le (hlt _ hx) h).filterMap _ ?_
    intro x y hxy c hc c' hc' heq
    obtain ⟨k, -, rfl⟩ := Piece.comment?_eq_some hc
    obtain ⟨k', -, rfl⟩ := Piece.comment?_eq_some hc'
    exact Nat.ne_of_lt hxy (congrArg (·.first.offset) heq)

/-- **The comments of a declaration** are taken once, and lead or trail it. -/
theorem nodup_commentsOf (hs : Source.read file text = .ok s)
    (ht : t ∈ Tree.declarationsOfAll s.tree.children) :
    ((ofSource s).commentsOf t).Nodup ∧ ∀ c ∈ (ofSource s).commentsOf t, Leads s.tokens t c ∨
      Trails s.tokens t c := by
  obtain ⟨-, ⟨cs, htree, hcs, hparses⟩, hsource⟩ := Source.read_eq_ok_iff.1 hs
  obtain ⟨hordered, hlong, hcomments⟩ := ordered_of_read hs
  have htokens : s.tokens = tokensOfAll cs := by rw [hsource, hcs]
  rw [htree] at ht
  obtain ⟨q, ds, before, after, rfl, hq, hsplit, hstands⟩ := Tree.exists_stands cs [] ht
  rw [append_nil, ← htokens] at hsplit
  have hnext := hparses.follows (.ofRule (by decide)) hstands
  have hfollowers : ∀ q : Rule, q.declares = true → some .comma ∉ q.followers ∧
      some .semicolon ∉ q.followers := by
    intro q
    cases q <;> decide
  have hseparator : ∀ u ∈ after.head?, Margins.isSeparator u = false := by
    intro u hu
    rw [nextKind, Option.mem_def.1 hu, Option.map_some] at hnext
    obtain ⟨hcomma, hsemicolon⟩ := hfollowers q hq
    simp only [Margins.isSeparator, Bool.or_eq_false_iff, beq_eq_false_iff_ne]
    exact ⟨fun hk => hcomma (hk ▸ hnext), fun hk => hsemicolon (hk ▸ hnext)⟩
  rw [commentsOf]
  split
  · next first last hfirst hlast =>
    obtain ⟨more, hmore⟩ := head?_eq_some_iff.1 hfirst
    obtain ⟨less, hless⟩ := getLast?_eq_some_iff.1 hlast
    have hstart : s.tokens = before ++ first :: (more ++ after) := by
      rw [hsplit, hmore, cons_append]
    have hend : s.tokens = (before ++ less) ++ last :: after := by simp [hsplit, hless]
    have hleads : ∀ c ∈ (ofSource s).margins.leading first, Leads s.tokens _ c :=
      fun c => leads_of_mem_leading hlong hordered hstart hfirst
    have htrails : ∀ c ∈ (ofSource s).margins.trailing last, Trails s.tokens _ c :=
      fun c => trails_of_mem_trailing hlong hordered hend hlast hseparator
    exact ⟨(hcomments.filter _).append (hcomments.filter _) fun c hc hc' =>
      (hleads c hc).not_trails (htrails c hc'),
      fun c hc => (mem_append.1 hc).imp (hleads c) (htrails c)⟩
  · exact ⟨.nil, by simp⟩

end Reader

/-- **No comment is taken twice.**  Every declaration of a draft is read off a tree of its own,
    and says what the comments that lead or trail it say; of these, no two are the same. -/
theorem comments_unshared {file text : String} {d : Draft} (h : read file text = .ok d) :
    ∃ (s : Source) (ts : List Tree), Source.read file text = .ok s ∧
      d.entries.Perm (ts.map (Reader.ofSource s).entry) ∧
      (∀ t ∈ ts, ((Reader.ofSource s).entry t).comment =
        "\n".intercalate (((Reader.ofSource s).commentsOf t).map fun c => Text.trim c.image)) ∧
      (ts.flatMap (Reader.ofSource s).commentsOf).Nodup := by
  obtain ⟨s, hs, h⟩ := bind_eq_ok h
  obtain ⟨all, hall, h⟩ := bind_eq_ok h
  cases h
  obtain ⟨es, hperm, hsublist⟩ := (Reader.contributes_of_contributions _ _ hall).entries
  have heq : s.tree.children.flatMap (Reader.ofSource s).entriesOf =
      (Tree.declarationsOfAll s.tree.children).map (Reader.ofSource s).entry := by
    rw [Tree.declarationsOfAll_eq, map_flatMap]
    rfl
  rw [heq] at hsublist
  obtain ⟨ts, hts, rfl⟩ := sublist_map_iff.1 hsublist
  obtain ⟨-, ⟨cs, htree, -⟩, -⟩ := Source.read_eq_ok_iff.1 hs
  have hapart : (Tree.declarationsOfAll s.tree.children).Pairwise Tree.Apart := by
    have hpairs := (Source.read_valid hs).pairwise_declarations (Source.nodup_tree hs)
    rw [htree] at hpairs ⊢
    exact hpairs
  refine ⟨s, ts, hs, hperm.symm, fun t _ => Reader.comment_entry _ t, nodup_flatMap.2
    ⟨fun t ht => (Reader.nodup_commentsOf hs (hts.subset ht)).1, ?_⟩⟩
  refine (hapart.sublist hts).imp_of_mem fun ha hb hab c hc hc' => ?_
  exact hab.not_both ((Reader.nodup_commentsOf hs (hts.subset ha)).2 c hc)
    ((Reader.nodup_commentsOf hs (hts.subset hb)).2 c hc')

/-- A text whose comments stand between declarations that start or end near to each other. -/
def annotated : String :=
  "/// one\nmessage A \x7b /* two */ x: enum \x7b B, /* three */ C \x7d; /* four */ \x7d // five\n"
    ++ "\n// six\noptions D \x7b E \x7d"

theorem comments_unshared_annotated : ∃ d, read "/n.def" annotated = .ok d ∧
    d.entries.map (·.name) = ["A", "x", "B", "C", "D", "E"] ∧
    ∃ (s : Source) (ts : List Tree), Source.read "/n.def" annotated = .ok s ∧
      d.entries.Perm (ts.map (Reader.ofSource s).entry) ∧
      (∀ t ∈ ts, ((Reader.ofSource s).entry t).comment =
        "\n".intercalate (((Reader.ofSource s).commentsOf t).map fun c => Text.trim c.image)) ∧
      (ts.flatMap (Reader.ofSource s).commentsOf).Nodup := by
  have hnames : (read "/n.def" annotated).toOption.map (fun d => d.entries.map (·.name)) =
      some ["A", "x", "B", "C", "D", "E"] := by decide +kernel
  obtain ⟨d, hread, hnames⟩ := exists_of_map_toOption hnames
  exact ⟨d, hread, hnames, comments_unshared hread⟩

end Draft

end MessageSchema
