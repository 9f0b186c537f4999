/-
  The strict parser accepts exactly the language of the grammar.
-/
import MessageSchema.Proofs.Reading

namespace MessageSchema

open List

open MessageSchema.Tree (tokensOfAll)

namespace Machine

variable {m m' : Machine} {f : Frame} {callers : List Frame} {tokens : List Token}
  {b : Option Token}

theorem ahead_eq_nil_of_parse (h : (parse .strict tokens).complaints = []) :
    ((start tokens).run .strict (stepBound tokens.length)).cursor.ahead = [] := by
  rw [parse, complainOfRest] at h
  split at h
  · next hahead => exact List.isEmpty_iff.1 hahead
  · simp [complain] at h

/-- **What the strict machine accepts has a derivation**, the tree that it gives. -/
theorem derivation_of_parse {t : Tree} (hc : (parse .strict tokens).complaints = [])
    (ht : (parse .strict tokens).tree = some t) : Derivation tokens t := by
  have hfaithful := (faithful_start tokens).run (stepBound tokens.length)
  rw [parse, tree_complainOfRest] at ht
  obtain ⟨-, cs, rfl, htokens, hparses⟩ := hfaithful.tree t ht
  rw [ahead_eq_nil_of_parse hc] at htokens hparses
  exact ⟨cs, rfl, by simpa using htokens, hparses⟩

/-! ## A derivation leads the machine along -/

/-- The machine comes from one state to another. -/
def Leads (m m' : Machine) : Prop := ∃ n, ∀ k, m.run .strict (n + k) = m'.run .strict k

theorem Leads.refl (m : Machine) : Leads m m := ⟨0, fun k => by rw [Nat.zero_add]⟩

theorem Leads.trans {m₁ m₂ m₃ : Machine} (h : Leads m₁ m₂) (h' : Leads m₂ m₃) : Leads m₁ m₃ := by
  obtain ⟨n, hn⟩ := h
  obtain ⟨n', hn'⟩ := h'
  exact ⟨n + n', fun k => by rw [Nat.add_assoc, hn, hn']⟩

theorem leads_of_step (hf : m.frames = f :: callers) (hm : m.step .strict = m') : Leads m m' :=
  ⟨1, fun k => by rw [Nat.add_comm, run_succ hf, hm]⟩

theorem Leads.run_eq (h : Leads m m') (hm' : m'.frames = []) {n : Nat}
    (hn : (m.run .strict n).frames = []) : m.run .strict n = m' := by
  obtain ⟨k, hk⟩ := h
  have hadd : ∀ (m : Machine) (i j : Nat), m.run .strict (i + j) =
      (m.run .strict i).run .strict j := by
    intro m i j
    induction i generalizing m with
    | zero => rw [Nat.zero_add]; rfl
    | succ i ih =>
      rcases hf : m.frames with _ | ⟨f, callers⟩
      · rw [run_of_frames_eq_nil hf, run_of_frames_eq_nil hf, run_of_frames_eq_nil hf]
      · rw [Nat.add_right_comm, run_succ hf, run_succ hf, ih]
  calc m.run .strict n = (m.run .strict n).run .strict k := (run_of_frames_eq_nil hn _ _).symm
    _ = m.run .strict (k + n) := by rw [← hadd, Nat.add_comm]
    _ = m'.run .strict n := hk n
    _ = m' := run_of_frames_eq_nil hm' _ _

end Machine

open Machine

section
variable {b : Option Token} {items : List Item} {ts : List Tree} {rest : List Token}
  {after : List (Option Kind)} {body : List Item}

theorem Parses.nextKind_mem (h : Parses b items ts rest) (hfits : seqFits items = true)
    (hrest : nextKind rest ∈ after) :
    nextKind (tokensOfAll ts ++ rest) ∈ nextKinds items after := by
  have hmem := h.contextFree.nextKind_mem hfits rest
  rw [nextKinds, mem_append] at hmem ⊢
  refine hmem.imp id fun hmem => ?_
  split at hmem
  · cases hmem
  · next hfirm => rwa [if_neg hfirm, mem_singleton.1 hmem]

theorem startsWith_eq_false {kinds : List Kind} (hapart : apart kinds after = true)
    (h : nextKind rest ∈ after) : (⟨b, rest⟩ : Cursor).startsWith kinds = false := by
  rw [← Bool.not_eq_true, startsWith_iff]
  rintro ⟨k, hk, hnext⟩
  exact apart_iff.1 hapart k hk (hnext ▸ h)

theorem Parses.startsWith (h : Parses b (body ++ items) ts rest)
    (hbody : isFirm body = true ∧ seqFits body = true) (hitems : seqFits items = true) :
    (⟨b, tokensOfAll ts ++ rest⟩ : Cursor).startsWith (firstOf body) = true := by
  have hmem := Parses.nextKind_mem h (seqFits_append hbody.2 hitems) (mem_singleton_self _)
  rw [nextKinds_append] at hmem
  obtain ⟨k, hk, hfirst⟩ := (mem_nextKinds_of_isFirm hbody.1).1 hmem
  exact startsWith_iff.2 ⟨k, hfirst, hk⟩

theorem exists_token_of_name {cs : List Tree} (h : Parses b Rule.name.body cs rest) :
    ∃ t, cs = [.leaf t] := by
  obtain ⟨t, rest', rfl, -, hrest⟩ := Derives.of_oneOf h.contextFree.1
  exact ⟨t, by rw [hrest.of_nil]⟩

theorem second_of_areModifiers (hclear : areModifiers body items = true)
    (h : Parses b items ts rest) : (⟨b, tokensOfAll ts ++ rest⟩ : Cursor).second = some .colon := by
  unfold areModifiers at hclear
  split at hclear
  · cases h with
    | rule hname h =>
      obtain ⟨t, rfl⟩ := exists_token_of_name hname
      obtain ⟨colon, ts, rfl, hcolon, -⟩ := h.contextFree.1.of_token
      simp [Cursor.second, tokensOfAll, Tree.tokens, hcolon]
  · cases hclear

/-- After a modifier comes another one or the name. -/
theorem second_of_modifier {g : Guard} (hclear : areModifiers body items = true)
    (hfits : seqFits (.many g body :: items) = true)
    (h : Parses b (body ++ .many g body :: items) ts rest) :
    (⟨b, tokensOfAll ts ++ rest⟩ : Cursor).second ≠ some .colon := by
  unfold areModifiers at hclear
  split at hclear
  · next items =>
    rw [singleton_append] at h
    cases h with
    | @token _ _ t _ ts _ _ h =>
      have hmem := Parses.nextKind_mem h hfits (mem_singleton_self _)
      rw [nextKinds_many, mem_append, mem_nextKinds_of_isFirm rfl] at hmem
      have hfirst : ∀ is, firstOf (.rule .name :: is) = nameKinds := fun is => by
        simp [firstOf, seqFirst, Item.first, Item.isOptional]
        rfl
      intro hsecond
      have hcolon : nextKind (tokensOfAll ts ++ rest) = some .colon := by
        simpa [Cursor.second, tokensOfAll, Tree.tokens, nextKind, head?_eq_getElem?] using hsecond
      rw [hcolon, hfirst] at hmem
      rcases hmem with hmem | ⟨k, hk, hmem⟩
      · exact absurd hmem (by decide)
      · cases hk
        exact absurd hmem (by decide)
  · cases hclear

theorem contextFree_identifier {t : Token} (h : t.kind = .identifier) :
    ContextFree [.rule .defaultAtom] [.node .defaultAtom [.leaf t]] := by
  have hatom : Derives Rule.defaultAtom.body [.leaf t] :=
    .choose (a := [.token .identifier]) (by simp) (.token h .nil)
  exact ⟨.rule .nil, by simpa using Tree.Valid.node hatom (by simpa using Tree.Valid.leaf trivial)⟩

/-- The machine leaves a repetition where a derivation does. -/
theorem stops_of_releases {g : Guard} (hclear : g.isClear body items after = true)
    (hreleases : g.Releases body b (tokensOfAll ts ++ rest)) (hfits : seqFits items = true)
    (h : Parses b items ts rest) (hrest : nextKind rest ∈ after) :
    ((⟨b, tokensOfAll ts ++ rest⟩ : Cursor).startsWith (firstOf body) &&
      (⟨b, tokensOfAll ts ++ rest⟩ : Cursor).allows g) = false := by
  have hmem := Parses.nextKind_mem h hfits hrest
  cases g with
  | always => rw [startsWith_eq_false hclear hmem, Bool.false_and]
  | notBeforeColon => simp [Cursor.allows, second_of_areModifiers hclear h]
  | sameLine =>
    have hclear : areAtoms body (nextKinds items after) = true := hclear
    unfold areAtoms at hclear
    split at hclear
    · rw [← Bool.not_eq_true, Bool.and_eq_true, startsWith_iff, allows_sameLine_iff]
      rintro ⟨⟨k, hk, hnext⟩, hline⟩
      -- the next token could be an atom and could come after the default: it is an identifier
      obtain rfl : k = .identifier := by
        have hor := all_eq_true.1 hclear k hk
        simpa [hnext ▸ hmem] using hor
      obtain ⟨t, ht, hkind⟩ := Option.map_eq_some_iff.1 hnext
      obtain ⟨tokens, htokens⟩ := head?_eq_some_iff.1 ht
      exact hreleases _ tokens (contextFree_identifier hkind) htokens hline
    · cases hclear

theorem allows_of_admits {g : Guard} (hclear : g.isClear body items after = true)
    (hadmits : g.Admits b (tokensOfAll ts ++ rest)) (hfits : seqFits (.many g body :: items) = true)
    (h : Parses b (body ++ .many g body :: items) ts rest) :
    (⟨b, tokensOfAll ts ++ rest⟩ : Cursor).allows g = true := by
  cases g with
  | always => rfl
  | notBeforeColon => simpa [Cursor.allows] using second_of_modifier hclear hfits h
  | sameLine => exact allows_sameLine_iff.2 hadmits

theorem find?_startsWith {as : List (List Item)} {a : List Item} (ha : a ∈ as)
    (hclear : choiceIsClear after as = true)
    (hstarts : (⟨b, rest⟩ : Cursor).startsWith (firstOf a) = true) :
    as.find? (fun a => (⟨b, rest⟩ : Cursor).startsWith (firstOf a)) = some a := by
  induction as with
  | nil => cases ha
  | cons a' as ih =>
    rw [choiceIsClear, Bool.and_eq_true, Bool.and_eq_true] at hclear
    rcases mem_cons.1 ha with rfl | ha
    · rw [find?_cons, hstarts]
    · obtain ⟨k, hk, hnext⟩ := startsWith_iff.1 hstarts
      have hothers : nextKind rest ∈ (choiceFirst Rule.first as).map some :=
        mem_map.2 ⟨k, mem_choiceFirst.2 ⟨a, ha, hk⟩, hnext.symm⟩
      rw [find?_cons, startsWith_eq_false hclear.1.2 hothers]
      exact ih ha hclear.2

theorem seqIsClear_of_mem {as : List (List Item)} {a : List Item} (ha : a ∈ as)
    (hclear : choiceIsClear after as = true) : seqIsClear after a = true := by
  induction as with
  | nil => cases ha
  | cons a' as ih =>
    rw [choiceIsClear, Bool.and_eq_true, Bool.and_eq_true] at hclear
    rcases mem_cons.1 ha with rfl | ha
    · exact hclear.1.1
    · exact ih ha hclear.2

/-- Items that fit and are clear, in front of tokens that may come after them. -/
structure Clear (after : List (Option Kind)) (items : List Item) (rest : List Token) : Prop where
  fits : seqFits items = true
  clear : seqIsClear after items = true
  next : nextKind rest ∈ after

namespace Clear

variable {i : Item} {is : List Item}

theorem item (h : Clear after (i :: is) rest) : i.isClear is after = true :=
  (seqIsClear_cons.1 h.clear).1

theorem tail (h : Clear after (i :: is) rest) : Clear after is rest :=
  ⟨(seqFits_cons.1 h.fits).2, (seqIsClear_cons.1 h.clear).2, h.next⟩

theorem ofRule {r : Rule} (hnext : nextKind rest ∈ r.followers) : Clear r.followers r.body rest :=
  ⟨r.fits_body, r.isClear_body, hnext⟩

theorem rule {r : Rule} (h : Clear after (.rule r :: is) rest) (hitems : Parses b is ts rest) :
    Clear r.followers r.body (tokensOfAll ts ++ rest) :=
  .ofRule (by simpa using all_eq_true.1 h.item _ (hitems.nextKind_mem h.tail.fits h.next))

theorem enter (h : Clear after (.optional body :: is) rest) :
    (isFirm body = true ∧ seqFits body = true) ∧ Clear after (body ++ is) rest := by
  obtain ⟨⟨hbody, -⟩, hitems⟩ := seqFits_cons.1 h.fits
  have hbody := Bool.and_eq_true_iff.1 hbody
  exact ⟨hbody, seqFits_append hbody.2 hitems,
    seqIsClear_append (Bool.and_eq_true_iff.1 h.item).2 h.tail.clear, h.next⟩

theorem round {g : Guard} (h : Clear after (.many g body :: is) rest) :
    (isFirm body = true ∧ seqFits body = true) ∧
      Clear after (body ++ .many g body :: is) rest := by
  obtain ⟨⟨hbody, -⟩, -⟩ := seqFits_cons.1 h.fits
  have hbody := Bool.and_eq_true_iff.1 hbody
  have hround := (Bool.and_eq_true_iff.1 h.item).2
  exact ⟨hbody, seqFits_append hbody.2 h.fits,
    seqIsClear_append (nextKinds_many g body is after ▸ hround) h.clear, h.next⟩

theorem choose {as : List (List Item)} {a : List Item} (h : Clear after (.choice as :: is) rest)
    (ha : a ∈ as) : (isFirm a = true ∧ seqFits a = true) ∧ Clear after (a ++ is) rest := by
  obtain ⟨⟨has, -⟩, hitems⟩ := seqFits_cons.1 h.fits
  have hbody := choiceFits_iff.1 has _ ha
  exact ⟨hbody, seqFits_append hbody.2 hitems,
    seqIsClear_append (seqIsClear_of_mem ha h.item) h.tail.clear, h.next⟩

end Clear

/-- **A derivation leads the machine along.** -/
theorem Parses.leads (h : Parses b items ts rest) (hclear : Clear after items rest) (r : Rule)
    (done : List Tree) (more : List Item) (callers : List Frame) (cs : List Complaint)
    (tree : Option Tree) :
    Leads ⟨⟨r, done, items ++ more⟩ :: callers, ⟨b, tokensOfAll ts ++ rest⟩, cs, tree⟩
      ⟨⟨r, ts.reverse ++ done, more⟩ :: callers, ⟨lastToken b ts, rest⟩, cs, tree⟩ := by
  induction h generalizing after r done more callers with
  | nil => exact .refl _
  | @token b k t is ts rest hk _ ih =>
    have hitems := ih hclear.tail r (.leaf t :: done) more callers
    rw [lastToken_leaf, reverse_cons, append_assoc]
    refine (leads_of_step rfl ?_).trans hitems
    simp [step, Machine.token, Cursor.next, Cursor.advance, tokensOfAll, Tree.tokens, hk]
  | @rule b r' cs' is ts rest _ h ihcs ih =>
    have hbody := ihcs (hclear.rule h) r' [] [] (⟨r, done, is ++ more⟩ :: callers)
    have hitems := ih hclear.tail r (.node r' cs' :: done) more callers
    rw [lastToken_node, reverse_cons, append_assoc]
    refine (leads_of_step rfl ?_).trans (hbody.trans ((leads_of_step rfl ?_).trans hitems))
    · simp [step, tokensOfAll, Tree.tokens]
    · simp [step, Machine.close]
  | @skip b body is ts rest h ih =>
    have hnext := h.nextKind_mem hclear.tail.fits hclear.next
    have hno := startsWith_eq_false (b := b) (Bool.and_eq_true_iff.1 hclear.item).1 hnext
    refine (leads_of_step rfl ?_).trans (ih hclear.tail r done more callers)
    simp [step, hno]
  | @enter b body is ts rest h ih =>
    obtain ⟨hbody, hclear'⟩ := hclear.enter
    have hyes := h.startsWith hbody hclear.tail.fits
    refine (leads_of_step rfl ?_).trans (ih hclear' r done more callers)
    simp [step, hyes]
  | @stop b g body is ts rest hreleases h ih =>
    have hno := stops_of_releases (Bool.and_eq_true_iff.1 hclear.item).1 hreleases
      hclear.tail.fits h hclear.next
    refine (leads_of_step rfl ?_).trans (ih hclear.tail r done more callers)
    simp [step, hno]
  | @round b g body is ts rest hadmits h ih | @first b g body is ts rest hadmits h ih =>
    have hclear : Clear after (.many g body :: is) rest := ⟨hclear.fits, hclear.clear, hclear.next⟩
    obtain ⟨hbody, hclear'⟩ := hclear.round
    have hyes := h.startsWith hbody hclear.fits
    have hallows :=
      allows_of_admits (Bool.and_eq_true_iff.1 hclear.item).1 hadmits hclear.fits h
    refine (leads_of_step rfl ?_).trans (ih hclear' r done more callers)
    simp [step, hyes, hallows]
  | @choose b as a is ts rest ha h ih =>
    obtain ⟨hbody, hclear'⟩ := hclear.choose ha
    have hyes := h.startsWith hbody hclear.tail.fits
    refine (leads_of_step rfl ?_).trans (ih hclear' r done more callers)
    simp [step, find?_startsWith ha hclear.item hyes]

end

/-- **What has a derivation is accepted**, with the derivation as its tree. -/
theorem Derivation.parse_eq {t : Tree} (h : Derivation tokens t) :
    (parse .strict tokens).complaints = [] ∧ (parse .strict tokens).tree = some t := by
  obtain ⟨cs, rfl, htokens, hparses⟩ := h
  have hbody :=
    hparses.leads (.ofRule (by decide)) .file [] [] [] [] none
  rw [append_nil, append_nil, append_nil, htokens] at hbody
  have hend := (hbody.trans (leads_of_step rfl rfl)).run_eq rfl (frames_run_strict tokens)
  rw [parse, start, hend]
  simp [complainOfRest, step, Machine.close]

theorem Derivation.unique {t t' : Tree} (h : Derivation tokens t) (h' : Derivation tokens t') :
    t = t' :=
  Option.some.inj (h.parse_eq.2.symm.trans h'.parse_eq.2)

/-- **A text is read** if it has no stray parts and a derivation, the tree that it is read as. -/
theorem Source.read_eq_ok_iff {file text : String} {s : Source} : Source.read file text = .ok s ↔
    (Scan.ofText text).strays = [] ∧ Derivation (Scan.ofText text).tokens s.tree ∧
      s = ⟨file, text, (Scan.ofText text).tokens, (Scan.ofText text).comments, s.tree⟩ := by
  unfold Source.read
  simp only
  constructor
  · intro h
    split at h
    · cases h
    · next hstrays =>
      split at h
      · next tree hcomplaints htree =>
        cases h
        exact ⟨hstrays, Machine.derivation_of_parse hcomplaints htree, rfl⟩
      · cases h
      · cases h
  · rintro ⟨hstrays, hderivation, hs⟩
    obtain ⟨hcomplaints, htree⟩ := hderivation.parse_eq
    rw [hstrays, hcomplaints, htree]
    exact congrArg Except.ok hs.symm

/-! ## Arrays -/

/-- A tree stands somewhere in another one. -/
inductive Tree.Within : Tree → Tree → Prop
  | self {t} : Within t t
  | child {s c r cs} : c ∈ cs → Within s c → Within s (.node r cs)

/-- What an array holds is neither an array nor a map, and holds none. -/
def Tree.HasFlatArrays (t : Tree) : Prop :=
  ∀ cs, (Tree.node .type cs).Within t → ∀ b, .leaf b ∈ cs → b.kind = .leftBracket →
    ∀ e ∈ cs, ∀ q ds, (Tree.node q ds).Within e → q ≠ .type ∧ q ≠ .mapType

mutual

/-- The rules that an item speaks of. -/
def Item.rules : Item → List Rule
  | .token _ => []
  | .rule r => [r]
  | .optional body | .many _ body | .many1 _ body => seqRules body
  | .choice alternatives => choiceRules alternatives

/-- The rules that a sequence of items speaks of. -/
def seqRules : List Item → List Rule
  | [] => []
  | i :: is => i.rules ++ seqRules is

/-- The rules that some alternatives speak of. -/
def choiceRules : List (List Item) → List Rule
  | [] => []
  | a :: as => seqRules a ++ choiceRules as

end

theorem seqRules_append (xs ys : List Item) : seqRules (xs ++ ys) = seqRules xs ++ seqRules ys := by
  induction xs with
  | nil => rfl
  | cons i is ih => rw [cons_append, seqRules, ih, seqRules, append_assoc]

theorem mem_choiceRules {as : List (List Item)} {a : List Item} (ha : a ∈ as) {r : Rule}
    (hr : r ∈ seqRules a) : r ∈ choiceRules as := by
  induction as with
  | nil => cases ha
  | cons a' as ih =>
    rw [choiceRules, mem_append]
    rcases mem_cons.1 ha with rfl | ha
    · exact .inl hr
    · exact .inr (ih ha)

/-- Only the rules that items speak of are applied in what they derive. -/
theorem Derives.mem_seqRules {items : List Item} {ts : List Tree} (h : Derives items ts) {r : Rule}
    {cs : List Tree} (hmem : .node r cs ∈ ts) : r ∈ seqRules items := by
  induction h with
  | nil => cases hmem
  | token _ _ ih => exact mem_append_right _ (ih (by simpa using hmem))
  | rule _ ih =>
    rcases mem_cons.1 hmem with hmem | hmem
    · cases hmem
      exact mem_append_left _ mem_cons_self
    · exact mem_append_right _ (ih hmem)
  | skip _ ih | stop _ ih => exact mem_append_right _ (ih hmem)
  | enter _ ih => simpa only [seqRules_append, seqRules, Item.rules] using ih hmem
  | round _ ih | first _ ih =>
    have hr := ih hmem
    simp only [seqRules_append, seqRules, Item.rules, mem_append] at hr ⊢
    tauto
  | choose ha _ ih =>
    have hr := ih hmem
    rw [seqRules_append, mem_append] at hr
    exact mem_append.2 (hr.imp (mem_choiceRules ha) id)

/-- The rules that the elements of an array are made by. -/
def Rule.isElement : Rule → Bool
  | elementType | inlineEnum | inlineOptions | scalarType | primitiveType | qualifiedName
  | valueList | value | componentList | name => true
  | _ => false

theorem Rule.isElement_of_mem {r q : Rule} (h : r.isElement = true) (hq : q ∈ seqRules r.body) :
    q.isElement = true := by
  have hall : (seqRules r.body).all Rule.isElement = true := by
    cases r <;> first | decide | cases h
  exact all_eq_true.1 hall q hq

theorem Tree.Within.isElement {s t : Tree} (h : s.Within t) {q r : Rule} {ds cs : List Tree}
    (hs : s = .node q ds) (ht : t = .node r cs) (hvalid : t.Valid fun _ => True)
    (hr : r.isElement = true) : q.isElement = true := by
  induction h generalizing r cs with
  | self =>
    cases hs.symm.trans ht
    exact hr
  | @child c r' cs' hc hwithin ih =>
    cases ht
    cases c with
    | leaf =>
      cases hwithin
      cases hs
    | node p es =>
      exact ih rfl (hvalid.child hc) (Rule.isElement_of_mem hr (hvalid.derives.mem_seqRules hc))

theorem Tree.Valid.within {P : Token → Prop} {s t : Tree} (hvalid : t.Valid P) (h : s.Within t) :
    s.Valid P := by
  induction h with
  | self => exact hvalid
  | child hc _ ih => exact ih (hvalid.child hc)

/-- **Arrays are flat** in every tree that follows the grammar. -/
theorem Tree.Valid.hasFlatArrays {t : Tree} (h : t.Valid fun _ => True) : t.HasFlatArrays := by
  intro cs hcs b hb hkind e he q ds hq
  have hvalid := h.within hcs
  obtain ⟨a, ha, hd⟩ := hvalid.derives.of_choice
  rw [append_nil] at hd
  simp only [mem_cons, not_mem_nil, or_false] at ha
  rcases ha with rfl | rfl
  · -- a map has no brackets
    obtain ⟨ms, rest, rfl, hrest⟩ := hd.of_rule
    obtain rfl := hrest.of_nil
    simp at hb
  · obtain ⟨es, rest, rfl, hrest⟩ := hd.of_rule
    rcases mem_cons.1 he with rfl | he
    · have hq := hq.isElement rfl rfl (hvalid.child he) rfl
      constructor <;> rintro rfl <;> cases hq
    · -- beside the element there are only brackets
      have hr := fun p fs (hmem : e = .node p fs) => hrest.mem_seqRules (hmem ▸ he)
      cases e with
      | leaf => cases hq
      | node p fs => simpa [seqRules, Item.rules] using hr p fs rfl

/-- **The strict parser accepts exactly the language of the grammar**: a text is accepted if
    and only if it has one derivation, and then the derivation is its tree, in which no array
    holds an array or a map at any depth. -/
theorem Machine.accepts_iff_derivation (tokens : List Token) :
    ((parse .strict tokens).complaints = [] ↔ ∃! t, Derivation tokens t) ∧
      ∀ t, Derivation tokens t → (parse .strict tokens).tree = some t ∧ t.HasFlatArrays := by
  refine ⟨⟨fun hc => ?_, fun ⟨t, ht, _⟩ => ht.parse_eq.1⟩, fun t ht => ⟨ht.parse_eq.2, ?_⟩⟩
  · obtain ⟨t, ht⟩ := exists_tree_of_parse hc
    have hderivation := derivation_of_parse hc ht
    exact ⟨t, hderivation, fun t' ht' => ht'.unique hderivation⟩
  · obtain ⟨cs, rfl, -, hparses⟩ := ht
    exact (Tree.Valid.node hparses.contextFree.1 hparses.contextFree.2).hasFlatArrays

end MessageSchema
