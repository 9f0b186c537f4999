/-
  What is written is read back.

  * `Schema.built_field`, `Schema.built_declaration`: the words of a construct are
    derived from its rule, and what the reader makes of it is what the schema says.
-/
import MessageSchema.Proofs.Assembly

namespace MessageSchema

open List Lexer Numeral Draft

open MessageSchema.Tree (tokensOfAll)

namespace Schema

variable {r : Reader} {t : Tree} {vs : List Value} {kind : EnumKind} {ts : List Tree}

/-! ## Names -/

variable {cs : List Tree}

theorem wordKind_mem (w : String) : wordKind w ∈ Kind.identifier :: Keyword.all.map .keyword := by
  unfold wordKind
  split
  · next k _ => exact mem_cons_of_mem _ (mem_map_of_mem (by cases k <;> decide))
  · exact mem_cons_self

theorem join_singleton (s : String) : String.join [s] = s := by simp [String.join]

def Names (x : Identifier) (t : Tree) : Prop := (∃ ds, t = .node .name ds) ∧ t.image = x.text

theorem built_name (x : Identifier) :
    Built r [.name x] [.rule .name] fun cs => ∃ t, cs = [t] ∧ Names x t := by
  have hbody : Built r [.name x] Rule.name.body _ := .oneOf _ (wordKind_mem x.text)
  refine hbody.image.rule.imp ?_
  rintro _ ⟨ds, rfl, -, himage⟩
  rw [map_singleton, join_singleton] at himage
  exact ⟨_, rfl, ⟨ds, rfl⟩, himage⟩

theorem kind_plain (x : PlainIdentifier) : (Word.name x.toIdentifier).kind = .identifier := by
  show wordKind x.text = .identifier
  rw [wordKind, x.notKeyword]

theorem built_separator (double : Bool) : Built r [if double then .colons else .mark '.' .dot rfl]
    [Rule.oneOf [.colons, .dot]] fun _ => True := by
  refine (Built.oneOf _ ?_).imp fun _ _ => trivial
  cases double <;> decide

theorem built_path (q : Path) : Built r q.words [.rule .qualifiedName] fun cs =>
    ∃ ds, cs = [.node .qualifiedName ds] ∧ (Tree.node .qualifiedName ds).image = q.text := by
  have htail :=
      Built.flatMap (g := .always) (by decide) (P := fun _ _ => True)
      fun part (_ : part ∈ q.tail) =>
    ((built_separator (r := r) part.1).append (built_name part.2)).imp fun _ _ => trivial
  have hbody : Built r q.words Rule.qualifiedName.body _ :=
    (Built.token _ (kind_plain q.head)).append htail
  refine hbody.image.rule.imp ?_
  rintro _ ⟨ds, rfl, -, himage⟩
  exact ⟨ds, rfl, himage⟩

/-! ## Values -/

theorem integer?_ofInt (n : Int) : integer? (Word.number (.ofInt n)).text = some n := by
  have hchars : (Word.number (.ofInt n)).text.toList =
      (if decide (n < 0) then ['-'] else []) ++ (Digits.ofNat n.natAbs).chars := by
    simp [Word.text, Word.number, Number.chars, Number.ofInt, Number.fractionChars,
      Number.exponentChars]
  have hsign : splitSign (Word.number (.ofInt n)).text.toList =
      (decide (n < 0), (Digits.ofNat n.natAbs).chars) := by
    rw [hchars]
    cases decide (n < 0) with
    | true => rfl
    | false => simpa using (Digits.ofNat n.natAbs).splitSign_append []
  have hall : (Digits.ofNat n.natAbs).chars.all isDigit = true :=
    all_eq_true.2 (Digits.ofNat n.natAbs).isDigit
  have hvalue : value (Digits.ofNat n.natAbs).chars = n.natAbs :=
    Nat.ofDigitChars_toDigits (by decide) (by decide)
  rw [integer?, hsign]
  simp only [(Digits.ofNat n.natAbs).isEmpty_chars, hall, hvalue, Bool.not_true, Bool.or_self,
    Bool.false_eq_true, if_false]
  split
  · next hneg => rw [decide_eq_true_eq] at hneg; congr 1; omega
  · next hneg => rw [decide_eq_true_eq] at hneg; congr 1; omega

theorem filterMap_leaf (k : Kind) (ts : List Token) :
    (ts.map Tree.leaf).filterMap (Tree.leaf? k) = ts.filter (·.kind = k) := by
  induction ts with
  | nil => rfl
  | cons t ts ih =>
    by_cases h : t.kind = k
    · simp [Tree.leaf?, h, ih]
    · simp [Tree.leaf?, h, ih]

/-- Leaves, with at most a number among them. -/
def Numbers (number : Option Int) (cs : List Tree) : Prop :=
  ∃ ts : List Token, cs = ts.map .leaf ∧
    (ts.filter (·.kind = .number)).map (fun t => integer? t.image) = (number.map some).toList

theorem Numbers.append {n : Option Int} (h : Numbers n cs) {t : Token} (ht : t.kind ≠ .number) :
    Numbers n (cs ++ [.leaf t]) := by
  obtain ⟨ts, rfl, hts⟩ := h
  refine ⟨ts ++ [t], by simp, ?_⟩
  rw [filter_append, filter_cons_of_neg (by simpa using ht), filter_nil, append_nil, hts]

theorem built_number (n : Option { n : Int // EnumKind.inRange n = true }) :
    Built r (Value.numberWords n) [.optional [.token .equals, .token .number]]
      (Numbers (n.map (·.1))) := by
  cases n with
  | none => exact Built.skip.imp fun _ h => ⟨[], h, rfl⟩
  | some n =>
    refine (Built.append (.token (k := .equals) .equals rfl)
      (.token (k := .number) (.number (.ofInt n.1)) rfl)).enter.imp ?_
    rintro _ ⟨_, _, rfl, ⟨e, rfl, he, -⟩, t, rfl, ht, himage⟩
    refine ⟨[e, t], rfl, ?_⟩
    rw [filter_cons_of_neg (by simp [he]), filter_cons_of_pos (by simp [ht])]
    simp [himage, integer?_ofInt]

/-- What the reader makes of the tree of a value. -/
theorem value_eq {v : Value} (ht : Names v.name t) (hcs : Numbers (v.number.map (·.1)) cs) :
    (r.value (.node .value (t :: cs))).map (RawValue.bare fun _ => 0) = .ok v.draft := by
  obtain ⟨⟨ds, rfl⟩, hname⟩ := ht
  obtain ⟨ts, rfl, hts⟩ := hcs
  have hnumber : r.numberOf (.node .value (.node .name ds :: ts.map .leaf)) =
      .ok (v.number.map (·.1)) := by
    have hleaves : (Tree.node .value (.node .name ds :: ts.map .leaf)).leaves .number =
        ts.filter (·.kind = .number) := filterMap_leaf .number ts
    rw [Reader.numberOf, hleaves]
    cases hv : v.number with
    | none =>
      rw [hv] at hts
      rw [map_eq_nil_iff.1 hts]
      rfl
    | some n =>
      rw [hv] at hts
      obtain ⟨x, rest, hfilter, hx, -⟩ := map_eq_cons_iff.1 hts
      rw [hfilter]
      simp [hx, n.2]
  have hnameOf : Reader.nameOf (.node .value (.node .name ds :: ts.map .leaf)) = v.name.text := by
    simp [Reader.nameOf, Tree.find?, Tree.children, Tree.isNode, hname]
  rw [Reader.value, hnumber]
  simp [bind, Except.bind, pure, Except.pure, Except.map, RawValue.bare, Value.draft, hnameOf]

theorem built_value (v : Value) (comma : Bool) :
    Built r (v.words ++ if comma then [.comma] else []) [.rule .value] fun cs =>
      ∃ t, cs = [t] ∧ t.isNode .value = true ∧
        Reads r.value (RawValue.bare fun _ => 0) v.draft t := by
  have hcomma : Built r (if comma then [.comma] else [])
      [.optional [Rule.oneOf [.comma, .semicolon]]] fun cs =>
      cs = [] ∨ ∃ t : Token, cs = [.leaf t] ∧ t.kind ≠ .number := by
    cases comma with
    | false => exact Built.skip.imp fun _ h => .inl h
    | true =>
      refine (Built.oneOf Word.comma (by decide)).enter.imp ?_
      rintro _ ⟨t, rfl, ht, -⟩
      exact .inr ⟨t, rfl, by rw [ht]; decide⟩
  have hbody : Built r (v.words ++ if comma then [.comma] else []) Rule.value.body _ :=
    ((built_name v.name).append (built_number v.number)).append hcomma
  refine hbody.rule.imp ?_
  rintro _ ⟨_, rfl, _, _, rfl, ⟨_, _, rfl, ⟨t, rfl, ht⟩, hnumber⟩, rfl | ⟨c, rfl, hc⟩⟩
  · rw [append_nil]
    exact ⟨_, rfl, rfl, value_eq ht hnumber⟩
  · rw [append_assoc]
    exact ⟨_, rfl, rfl, value_eq ht (hnumber.append hc)⟩

theorem built_values (vs : List Value) : Built r (Value.list vs) [.rule .valueList] fun cs =>
    ∃ ds, cs = [.node .valueList ds] ∧ Reads (fun t => (t.all .value).mapM r.value)
      (List.map (RawValue.bare fun _ => 0)) (vs.map Value.draft) (.node .valueList ds) := by
  have hlist := Built.listed (r := r) (fun v => by simpa using built_value v false)
    (fun v => built_value v true) vs
  refine (Built.rule (q := .valueList) (Built.braced hlist)).imp ?_
  rintro _ ⟨_, rfl, a, b, _, rfl, css, rfl, hall⟩
  have hts := forall₂_flatten hall
  refine ⟨_, rfl, ?_⟩
  have hreads := reads_mapM (hts.imp fun _ _ h => h.2)
  simpa [Reads, all_of_isNode hts] using hreads

/-! ## Types -/

theorem text_keyword (k : Keyword) : (Word.keyword k).text = k.word := by cases k <;> decide +kernel

theorem built_primitive (p : Primitive) :
    Built r [.keyword p.keyword] [.rule .primitiveType] fun cs =>
    ∃ ds, cs = [.node .primitiveType ds] ∧ Reader.primitive (.node .primitiveType ds) = p := by
  have hbody : Built r [.keyword p.keyword] Rule.primitiveType.body _ :=
    .oneOf _ (by rw [Word.kind_keyword]; cases p <;> decide)
  refine hbody.image.rule.imp ?_
  rintro _ ⟨ds, rfl, -, himage⟩
  rw [map_singleton, join_singleton, text_keyword] at himage
  have hword : (Tree.node .primitiveType ds).image = p.word := by
    refine Eq.trans himage ?_
    cases p <;> rfl
  exact ⟨ds, rfl, by rw [Reader.primitive, hword, Primitive.ofWord?_word]; rfl⟩

theorem built_scalar (s : ScalarType) : Built r s.words [.rule .scalarType] fun cs =>
    ∃ ds, cs = [.node .scalarType ds] ∧ Reader.scalar (.node .scalarType ds) = s.draft := by
  cases s with
  | primitive p =>
    have hbody : Built r [.keyword p.keyword] Rule.scalarType.body _ :=
      .oneRuleOf (by decide) (built_primitive p)
    refine hbody.rule.imp ?_
    rintro _ ⟨_, rfl, ds, rfl, hp⟩
    refine ⟨_, rfl, ?_⟩
    rw [Reader.scalar]
    simp [Tree.find?, Tree.children, Tree.isNode, hp, ScalarType.draft]
  | named q =>
    have hbody : Built r q.words Rule.scalarType.body _ := .oneRuleOf (by decide) (built_path q)
    refine hbody.image.rule.imp ?_
    rintro _ ⟨_, rfl, ⟨ds, rfl, -⟩, himage⟩
    refine ⟨_, rfl, ?_⟩
    have htext : (Tree.node .scalarType [.node .qualifiedName ds]).image = q.text := himage
    rw [Reader.scalar, htext]
    simp [Tree.find?, Tree.children, Tree.isNode, ScalarType.draft, Path.draft]

theorem map_all_flatten {q : Rule} {xs : List Identifier} {css : List (List Tree)}
    (h : Forall₂ (fun x cs => ((Tree.node q cs).all .name).map Tree.image = [x.text]) xs css) :
    ((Tree.node q css.flatten).all .name).map Tree.image = xs.map Identifier.text := by
  induction h with
  | nil => rfl
  | cons hone _ ih => rw [flatten_cons, Tree.all_append, map_append, hone, ih]; rfl

theorem built_components (xs : List Identifier) :
    Built r (componentList xs) [.rule .componentList] fun cs =>
    ∃ ds, cs = [.node .componentList ds] ∧
      ((Tree.node .componentList ds).all .name).map Tree.image = xs.map Identifier.text := by
  have hlist : Built r (Word.listed (xs.map fun x => [.name x]))
      [.many .always [.rule .name, .optional [.token .comma]]] _ :=
    .listed (P := fun x cs => ((Tree.node .componentList cs).all .name).map Tree.image = [x.text])
      (fun x => by
        refine ((built_name x).append Built.skip).imp ?_
        rintro _ ⟨_, _, rfl, ⟨t, rfl, ⟨ds, rfl⟩, himage⟩, rfl⟩
        simp [himage])
      (fun x => by
        refine ((built_name x).append (Built.token Word.comma rfl).enter).imp ?_
        rintro _ ⟨_, _, rfl, ⟨t, rfl, ⟨ds, rfl⟩, himage⟩, c, rfl, -⟩
        simp [himage]) xs
  refine (Built.rule (q := .componentList) (Built.braced hlist)).imp ?_
  rintro _ ⟨_, rfl, a, b, _, rfl, css, rfl, hall⟩
  exact ⟨_, rfl, by simpa using map_all_flatten hall⟩

theorem reads_values {c : Tree} (h : t.find? .valueList = some c)
    (hc : Reads (fun t => (t.all .value).mapM r.value) (List.map (RawValue.bare fun _ => 0))
      (vs.map Value.draft) c) :
    Reads r.values (List.map (RawValue.bare fun _ => 0)) (vs.map Value.draft) t := by
  rw [Reads, Reader.values, h]
  exact hc

/-- What the reader makes of a type that is written in place. -/
theorem reads_inline
    (h : Reads r.values (List.map (RawValue.bare fun _ => 0)) (vs.map Value.draft) t) :
    ((do return .inline kind (← r.values t) : Except Fault Draft.ElementType).map
      (ElementType.bare fun _ => 0)) = .ok (ElementType.inline kind vs).draft := by
  exact map_return h (Draft.ElementType.inline kind) fun _ => rfl

theorem built_inlineOptions (vs : List Value) :
    Built r (.keyword .options :: Value.list vs) [.rule .elementType] fun cs =>
      ∃ ds, cs = [.node .elementType ds] ∧ Reads r.element (Draft.ElementType.bare fun _ => 0)
        (ElementType.inline .flags vs).draft (.node .elementType ds) := by
  have hbody : Built r (.keyword .options :: Value.list vs) Rule.inlineOptions.body _ :=
    (Built.token _ (Word.kind_keyword .options)).append (built_values vs)
  have helement : Built r (.keyword .options :: Value.list vs) Rule.elementType.body _ :=
    .choose (a := [.rule .inlineOptions]) (by simp) hbody.rule
  refine helement.rule.imp ?_
  rintro _ ⟨_, rfl, _, rfl, _, _, rfl, ⟨a, rfl, -⟩, ds, rfl, hvalues⟩
  exact ⟨_, rfl, reads_inline (reads_values (by simp) hvalues)⟩

theorem built_inlineEnum {k : Keyword}
    (hkind : (k = .enum ∧ kind = .closed) ∨ (k = .openEnum ∧ kind = .extensible))
    (vs : List Value) :
    Built r (.keyword k :: Value.list vs) [.rule .elementType] fun cs =>
      ∃ ds, cs = [.node .elementType ds] ∧ Reads r.element (Draft.ElementType.bare fun _ => 0)
        (ElementType.inline kind vs).draft (.node .elementType ds) := by
  have hmem : (Word.keyword k).kind ∈ [Kind.keyword .enum, Kind.keyword .openEnum] := by
    rw [Word.kind_keyword]
    rcases hkind with ⟨rfl, -⟩ | ⟨rfl, -⟩ <;> decide
  have hbody : Built r (.keyword k :: Value.list vs) Rule.inlineEnum.body _ :=
    (Built.oneOf _ hmem).append ((built_values vs).oneRuleOf (by decide))
  have helement : Built r (.keyword k :: Value.list vs) Rule.elementType.body _ :=
    .choose (a := [.rule .inlineEnum]) (by simp) hbody.rule
  refine helement.rule.imp ?_
  rintro _ ⟨_, rfl, _, rfl, _, _, rfl, ⟨a, rfl, ha, -⟩, ds, rfl, hvalues⟩
  refine ⟨_, rfl, ?_⟩
  rw [Word.kind_keyword] at ha
  have hread : (Tree.node .inlineEnum ([.leaf a] ++ [.node .valueList ds])).find? .qualifiedName =
      none := by
    simp
  have henumKind : Reader.enumKind (.node .inlineEnum ([.leaf a] ++ [.node .valueList ds])) =
      kind := by
    rcases hkind with ⟨rfl, rfl⟩ | ⟨rfl, rfl⟩ <;> simp [Reader.enumKind, Tree.hasLeaf, ha]
  rw [Reads, Reader.element]
  simp only [hread, henumKind]
  exact reads_inline (reads_values (by simp) hvalues)

theorem built_scalarElement (s : ScalarType) : Built r s.words [.rule .elementType] fun cs =>
    ∃ ds, cs = [.node .elementType ds] ∧ Reads r.element (ElementType.bare fun _ => 0)
      (ElementType.scalar s).draft (.node .elementType ds) := by
  have helement : Built r (s.words ++ []) Rule.elementType.body _ :=
    .choose (a := [.rule .scalarType, .optional [.rule .componentList]]) (by simp)
      ((built_scalar s).append .skip)
  rw [append_nil] at helement
  refine helement.rule.imp ?_
  rintro _ ⟨_, rfl, _, _, rfl, ⟨ds, rfl, hscalar⟩, rfl⟩
  refine ⟨_, rfl, ?_⟩
  simp [Reads, Reader.element, hscalar, Except.map, ElementType.bare, ElementType.draft]

theorem built_compoundElement (base : ScalarType) (xs : List Identifier) :
    Built r (base.words ++ componentList xs) [.rule .elementType] fun cs =>
      ∃ ds, cs = [.node .elementType ds] ∧ Reads r.element (ElementType.bare fun _ => 0)
        (ElementType.compound base xs).draft (.node .elementType ds) := by
  have helement : Built r (base.words ++ componentList xs) Rule.elementType.body _ :=
    .choose (a := [.rule .scalarType, .optional [.rule .componentList]]) (by simp)
      ((built_scalar base).append (built_components xs).enter)
  refine helement.rule.imp ?_
  rintro _ ⟨_, rfl, _, _, rfl, ⟨ds, rfl, hscalar⟩, es, rfl, hcomponents⟩
  refine ⟨_, rfl, ?_⟩
  simp [Reads, Reader.element, Reader.components, hscalar, hcomponents, Except.map,
    ElementType.bare, ElementType.draft]

theorem built_element (e : ElementType) : Built r e.words [.rule .elementType] fun cs =>
    ∃ ds, cs = [.node .elementType ds] ∧ Reads r.element (ElementType.bare fun _ => 0) e.draft
      (.node .elementType ds) := by
  cases e with
  | scalar s => exact built_scalarElement s
  | compound base xs => exact built_compoundElement base xs
  | inline kind vs =>
    cases kind with
    | closed => exact built_inlineEnum (.inl ⟨rfl, rfl⟩) vs
    | extensible => exact built_inlineEnum (.inr ⟨rfl, rfl⟩) vs
    | flags => exact built_inlineOptions vs

theorem built_type (ty : FieldType) : Built r ty.words [.rule .type] fun cs =>
    ∃ ds, cs = [.node .type ds] ∧ Reads r.fieldType (FieldType.bare fun _ => 0) ty.draft
      (.node .type ds) := by
  induction ty with
  | element e =>
    have hbody : Built r (e.words ++ []) Rule.type.body _ :=
      .choose (a := [.rule .elementType, .optional [.token .leftBracket, .token .rightBracket]])
        (by simp) ((built_element e).append .skip)
    rw [append_nil] at hbody
    refine hbody.rule.imp ?_
    rintro _ ⟨_, rfl, _, _, rfl, ⟨ds, rfl, hread⟩, rfl⟩
    refine ⟨_, rfl, ?_⟩
    rw [Reads]
    exact map_return hread Draft.FieldType.element fun _ => rfl
  | array e =>
    have hbody : Built r (FieldType.array e).words Rule.type.body _ :=
      .choose (a := [.rule .elementType, .optional [.token .leftBracket, .token .rightBracket]])
        (by simp)
        ((built_element e).append
        (.enter ((Built.token (k := .leftBracket) (.mark '[' .leftBracket rfl) rfl).append
          (.token (k := .rightBracket) (.mark ']' .rightBracket rfl) rfl))))
    refine hbody.rule.imp ?_
    rintro _ ⟨_, rfl, _, _, rfl, ⟨ds, rfl, hread⟩, _, _, rfl, ⟨a, rfl, -⟩, b, rfl, -⟩
    refine ⟨_, rfl, ?_⟩
    rw [Reads]
    exact map_return hread Draft.FieldType.array fun _ => rfl
  | map key value ih =>
    have hmap : Built r (FieldType.map key value).words Rule.mapType.body _ :=
      (((((Built.token (.keyword .map) (Word.kind_keyword .map)).append
        (.token (k := .leftAngle) (.mark '<' .leftAngle rfl) rfl)).append (built_scalar key)).append
          (.token (k := .comma) .comma rfl)).append ih).append
            (.token (k := .rightAngle) (.mark '>' .rightAngle rfl) rfl)
    have hbody : Built r (FieldType.map key value).words Rule.type.body _ :=
      .choose (a := [.rule .mapType]) (by simp) hmap.rule
    refine hbody.rule.imp ?_
    rintro _ ⟨_, rfl, _, rfl, _, _, rfl,
      ⟨_, _, rfl, ⟨_, _, rfl, ⟨_, _, rfl, ⟨_, _, rfl, ⟨a, rfl, -⟩, b, rfl, -⟩, ds, rfl, hkey⟩, c,
      rfl, -⟩, es, rfl, hvalue⟩, d, rfl, -⟩
    refine ⟨_, rfl, ?_⟩
    rw [Reads]
    refine map_return hvalue (Draft.FieldType.map key.draft) fun _ => ?_
    rw [FieldType.bare, hkey]

/-! ## Fields -/

theorem built_modifiers (xs : List PlainIdentifier) :
    Built r (xs.map fun x => .name x.toIdentifier) [.many .notBeforeColon [.token .identifier]]
      fun cs =>
      ∃ ts : List Token, cs = ts.map .leaf ∧ ts.filter (·.kind = .identifier) = ts ∧
        ts.map (·.image) = xs.map fun x => x.text := by
  have hmany := Built.flatMap (r := r) (g := .notBeforeColon) (by decide)
    fun x (_ : x ∈ xs) => Built.token _ (kind_plain x)
  rw [map_eq_flatMap]
  refine hmany.imp ?_
  clear hmany
  rintro _ ⟨css, rfl, hall⟩
  induction hall with
  | nil => exact ⟨[], rfl, rfl, rfl⟩
  | cons hone _ ih =>
    obtain ⟨t, rfl, hkind, himage⟩ := hone
    obtain ⟨ts, hts, hfilter, himages⟩ := ih
    refine ⟨t :: ts, by rw [flatten_cons, hts]; rfl, ?_, ?_⟩
    · rw [filter_cons_of_pos (by simp [hkind]), hfilter]
    · rw [map_cons, map_cons, himage, himages]
      rfl

theorem kind_literal (x : Literal) : x.word.kind ∈ [Kind.text, .number, .identifier] := by
  cases x with
  | text q => exact mem_cons_self
  | number n => exact mem_cons_of_mem _ mem_cons_self
  | name x => rw [Literal.word, kind_plain]; decide

/-- No atom of a default starts with a semicolon. -/
theorem releases_semicolon {s : Token} (hs : s.kind = .semicolon) (b : Option Token)
    (rest : List Token) : Guard.sameLine.Releases [.rule .defaultAtom] b (s :: rest) := by
  intro cs after hcs heq
  have hmem := hcs.nextKind_mem (by decide) after
  have hnext : nextKind (s :: rest) = some .semicolon := congrArg some hs
  rw [← heq, hnext, mem_nextKinds_of_isFirm rfl] at hmem
  obtain ⟨k, hk, hfirst⟩ := hmem
  cases hk
  exact absurd hfirst (by decide)

theorem parses_default {e x s : Token} (he : e.kind = .equals)
    (hx : x.kind ∈ [Kind.text, .number, .identifier]) (hs : s.kind = .semicolon)
    (hline : x.first.line = e.last.line) (b : Option Token) (rest : List Token) :
    Parses b [.optional [.token .equals, .rule .default], .optional [.token .semicolon]]
      [.leaf e, .node .default [.node .defaultAtom [.leaf x]], .leaf s] rest := by
  have hatom : ∀ b rest, Parses b Rule.defaultAtom.body [.leaf x] rest := fun b rest =>
    .choose (a := [.token x.kind]) (by revert hx; simp; rintro (h | h | h) <;> simp [h])
      (.token rfl .nil)
  have hdefault : Parses (some e) Rule.default.body [.node .defaultAtom [.leaf x]] (s :: rest) :=
    .first ⟨e, x, rfl, rfl, hline⟩ (.rule (hatom _ _) (.stop (releases_semicolon hs _ rest) .nil))
  exact .enter (.token he (.rule hdefault (.enter (.token hs .nil))))

/-- A default, or none, before the end of a field. -/
def EndsWith (r : Reader) (d : Option Literal) (cs : List Tree) : Prop :=
  ((Tree.node .field cs).find? .default).map r.textOf = d.map (fun x => x.word.text) ∧
    (Tree.node .field cs).leaves .identifier = []

theorem built_default (d : Option Literal) :
    Built r (Field.defaultWords d ++ [Word.semicolon.last (by decide)])
    [.optional [.token .equals, .rule .default], .optional [.token .semicolon]] (EndsWith r d) := by
  cases d with
  | none =>
    refine (Built.skip.append
      (Built.token (k := .semicolon) (Word.semicolon.last (by decide)) rfl).enter).imp ?_
    rintro _ ⟨_, _, rfl, rfl, s, rfl, hs, -⟩
    simp [EndsWith, hs]
  | some x =>
    intro ts hts
    have hparts : r.Spells ([.equals] ++ ([x.word] ++ [Word.semicolon.last (by decide)])) ts := hts
    obtain ⟨_, _, rfl, he, hrest⟩ := hparts.append
    obtain ⟨_, _, rfl, hx, hs⟩ := hrest.append
    obtain ⟨e, rfl, he, -⟩ := he.singleton
    obtain ⟨y, rfl, hy, -, htext⟩ := hx.singleton
    obtain ⟨s, rfl, hs, -⟩ := hs.singleton
    have hline : y.first.line = e.last.line := (isChain_cons_cons.1 hts.joined).1 he
    refine ⟨_, ?_, fun b rest => parses_default he (hy ▸ kind_literal x) hs hline b rest, ?_⟩
    · simp [tokensOfAll, Tree.tokens]
    · have hdefault : r.textOf (.node .default [.node .defaultAtom [.leaf y]]) =
        x.word.text := htext
      have hs' : s.kind = .semicolon := hs
      have he' : e.kind = .equals := he
      simp [EndsWith, hdefault, hs', he']

theorem built_field (f : Field) : Built r f.words [.rule .field] fun cs =>
    ∃ t, cs = [t] ∧ t.isNode .field = true ∧
      ∀ home, Reads (r.field home) (Field.bare fun _ => 0) (f.draft r.source.file home) t := by
  have hbody : Built r _ Rule.field.body _ :=
    (((built_modifiers f.modifiers).append
    ((built_name f.name).append (.token (k := .colon) .colon rfl))).append
    (built_type f.type)).append (built_default f.default)
  rw [Field.words, append_assoc _ (Field.defaultWords f.default)]
  refine hbody.rule.imp ?_
  rintro _ ⟨_, rfl, _, cs, rfl,
    ⟨_, _, rfl,
    ⟨_, _, rfl, ⟨ts, rfl, hidentifiers, hmodifiers⟩, _, _, rfl, ⟨_, rfl, ⟨ds, rfl⟩, hname⟩, c, rfl,
    hc, -⟩, es, rfl, htype⟩, hdefault, hleaves⟩
  obtain ⟨ty, hty, heq⟩ := exists_of_map_eq_ok htype
  refine ⟨_, rfl, rfl, fun home => ?_⟩
  rw [Reads, Reader.field]
  simp [Reader.nameOf, bind, Except.bind, pure, Except.pure, Except.map, Field.bare, Origin.bare,
    Reader.originOf, Field.draft, *]

/-! ## Declarations -/

theorem built_parent (q : Option Path) :
    Built r (parentWords q) [.optional [.token .colon, .rule .qualifiedName]] fun cs =>
      (q = none ∧ cs = []) ∨ ∃ x c ds, q = some x ∧ cs = [.leaf c, .node .qualifiedName ds] ∧
        c.kind = .colon ∧
        (Tree.node .qualifiedName ds).image = x.text := by
  cases q with
  | none => exact Built.skip.imp fun _ h => .inl ⟨rfl, h⟩
  | some x =>
    refine ((Built.token (k := .colon) .colon rfl).append (built_path x)).enter.imp ?_
    rintro _ ⟨_, _, rfl, ⟨c, rfl, hc, -⟩, ds, rfl, himage⟩
    exact .inr ⟨x, c, ds, rfl, rfl, hc, himage⟩

theorem built_message (m : Message) : Built r m.words [.rule .messageBlock] fun cs =>
    ∃ ds, cs = [.node .messageBlock ds] ∧ ∀ home, Reads (r.message home) (Message.bare fun _ => 0)
      (m.draft r.source.file home) (.node .messageBlock ds) := by
  have hfields :=
    Built.flatMap (r := r) (g := .always) (by decide) fun f (_ : f ∈ m.fields) => built_field f
  have hbody : Built r m.words Rule.messageBlock.body _ :=
    (((((Built.token (.keyword .message) (Word.kind_keyword .message)).append
      (built_name m.name)).append (built_parent m.parent)).append
      (.token (k := .leftBrace) ((Word.mark '{' .leftBrace rfl).last (by decide)) rfl)).append
      hfields).append (.token (k := .rightBrace) (.mark '}' .rightBrace rfl) rfl)
  refine hbody.rule.imp ?_
  rintro _ ⟨_, rfl, _, _, rfl,
    ⟨_, _, rfl,
    ⟨_, _, rfl, ⟨_, _, rfl, ⟨_, _, rfl, ⟨a, rfl, -⟩, _, rfl, ⟨ds, rfl⟩, hname⟩, hparent⟩, b, rfl,
    -⟩, css, rfl, hall⟩, c, rfl, -⟩
  have hts := forall₂_flatten hall
  refine ⟨_, rfl, fun home => ?_⟩
  obtain ⟨fields, hread, heq⟩ := exists_of_map_eq_ok (reads_mapM (hts.imp fun _ _ h => h.2 home))
  rw [Reads, Reader.message]
  rcases hparent with ⟨hnone, rfl⟩ | ⟨x, c', es, hsome, rfl, -, himage⟩
  · simp [Reader.nameOf, bind, Except.bind, pure, Except.pure, Except.map, Message.bare,
      Origin.bare, Reader.originOf, Message.draft, Tree.find?_append, find?_of_isNode hts,
      all_of_isNode hts, Reader.typeName?, *]
  · simp [Reader.nameOf, bind, Except.bind, pure, Except.pure, Except.map, Message.bare,
      Origin.bare, Reader.originOf, Message.draft, all_of_isNode hts, Reader.typeName?,
      Path.draft, *]

/-- Values are numbered as the schema says. -/
theorem numberFrom_eq (kind : EnumKind) (file home : String) {raws : List RawValue}
    (h : raws.map (RawValue.bare fun _ => 0) = vs.map Value.draft) {previous : Option Int}
    (hrange : ∀ n ∈ Value.numbers kind previous vs, EnumKind.inRange n = true) :
    (numberFrom kind file home previous raws).map (List.map (EnumValue.bare fun _ => 0)) =
      .ok (List.zipWith (Value.numbered file home) vs (Value.numbers kind previous vs)) := by
  induction vs generalizing raws previous with
  | nil =>
    obtain rfl := map_eq_nil_iff.1 h
    rfl
  | cons v vs ih =>
    obtain ⟨x, rest, rfl, hx, hrest⟩ := map_eq_cons_iff.1 h
    have hname : x.name = v.name.text := congrArg RawValue.name hx
    have hnumber : x.number = v.number.map (·.1) := congrArg RawValue.number hx
    rw [Value.numbers] at hrange ⊢
    obtain ⟨hn, hrange⟩ := forall_mem_cons.1 hrange
    obtain ⟨ns, hns, heq⟩ := exists_of_map_eq_ok (ih hrest hrange)
    simp only [numberFrom, hnumber, hn, if_true, hns, bind, Except.bind, pure, Except.pure,
      Except.map, map_cons, heq, zipWith_cons_cons, EnumValue.bare, Origin.bare, hname,
      Value.numbered, Option.isSome_map]

theorem reads_enumeration {home : String} {x : Identifier} {q : Option Path} {vs : Values kind}
    (hname : Reader.nameOf t = x.text)
    (hparent : Reader.typeName? (t.find? .qualifiedName) = q.map Path.draft)
    (hvalues : Reads r.values (List.map (RawValue.bare fun _ => 0)) (vs.values.map Value.draft) t) :
    Reads (r.enumeration home kind) (Enumeration.bare fun _ => 0)
      ⟨x.text, q.map Path.draft, kind, vs.draft r.source.file home,
        ⟨.none, r.source.file, 0, home⟩⟩ t := by
  obtain ⟨raws, hraws, heq⟩ := exists_of_map_eq_ok hvalues
  obtain ⟨values, hnumber, heq⟩ :=
    exists_of_map_eq_ok (numberFrom_eq kind r.source.file home heq vs.inRange)
  have hnumber' : number kind r.source.file home raws = .ok values := hnumber
  rw [Reads, Reader.enumeration, hraws]
  simp [bind, Except.bind, pure, Except.pure, Except.map, hnumber', Enumeration.bare, heq, hname,
    hparent, Values.draft, Origin.bare, Reader.originOf]

theorem built_enumeration (e : Enumeration) : Built r e.words [.rule .enumBlock] fun cs =>
    ∃ ds, cs = [.node .enumBlock ds] ∧
      ∀ home, Reads (fun t => r.enumeration home (Reader.enumKind t) t)
      (Enumeration.bare fun _ => 0) (e.draft r.source.file home) (.node .enumBlock ds) := by
  have hmem : (Word.keyword (keywordOf e.kind)).kind ∈
      [Kind.keyword .enum, Kind.keyword .openEnum] := by
    rw [Word.kind_keyword, Enumeration.kind]
    cases e.isOpen <;> decide
  have hbody : Built r e.words Rule.enumBlock.body _ :=
    (((Built.oneOf _ hmem).append (built_name e.name)).append (built_parent e.parent)).append
      (built_values e.values.values)
  refine hbody.rule.imp ?_
  rintro _ ⟨_, rfl, _, _, rfl, ⟨_, cs, rfl, ⟨_, _, rfl, ⟨a, rfl, ha, -⟩, _, rfl, ⟨ds, rfl⟩, hname⟩,
    hparent⟩, es, rfl, hvalues⟩
  refine ⟨_, rfl, fun home => ?_⟩
  have hkind :
      Reader.enumKind
      (.node .enumBlock ((([.leaf a] ++ [.node .name ds]) ++ cs) ++ [.node .valueList es])) =
      e.kind := by
    have hopen : a.kind = .keyword .openEnum ↔ e.isOpen = true := by
      rw [ha, Word.kind_keyword, Enumeration.kind]
      cases e.isOpen <;> simp [keywordOf]
    rw [Enumeration.kind]
    rcases hparent with ⟨-, rfl⟩ | ⟨x, c, gs, -, rfl, hc, -⟩
    · cases hisOpen : e.isOpen <;> simp [Reader.enumKind, Tree.hasLeaf, hopen, hisOpen]
    · cases hisOpen : e.isOpen <;> simp [Reader.enumKind, Tree.hasLeaf, hopen, hisOpen, hc]
  rw [Reads]
  simp only [hkind]
  refine reads_enumeration (by simp [Reader.nameOf, hname]) ?_ (reads_values ?_ hvalues)
  · rcases hparent with ⟨hnone, rfl⟩ | ⟨x, c, gs, hsome, rfl, -, himage⟩
    · simp [Reader.typeName?, hnone]
    · simp [Reader.typeName?, hsome, himage, Path.draft]
  · rcases hparent with ⟨-, rfl⟩ | ⟨x, c, gs, -, rfl, -, -⟩ <;> simp

theorem built_options (o : Options) : Built r o.words [.rule .optionsBlock] fun cs =>
    ∃ ds, cs = [.node .optionsBlock ds] ∧ ∀ home, Reads (r.enumeration home .flags)
      (Enumeration.bare fun _ => 0) (o.draft r.source.file home) (.node .optionsBlock ds) := by
  have hbody : Built r o.words Rule.optionsBlock.body _ :=
    ((Built.token _ (Word.kind_keyword .options)).append (built_name o.name)).append
      (built_values o.values.values)
  refine hbody.rule.imp ?_
  rintro _ ⟨_, rfl, _, _, rfl, ⟨_, _, rfl, ⟨a, rfl, -⟩, _, rfl, ⟨ds, rfl⟩, hname⟩, es, rfl, hvalues⟩
  exact ⟨_, rfl, fun home => reads_enumeration (q := none) (by simp [Reader.nameOf, hname])
    (by simp [Reader.typeName?]) (reads_values (by simp) hvalues)⟩

theorem built_compound (c : Compound) : Built r c.words [.rule .compoundBlock] fun cs =>
    ∃ ds, cs = [.node .compoundBlock ds] ∧ ∀ home,
      (r.compound home (.node .compoundBlock ds)).bare (fun _ => 0) =
        c.draft r.source.file home := by
  have hbody : Built r c.words Rule.compoundBlock.body _ :=
    ((built_primitive c.base).append (built_name c.name)).append (built_components c.components)
  refine hbody.rule.imp ?_
  rintro _ ⟨_, rfl, _, _, rfl, ⟨_, _, rfl, ⟨ds, rfl, hbase⟩, _, rfl, ⟨es, rfl⟩, hname⟩, gs,
    rfl, hcomponents⟩
  refine ⟨_, rfl, fun home => ?_⟩
  simp [Reader.compound, Reader.nameOf, Reader.components, Reader.originOf, Compound.bare,
    Origin.bare, Compound.draft, *]

/-! ## Declarations in namespaces -/

open Draft.Reader (Place Contribution)

/-- A tree that contributes what a declaration says, wherever it stands. -/
def Contributes (r : Reader) (d : Declaration) (t : Tree) : Prop :=
  ∀ p, Reads (r.contribution p) (Contribution.bare fun _ => 0) (d.draft r.source.file p) t

variable {q : Rule} {ds : List Declaration}

theorem empty_append (s : Scope) : {} ++ s = s := rfl

theorem append_empty (s : Scope) : s ++ {} = s := by
  show Scope.append s {} = s
  simp [Scope.append]

theorem built_contributes {d : Declaration} {ws : List Word}
    (hq : q ∈ [Rule.namespaceBlock, .messageBlock, .enumBlock, .optionsBlock, .compoundBlock])
    (h : Built r ws [.rule q] fun cs => ∃ ds, cs = [.node q ds] ∧ Contributes r d (.node q ds)) :
    Built r ws [.rule .declaration] fun cs => ∃ t, cs = [t] ∧ t.isNode .declaration = true ∧
      Contributes r d t := by
  have hbody : Built r ws Rule.declaration.body _ := h.oneRuleOf hq
  refine hbody.rule.imp ?_
  rintro _ ⟨_, rfl, ds, rfl, hread⟩
  refine ⟨_, rfl, rfl, fun p => ?_⟩
  obtain ⟨one, hone, heq⟩ := exists_of_map_eq_ok (hread p)
  rw [Reads, Reader.contribution, Reader.contributions, hone]
  simp [Reader.contributions, bind, Except.bind, pure, Except.pure, Except.map, append_empty, heq]

theorem contribution_leaf (t : Token) (p : Place) : r.contribution p (.leaf t) = .ok {} := by
  simp [Reader.contribution]

/-- Trees that contribute nothing may be left out. -/
theorem contributions_eq
    (h : ∀ t ∈ ts, t.isNode .declaration = true ∨ ∀ p, r.contribution p t = .ok {}) (p : Place) :
    r.contributions p ts = r.contributions p ((Tree.node q ts).all .declaration) := by
  induction ts generalizing p with
  | nil => rfl
  | cons t ts ih =>
    obtain ⟨ht, hts⟩ := forall_mem_cons.1 h
    rw [Tree.all_cons]
    by_cases hnode : t.isNode .declaration = true
    · rw [if_pos hnode, Reader.contributions, Reader.contributions]
      simp only [ih hts]
    · have hempty := (ht.resolve_left hnode) p
      rw [if_neg hnode, Reader.contributions, hempty, ← ih hts]
      simp only [bind, Except.bind, pure, Except.pure, empty_append, nil_append,
        length_nil, Nat.add_zero]
      cases r.contributions p ts <;> rfl

theorem contributions_of_forall₂
    (h : Forall₂ (fun d t => t.isNode .declaration = true ∧ Contributes r d t) ds ts) (p : Place) :
    (r.contributions p ts).map (Contribution.bare fun _ => 0) =
      .ok (Declaration.draftOfAll r.source.file p ds) := by
  induction h generalizing p with
  | nil => rfl
  | @cons d t ds ts hone _ ih =>
    obtain ⟨one, hread, heq⟩ := exists_of_map_eq_ok (hone.2 p)
    have hlength : (d.draft r.source.file p).arena.length = one.arena.length := by
      rw [← heq]
      exact length_map _
    obtain ⟨rest, hrest, heq'⟩ :=
      exists_of_map_eq_ok (ih { p with free := p.free + one.arena.length })
    rw [Reader.contributions, hread, Declaration.draftOfAll, hlength, ← heq, ← heq']
    simp [bind, Except.bind, pure, Except.pure, Except.map, hrest, Contribution.bare,
      Scope.bare_append]

theorem wordsOfAll_eq (ds : List Declaration) :
    Declaration.wordsOfAll ds = ds.flatMap Declaration.words := by
  induction ds with
  | nil => rw [Declaration.wordsOfAll, flatMap_nil]
  | cons d ds ih => rw [Declaration.wordsOfAll, ih, flatMap_cons]

theorem built_namespaceBlock (x : Identifier)
    (h : ∀ d ∈ ds, Built r d.words [.rule .declaration] fun cs =>
      ∃ t, cs = [t] ∧ t.isNode .declaration = true ∧ Contributes r d t) :
    Built r (Declaration.namespaceBlock x ds).words [.rule .namespaceBlock] fun cs =>
      ∃ es, cs = [.node .namespaceBlock es] ∧
        Contributes r (.namespaceBlock x ds) (.node .namespaceBlock es) := by
  have hbody : Built r _ Rule.namespaceBlock.body _ :=
    ((Built.token _ (Word.kind_keyword .namespace_)).append (built_name x)).append
      (Built.braced (Built.flatMap (by decide) h))
  rw [Declaration.words, wordsOfAll_eq]
  refine hbody.rule.imp ?_
  rintro _ ⟨_, rfl, _, _, rfl, ⟨_, _, rfl, ⟨a, rfl, -⟩, _, rfl, ⟨es, rfl⟩, hname⟩, b, c, _, rfl,
    css, rfl, hall⟩
  have hts := forall₂_flatten hall
  refine ⟨_, rfl, fun p => ?_⟩
  have hinner := contributions_of_forall₂ hts ⟨x.text, some p.free, p.free + 1⟩
  generalize css.flatten = ts at hts hinner
  have hsilent : ∀ t ∈ ([.leaf a] ++ [.node .name es]) ++ .leaf b :: (ts ++ [.leaf c]),
      t.isNode .declaration = true ∨ ∀ p, r.contribution p t = .ok {} := by
    intro t ht
    simp only [cons_append, nil_append, mem_cons, mem_append, not_mem_nil, or_false] at ht
    rcases ht with rfl | rfl | rfl | ht | rfl
    · exact .inr (contribution_leaf a)
    · exact .inr fun p => by simp [Reader.contribution]
    · exact .inr (contribution_leaf b)
    · exact .inl (isNode_of_mem hts ht)
    · exact .inr (contribution_leaf c)
  have hall :
      (Tree.node .namespaceBlock
      (([.leaf a] ++ [.node .name es]) ++ .leaf b :: (ts ++ [.leaf c]))).all .declaration = ts := by
    simp [all_of_isNode hts]
  rw [← hall, ← contributions_eq hsilent] at hinner
  obtain ⟨inner, hread, heq⟩ := exists_of_map_eq_ok hinner
  have hnameOf : Reader.nameOf (.node .namespaceBlock
      (([.leaf a] ++ [.node .name es]) ++ .leaf b :: (ts ++ [.leaf c]))) = x.text := by
    simp [Reader.nameOf, hname]
  rw [Reads, Reader.contribution, hnameOf, hread, Declaration.draft, ← heq]
  rfl

mutual

/-- **A declaration is derived as what it says**, wherever it stands. -/
theorem built_declaration : (d : Declaration) → Built r d.words [.rule .declaration] fun cs =>
    ∃ t, cs = [t] ∧ t.isNode .declaration = true ∧ Contributes r d t
  | .namespaceBlock x ds =>
    built_contributes (by decide) (built_namespaceBlock x (built_declarations ds))
  | .message m => by
    refine built_contributes (q := .messageBlock) (by decide) ((built_message m).imp ?_)
    rintro _ ⟨ds, rfl, hread⟩
    refine ⟨ds, rfl, fun p => ?_⟩
    rw [Reads, Reader.contribution]
    exact map_return (hread p.home) (fun x => (⟨{ messages := [x] }, []⟩ : Contribution))
      fun _ => rfl
  | .enumeration e => by
    refine built_contributes (q := .enumBlock) (by decide) ((built_enumeration e).imp ?_)
    rintro _ ⟨ds, rfl, hread⟩
    refine ⟨ds, rfl, fun p => ?_⟩
    rw [Reads, Reader.contribution]
    exact map_return (hread p.home) (fun x => (⟨{ enums := [x] }, []⟩ : Contribution)) fun _ => rfl
  | .options o => by
    refine built_contributes (q := .optionsBlock) (by decide) ((built_options o).imp ?_)
    rintro _ ⟨ds, rfl, hread⟩
    refine ⟨ds, rfl, fun p => ?_⟩
    rw [Reads, Reader.contribution]
    exact map_return (hread p.home) (fun x => (⟨{ options := [x] }, []⟩ : Contribution))
      fun _ => rfl
  | .compound c => by
    refine built_contributes (q := .compoundBlock) (by decide) ((built_compound c).imp ?_)
    rintro _ ⟨ds, rfl, hread⟩
    refine ⟨ds, rfl, fun p => ?_⟩
    rw [Reads, Reader.contribution, Declaration.draft, ← hread p.home]
    rfl

theorem built_declarations :
    (ds : List Declaration) → ∀ d ∈ ds, Built r d.words [.rule .declaration] fun cs =>
    ∃ t, cs = [t] ∧ t.isNode .declaration = true ∧ Contributes r d t
  | [] => by simp
  | d :: ds => forall_mem_cons.2 ⟨built_declaration d, built_declarations ds⟩

end

/-! ## Whole texts -/

theorem built_local (x : Option Identifier) :
    Built r (Import.localWords x) [.optional [.token (.keyword .as_), .rule .name]] fun cs =>
      ((Tree.node .importLine cs).find? .name).map Tree.image = x.map Identifier.text := by
  cases x with
  | none =>
    refine Built.skip.imp ?_
    rintro _ rfl
    rfl
  | some x =>
    refine ((Built.token (.keyword .as_) (Word.kind_keyword .as_)).append
      (built_name x)).enter.imp ?_
    rintro _ ⟨_, _, rfl, ⟨a, rfl, -⟩, _, rfl, ⟨ds, rfl⟩, himage⟩
    simp [himage]

theorem built_import (i : Import) : Built r i.words [.rule .importLine] fun cs =>
    ∃ t, cs = [t] ∧ t.isNode .importLine = true ∧
      (Reader.importLine t).bare (fun _ => 0) = i.draft := by
  have hbody : Built r (i.words ++ []) Rule.importLine.body _ :=
    (((Built.token _ (Word.kind_keyword .import_)).append
      (.token (k := .text) (.quoted i.path) rfl)).append (built_local i.localName)).append .skip
  rw [append_nil] at hbody
  refine hbody.rule.imp ?_
  rintro _ ⟨_, rfl, _, _, rfl,
    ⟨_, cs, rfl, ⟨_, _, rfl, ⟨a, rfl, ha, -⟩, t, rfl, ht, himage⟩, hlocal⟩, rfl⟩
  refine ⟨_, rfl, rfl, ?_⟩
  have hpath : t.image.toList.tail.dropLast = i.path.chars := by
    rw [himage, Word.text, Word.quoted]
    simp
  simp [Reader.importLine, ha, ht, hlocal, hpath, Import.bare, Import.draft]

/-- What comes of an entry of a schema. -/
def Enters (r : Reader) : Import ⊕ Declaration → Tree → Prop :=
  Sum.elim (fun i t => t.isNode .importLine = true ∧ (Reader.importLine t).bare (fun _ => 0) =
    i.draft) fun d t => t.isNode .declaration = true ∧ Contributes r d t

theorem built_entry (x : Import ⊕ Declaration) : Built r (Sum.elim Import.words Declaration.words x)
    [Rule.oneRuleOf [.importLine, .declaration]] fun cs => ∃ t, cs = [t] ∧ Enters r x t := by
  cases x with
  | inl i => exact (built_import i).oneRuleOf (by decide)
  | inr d => exact (built_declaration d).oneRuleOf (by decide)

theorem isNode_inj {p q : Rule} (hp : t.isNode p = true) (hq : t.isNode q = true) : p = q := by
  cases t with
  | leaf => cases hp
  | node x cs =>
    obtain rfl : x = p := by simpa using hp
    simpa using hq

/-- The trees of the declarations and of the imports of a schema. -/
theorem Enters.split {xs : List (Import ⊕ Declaration)} (h : Forall₂ (Enters r) xs ts) :
    Forall₂ (fun d t => t.isNode .declaration = true ∧ Contributes r d t)
      (xs.filterMap Sum.getRight?)
        ((Tree.node .file ts).all .declaration) ∧
      Forall₂ (fun i t => (Reader.importLine t).bare (fun _ => 0) = Import.draft i)
        (xs.filterMap Sum.getLeft?) ((Tree.node .file ts).all .importLine) ∧
      ∀ t ∈ ts, t.isNode .declaration = true ∨ t.isNode .importLine = true := by
  induction h with
  | nil => exact ⟨.nil, .nil, by simp⟩
  | @cons x t xs ts hone _ ih =>
    obtain ⟨hdeclarations, himports, hall⟩ := ih
    rw [Tree.all_cons, Tree.all_cons]
    cases x with
    | inl i =>
      obtain ⟨hnode, himport⟩ := hone
      have hother : t.isNode .declaration ≠ true := fun h => by cases isNode_inj h hnode
      rw [if_neg hother, if_pos hnode]
      exact ⟨hdeclarations, .cons himport himports, forall_mem_cons.2 ⟨.inr hnode, hall⟩⟩
    | inr d =>
      have hother : t.isNode .importLine ≠ true := fun h => by cases isNode_inj h hone.1
      rw [if_pos hone.1, if_neg hother]
      exact ⟨.cons hone hdeclarations, himports, forall_mem_cons.2 ⟨.inl hone.1, hall⟩⟩

/-- **The words of a schema are derived as a file**, and what the reader makes of it is
    the draft that the schema describes. -/
theorem built_file (s : Schema) : Built r s.words Rule.file.body fun cs =>
    (∀ p, (r.contributions p cs).map (Contribution.bare fun _ => 0) =
      .ok (Declaration.draftOfAll r.source.file p s.declarations)) ∧
    ((Tree.node .file cs).all .importLine).map (fun t => (Reader.importLine t).bare fun _ => 0) =
      s.imports.map Import.draft := by
  have hbody : Built r s.words Rule.file.body _ :=
    Built.flatMap (by decide) fun x (_ : x ∈ s.entries) => built_entry x
  refine hbody.imp ?_
  rintro _ ⟨css, rfl, hall⟩
  obtain ⟨hdeclarations, himports, hnodes⟩ := Enters.split (forall₂_flatten hall)
  refine ⟨fun p => ?_, ?_⟩
  · have hsilent : ∀ t ∈ css.flatten, t.isNode .declaration = true ∨
        ∀ p, r.contribution p t = .ok {} := by
      intro t ht
      refine (hnodes t ht).imp_right fun hnode p => ?_
      cases t with
      | leaf => cases hnode
      | node q cs =>
        obtain rfl : q = .importLine := by simpa using hnode
        simp [Reader.contribution]
    rw [contributions_eq (q := .file) hsilent]
    exact contributions_of_forall₂ hdeclarations p
  · have heq := forall₂_map_left_iff.2 (forall₂_map_right_iff.2 himports.flip)
    rwa [forall₂_eq_eq_eq] at heq

/-- A token is found in the text as it is. -/
theorem textOf_leaf {t : Token} (h : t ∈ (Scan.ofText r.source.text).tokens) :
    r.textOf (.leaf t) = t.image := by
  obtain ⟨piece, hmem, htoken⟩ := mem_filterMap.1 h
  have hlt := offset_lt_next (image_ne_nil hmem)
  obtain ⟨before, after, heq⟩ := append_of_mem hmem
  have hpieces : pieces r.source.text.toList = before ++ [piece] ++ after := by
    rw [heq, append_assoc, singleton_append]
  have hslice : Text.slice piece.first.offset piece.next.offset r.source.text.toList =
      piece.image := by
    have hlaid : Laid .origin (pieces r.source.text.toList) := laid_piecesFrom .origin _
    rw [hpieces] at hlaid
    rw [← flatMap_image_pieces r.source.text.toList, hpieces]
    exact (slice_of_laid hlaid rfl rfl).trans (flatMap_singleton _ piece)
  rw [Piece.token?] at htoken
  split at htoken
  · next k _ =>
    cases htoken
    have hnext : piece.next.offset - 1 + 1 = piece.next.offset :=
      Nat.sub_add_cancel (Nat.zero_lt_of_lt hlt)
    show String.ofList
      (Text.slice piece.first.offset (piece.next.offset - 1 + 1) r.source.text.toList) =
      String.ofList piece.image
    rw [hnext, hslice]
  · cases htoken

theorem spells_tokens (s : Schema) (h : r.source.text = s.text) :
    r.Spells s.words (Scan.ofText s.text).tokens := by
  obtain ⟨hwords, hjoined, -⟩ := tokens_layout s.words .origin
  have htokens : (Scan.ofText s.text).tokens =
      (piecesFrom .origin 0 (layout s.words)).filterMap Piece.token? := by
    rw [Scan.ofText, Schema.text, String.toList_ofList]
    rfl
  rw [htokens]
  refine ⟨hwords, hjoined, fun t ht => textOf_leaf ?_⟩
  rwa [h, htokens]

/-- The tree that the text of a schema is parsed to. -/
def tree (s : Schema) : Tree :=
  (Machine.parse .strict (Scan.ofText s.text).tokens).tree.getD (.node .file [])

/-- The text of a schema as the source of a file. -/
def source (s : Schema) (file : String) : Source :=
  ⟨file, s.text, (Scan.ofText s.text).tokens, (Scan.ofText s.text).comments, s.tree⟩

/-- The text of a schema is parsed, and what the reader makes of its tree is what the schema
    describes. -/
theorem exists_source (s : Schema) (file : String) :
    ∃ source, Source.read file s.text = .ok source ∧ source.file = file ∧ (∀ p,
      ((Reader.ofSource source).contributions p source.tree.children).map
        (Contribution.bare fun _ => 0) =
      .ok (Declaration.draftOfAll file p s.declarations)) ∧
      (source.tree.all .importLine).map (fun t => (Reader.importLine t).bare fun _ => 0) =
      s.imports.map Import.draft := by
  have hstrays : (Scan.ofText s.text).strays = [] := by
    rw [Scan.ofText, Schema.text, String.toList_ofList]
    exact strays_layout s.words .origin
  obtain ⟨cs, htokens, hparses, hread, himports⟩ :=
    built_file (r := .ofSource (s.source file)) s _ (spells_tokens s rfl)
  have hderivation : Derivation (Scan.ofText s.text).tokens (.node .file cs) :=
    ⟨cs, rfl, htokens, hparses none []⟩
  obtain ⟨hcomplaints, htree⟩ := hderivation.parse_eq
  have hparsed : (s.source file).tree = .node .file cs := by
    show s.tree = _
    rw [tree, htree, Option.getD_some]
  refine ⟨s.source file, ?_, rfl, fun p => ?_, ?_⟩
  · rw [Source.read, hstrays]
    simp [hcomplaints, htree, source, tree]
  · rw [hparsed]
    exact hread p
  · rw [hparsed]
    exact himports

/-- What the reader makes of a source is the draft that a schema describes. -/
theorem draft_of_source (s : Schema) {file : String} {source : Source} (hfile : source.file = file)
    (hread : ∀ p, ((Reader.ofSource source).contributions p source.tree.children).map
      (Contribution.bare fun _ => 0) = .ok (Declaration.draftOfAll file p s.declarations))
    (himports : (source.tree.all .importLine).map (fun t => (Reader.importLine t).bare fun _ => 0) =
      s.imports.map Import.draft)
    (stem : String) :
    ∃ d, ofSource stem source = .ok d ∧ d.bare (fun _ => 0) = s.draft file stem := by
  obtain ⟨all, hall, heq⟩ := exists_of_map_eq_ok (hread ⟨stem, none, 0⟩)
  refine ⟨⟨file, stem, all.scope, all.arena, (source.tree.all .importLine).map Reader.importLine,
    .empty⟩, ?_, ?_⟩
  · rw [ofSource, hall, hfile]
    rfl
  · simp only [bare, Schema.draft, map_map]
    exact congrArg₂ (fun (c : Contribution) is => Draft.mk file stem c.scope c.arena is .empty) heq
      himports

/-- **The text of a schema is read as the draft that the schema describes**, lines and
    notes apart. -/
theorem read_text (s : Schema) (file stem : String) :
    ∃ source d, Source.read file s.text = .ok source ∧ Draft.ofSource stem source = .ok d ∧
      d.bare (fun _ => 0) = s.draft file stem := by
  obtain ⟨source, hsource, hfile, hread, himports⟩ := s.exists_source file
  obtain ⟨d, hd, hbare⟩ := s.draft_of_source hfile hread himports stem
  exact ⟨source, d, hsource, hd, hbare⟩

end Schema

end MessageSchema
