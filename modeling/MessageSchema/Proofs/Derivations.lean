/-
  Trees that are derived from the grammar, and the images of their tokens.

  `Derives items ts` says that the trees `ts` are derived from `items`, read off
  the grammar with no regard to how the parser decides; a tree is *valid* if
  the children of every node are derived from the body of its rule.
-/
import MessageSchema.Parser.Source
import MessageSchema.Proofs.Names
import Mathlib.Data.List.TakeWhile

namespace MessageSchema

open List Option

/-- Trees derived from a sequence of items, the guards of repetitions apart. -/
inductive Derives : List Item → List Tree → Prop
  | nil : Derives [] []
  | token {k t is ts} : t.kind = k → Derives is ts → Derives (.token k :: is) (.leaf t :: ts)
  | rule {r cs is ts} : Derives is ts → Derives (.rule r :: is) (.node r cs :: ts)
  | skip {body is ts} : Derives is ts → Derives (.optional body :: is) ts
  | enter {body is ts} : Derives (body ++ is) ts → Derives (.optional body :: is) ts
  | stop {g body is ts} : Derives is ts → Derives (.many g body :: is) ts
  | round {g body is ts} : Derives (body ++ .many g body :: is) ts → Derives (.many g body :: is) ts
  | first {g body is ts} : Derives (body ++ .many g body :: is) ts →
    Derives (.many1 g body :: is) ts
  | choose {as a is ts} : a ∈ as → Derives (a ++ is) ts → Derives (.choice as :: is) ts

/-- A tree whose nodes follow the grammar and whose leaves satisfy `P`. -/
inductive Tree.Valid (P : Token → Prop) : Tree → Prop
  | leaf {t} : P t → Valid P (.leaf t)
  | node {r cs} : Derives r.body cs → (∀ c ∈ cs, Valid P c) → Valid P (.node r cs)

theorem Tree.Valid.derives {P : Token → Prop} {r : Rule} {cs : List Tree}
    (h : (Tree.node r cs).Valid P) : Derives r.body cs := by
  cases h with
  | node h _ => exact h

theorem Tree.Valid.child {P : Token → Prop} {t c : Tree} (h : t.Valid P) (hc : c ∈ t.children) :
    c.Valid P := by
  cases h with
  | leaf => simp [Tree.children] at hc
  | node _ h => exact h c hc

namespace Tree

variable {ts : List Tree} {x : Token}

theorem tokensOfAll_eq (ts : List Tree) : tokensOfAll ts = ts.flatMap tokens := by
  induction ts with
  | nil => rfl
  | cons t ts ih => rw [tokensOfAll, ih, flatMap_cons]

theorem mem_tokensOfAll : x ∈ tokensOfAll ts ↔ ∃ t ∈ ts, x ∈ t.tokens :=
  by rw [tokensOfAll_eq, mem_flatMap]

theorem Valid.of_tokens {P : Token → Prop} {t : Tree} (h : t.Valid fun _ => True)
    (ht : ∀ x ∈ t.tokens, P x) : t.Valid P := by
  induction h with
  | leaf _ => exact .leaf (ht _ mem_cons_self)
  | node hderives _ ih =>
    exact .node hderives fun c hc => ih c hc fun x hx => ht x (mem_tokensOfAll.2 ⟨c, hc, hx⟩)

end Tree

/-! ## The images of tokens -/

namespace Lexer

variable {c : Char} {s : List Char} {n : Nat}

theorem recognizeWord_token {k : Kind} (h : recognizeWord c s = some (.token k, n)) :
    k = .text ∨ k = .number ∨
      (isNameStart c = true ∧ k = wordKind (String.ofList (c :: s.takeWhile isNameChar)) ∧
        n = (s.takeWhile isNameChar).length + 1) := by
  unfold recognizeWord at h
  split at h
  · obtain ⟨m, -, hm⟩ := map_eq_some_iff.1 h
    simp only [Prod.mk.injEq, Shape.token.injEq] at hm
    exact .inl hm.1.symm
  · split at h
    · simp only [some.injEq, Prod.mk.injEq, Shape.token.injEq] at h
      exact .inr (.inl h.1.symm)
    · split at h
      · next hc =>
        simp only [some.injEq, Prod.mk.injEq, Shape.token.injEq] at h
        exact .inr (.inr ⟨hc, h.1.symm, h.2.symm⟩)
      · cases h

theorem recognize_token {k : Kind} (h : recognize (c :: s) = some (.token k, n)) :
    (k = .colons ∧ n = 2 ∧ ∃ r, c :: s = ':' :: ':' :: r) ∨ (punctuation? c = some k ∧ n = 1) ∨
      recognizeWord c s = some (.token k, n) := by
  unfold recognize at h
  split at h
  · cases h
  · simp at h
  · simp at h
  · simp at h
  · simp at h
  · obtain ⟨m, -, hm⟩ := map_eq_some_iff.1 h
    simp at hm
  · next r e =>
    simp only [some.injEq, Prod.mk.injEq, Shape.token.injEq] at h
    exact .inl ⟨h.1.symm, h.2.symm, r, e⟩
  · next e =>
    obtain ⟨rfl, rfl⟩ := cons.inj e
    split at h
    · simp at h
    · split at h
      · next k' hk =>
        simp only [some.injEq, Prod.mk.injEq, Shape.token.injEq] at h
        exact .inr (.inl ⟨h.1 ▸ hk, h.2.symm⟩)
      · exact .inr (.inr h)

theorem exists_firstPiece {p : Position} {skip : Nat} {piece : Piece}
    (h : piece ∈ piecesFrom p skip s) : ∃ q c r, piece = (firstPiece q c r).1 := by
  induction s generalizing p skip with
  | nil => simp [piecesFrom] at h
  | cons c s ih =>
    cases skip with
    | succ skip => exact ih h
    | zero =>
      simp only [piecesFrom, mem_cons] at h
      rcases h with h | h
      · exact ⟨p, c, s, h⟩
      · exact ih h

end Lexer

/-- The kinds of tokens that may stand for a name. -/
def Kind.IsName (k : Kind) : Prop := k = .identifier ∨ ∃ w, k = .keyword w

/-- A token with the text that its kind asks for, as far as names are concerned. -/
structure Token.Shaped (t : Token) : Prop where
  word : t.kind.IsName → IsWord t.image
  colons : t.kind = .colons → t.image = "::"
  dot : t.kind = .dot → t.image = "."

namespace Lexer

variable {c : Char}

theorem punctuation?_eq_dot (h : punctuation? c = some .dot) : c = '.' := by
  unfold punctuation? at h
  split at h <;> simp_all

theorem punctuation?_not_isName {k : Kind} (h : punctuation? c = some k) : ¬ k.IsName := by
  unfold punctuation? at h
  split at h <;> simp at h <;> subst h <;> simp [Kind.IsName]

theorem wordKind_isName (w : String) : (wordKind w).IsName := by
  unfold wordKind
  split
  · exact .inr ⟨_, rfl⟩
  · exact .inl rfl

theorem shaped_firstPiece {p : Position} {s : List Char} {k : Kind}
    (h : (firstPiece p c s).1.shape = .token k) :
    (k.IsName → IsWord (String.ofList (firstPiece p c s).1.image)) ∧
      (k = .colons → (firstPiece p c s).1.image = [':', ':']) ∧
      (k = .dot → (firstPiece p c s).1.image = ['.']) := by
  unfold firstPiece at h ⊢
  rcases hr : recognize (c :: s) with _ | ⟨shape, n⟩
  · simp [hr] at h
  · simp only [hr] at h ⊢
    subst h
    rcases recognize_token hr with ⟨rfl, rfl, r, e⟩ | ⟨hk, rfl⟩ | hw
    · obtain ⟨rfl, rfl⟩ := cons.inj e
      exact ⟨by simp [Kind.IsName], by simp, by simp⟩
    · refine ⟨fun hn => absurd hn (punctuation?_not_isName hk), ?_, ?_⟩
      · rintro rfl
        unfold punctuation? at hk
        split at hk <;> simp at hk
      · rintro rfl
        simp [punctuation?_eq_dot hk]
    · rcases recognizeWord_token hw with rfl | rfl | ⟨hc, rfl, rfl⟩
      · exact ⟨by simp [Kind.IsName], by simp, by simp⟩
      · exact ⟨by simp [Kind.IsName], by simp, by simp⟩
      · have hname := wordKind_isName (String.ofList (c :: s.takeWhile isNameChar))
        refine ⟨fun _ => ?_, fun e => ?_, fun e => ?_⟩
        · have htake : s.take ((s.takeWhile isNameChar).length + 1 - 1) =
              s.takeWhile isNameChar := by
            rw [Nat.add_sub_cancel]
            exact prefix_iff_eq_take.1 (List.takeWhile_prefix _) |>.symm
          intro d hd
          rw [String.toList_ofList, htake] at hd
          rcases mem_cons.1 hd with rfl | hd
          · simp [isNameChar, hc]
          · exact mem_takeWhile_imp hd
        · rw [e] at hname; simp [Kind.IsName] at hname
        · rw [e] at hname; simp [Kind.IsName] at hname

end Lexer

/-- **The tokens of a text have the texts that their kinds ask for.** -/
theorem shaped_of_mem_tokens {text : String} {t : Token} (h : t ∈ (Scan.ofText text).tokens) :
    t.Shaped := by
  obtain ⟨piece, hp, ht⟩ := mem_filterMap.1 h
  obtain ⟨q, c, r, rfl⟩ := Lexer.exists_firstPiece hp
  unfold Piece.token? at ht
  split at ht
  · next k hk =>
    cases ht
    obtain ⟨h1, h2, h3⟩ := Lexer.shaped_firstPiece hk
    refine ⟨h1, fun e => ?_, fun e => ?_⟩
    · exact String.toList_inj.1 (by simpa [Piece.lexeme] using h2 e)
    · exact String.toList_inj.1 (by simpa [Piece.lexeme] using h3 e)
  · cases ht

end MessageSchema
