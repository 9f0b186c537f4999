/-
  Texts that are written anew.

  What is recognized as a token is recognized as the same one wherever its characters
  stand, if a blank, a line end or nothing follows them.  So the tokens of a text, written
  with single blanks between them, are found again.
-/
import MessageSchema.Proofs.Cutting

namespace MessageSchema

open List Lexer

theorem Separated.stops {s : List Char} (h : Separated s) : Stops s := by
  intro c hc
  rcases h c hc with rfl | rfl
  · exact .inl rfl
  · exact .inr rfl

variable {text : String} {t : Token}

theorem exists_recognize_of_mem (h : t ∈ (Scan.ofText text).tokens) : t.image.toList ≠ [] ∧
    ∃ rest, recognize (t.image.toList ++ rest) = some (.token t.kind, t.image.toList.length) := by
  obtain ⟨x, hx, ht⟩ := mem_filterMap.1 h
  obtain ⟨k, hk, rfl⟩ := Piece.token?_eq_some ht
  obtain ⟨xs, ys, hpieces⟩ := append_of_mem hx
  refine ⟨by simpa [Piece.lexeme] using image_ne_nil hx, ys.flatMap (·.image), ?_⟩
  simpa [Piece.lexeme] using recognize_of_pieces hpieces hk

theorem exists_word_of_mem (h : t ∈ (Scan.ofText text).tokens) :
    ∃ w : Word, w.endsLine = false ∧ (w.kind, w.text) = t.word := by
  obtain ⟨hne, rest, hrecognize⟩ := exists_recognize_of_mem h
  refine ⟨⟨t.kind, t.image.toList, false, fun z hz => ?_, fun _ => rfl⟩,
    rfl, by simp [Word.text, Lexeme.word]⟩
  exact recognize_cut (x := []) hz.stops hne (fun _ => .inl ⟨_, rfl⟩) hrecognize

/-- **The tokens of a text as words** with blanks between them. -/
theorem exists_words (text : String) : ∃ ws : List Word, (∀ w ∈ ws, w.endsLine = false) ∧
    ws.map (fun w => (w.kind, w.text)) = (Scan.ofText text).tokens.map Lexeme.word := by
  have hall : ∀ t ∈ (Scan.ofText text).tokens, _ := fun t => exists_word_of_mem (t := t)
  generalize (Scan.ofText text).tokens = ts at hall
  induction ts with
  | nil => exact ⟨[], by simp, rfl⟩
  | cons t ts ih =>
    obtain ⟨⟨w, hw, hword⟩, hrest⟩ := forall_mem_cons.1 hall
    obtain ⟨ws, hws, hwords⟩ := ih hrest
    exact ⟨w :: ws, forall_mem_cons.2 ⟨hw, hws⟩, by rw [map_cons, map_cons, hword, hwords]⟩

theorem layout_eq {ws : List Word} (h : ∀ w ∈ ws, w.endsLine = false) :
    layout ws = (" ".intercalate (ws.map Word.text)).toList := by
  rw [String.toList_intercalate]
  induction ws with
  | nil => rfl
  | cons w ws ih =>
    obtain ⟨hw, hws⟩ := forall_mem_cons.1 h
    cases ws with
    | nil => simp [layout, Word.text]
    | cons v ws =>
      rw [layout, ih hws]
      simp [intercalate_cons_cons, Word.text, Word.separator, hw]

theorem kind_of_mem (h : t ∈ (Scan.ofText text).tokens) {x : Identifier} (hx : t.image = x.text) :
    t.kind = wordKind x.text := by
  obtain ⟨-, rest, hrecognize⟩ := exists_recognize_of_mem h
  rw [hx, Identifier.text, String.toList_ofList, Identifier.chars, cons_append,
    recognize_name x.isNameStart_first] at hrecognize
  obtain ⟨hkind, hlength⟩ := Prod.mk.inj (Option.some.inj hrecognize)
  have htake : (x.rest ++ rest).takeWhile isNameChar = x.rest := by
    rw [takeWhile_append_of_pos x.isNameChar_rest] at hlength ⊢
    simpa using hlength
  rw [htake] at hkind
  exact (Shape.token.inj hkind).symm

theorem wordKind_eq_keyword_iff {w : String} {k : Keyword} :
    wordKind w = .keyword k ↔ w = k.word := by
  constructor
  · unfold wordKind
    split
    · next k' hk' =>
      intro heq
      cases heq
      have hword : k.word = w := by simpa using find?_some hk'
      exact hword.symm
    · exact fun h => by cases h
  · rintro rfl
    rw [wordKind, Keyword.ofWord?_word]

/-- **Tokens survive respacing.**  The images of the tokens of a text, with single blanks between
    them, make up a text without comments and stray runs whose tokens have the same kinds and the
    same images.  And a token with the shape of a name is a keyword just if its image is that
    keyword, whatever it starts with. -/
theorem Scan.tokens_respaced (text : String) :
    (ofText (" ".intercalate ((ofText text).tokens.map (·.image)))).strays = [] ∧
    (ofText (" ".intercalate ((ofText text).tokens.map (·.image)))).comments = [] ∧
    (ofText (" ".intercalate ((ofText text).tokens.map (·.image)))).tokens.map Lexeme.word =
      (ofText text).tokens.map Lexeme.word ∧
    ∀ t ∈ (ofText text).tokens, ∀ x : Identifier, t.image = x.text →
      ∀ k : Keyword, t.kind = .keyword k ↔ t.image = k.word := by
  obtain ⟨ws, hws, hwords⟩ := exists_words text
  have himages : (ofText text).tokens.map (·.image) = ws.map Word.text := by
    simpa [Function.comp_def, Lexeme.word] using (congrArg (List.map Prod.snd) hwords).symm
  have hpieces : pieces (" ".intercalate ((ofText text).tokens.map (·.image))).toList =
      piecesFrom .origin 0 (layout ws) := by
    rw [himages, ← layout_eq hws]
    rfl
  refine ⟨?_, ?_, ?_, fun t ht x hx k => ?_⟩
  · rw [ofText, hpieces]
    exact strays_layout ws _
  · rw [ofText, hpieces]
    exact comments_layout ws _
  · rw [← hwords]
    rw [ofText, hpieces]
    exact (tokens_layout ws _).1
  · rw [kind_of_mem ht hx, wordKind_eq_keyword_iff, hx]

/-- Marks, a number and names that start with keywords, with and without blanks between them. -/
theorem Scan.tokens_respaced_crowded :
    (ofText "enumx::enum:-1.5/**/.e").tokens.map (·.image) =
      ["enumx", "::", "enum", ":", "-1.5", ".", "e"] ∧
    (ofText "enumx :: enum : -1.5 . e").tokens.map Lexeme.word =
      (ofText "enumx::enum:-1.5/**/.e").tokens.map Lexeme.word ∧
    (ofText "enumx::enum:-1.5/**/.e").tokens.head?.map (·.kind) = some .identifier ∧
    ∀ t ∈ (ofText "enumx::enum:-1.5/**/.e").tokens.head?, t.kind ≠ .keyword .enum := by
  have himages : (ofText "enumx::enum:-1.5/**/.e").tokens.map (·.image) =
      ["enumx", "::", "enum", ":", "-1.5", ".", "e"] := by decide +kernel
  obtain ⟨-, -, htokens, hkeyword⟩ := tokens_respaced "enumx::enum:-1.5/**/.e"
  rw [himages] at htokens
  refine ⟨himages, htokens, by decide +kernel, fun t ht heq => ?_⟩
  have himage : t.image = "enumx" := by
    have hhead := congrArg List.head? himages
    rw [head?_map, Option.mem_def.1 ht] at hhead
    exact Option.some.inj hhead
  have hname :=
    (hkeyword t (mem_of_mem_head? ht) ⟨'e', "numx".toList, rfl, all_eq_true.1 rfl⟩
    himage .enum).1 heq
  rw [himage] at hname
  exact absurd hname (by decide)

end MessageSchema
