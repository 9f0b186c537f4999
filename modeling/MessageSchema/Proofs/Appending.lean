/-
  Texts with one more import.

  A text that gets an import as its last line is read as before: the import adds two
  tokens after all others and all comments, and one tree after all others.  So every
  declaration keeps its notes, its lines and the texts of its defaults, and the draft
  differs in its imports alone.
-/
import MessageSchema.Proofs.Cutting
import MessageSchema.Proofs.Remarks
import MessageSchema.Proofs.TokenSearch

namespace MessageSchema

open List Lexer Piece Draft Reader

open MessageSchema.Tree (tokensOfAll)

/-! ## Margins -/

namespace Margins

section Alike

/-- Tokens and comments that stand in the same order and on the same lines as others. -/
structure Alike (T : Token → Token → Prop) (C : Comment → Comment → Prop) : Prop where
  token : ∀ {a b}, T a b → a.first.line = b.first.line ∧ a.last.line = b.last.line ∧
    isSeparator a = isSeparator b
  comment : ∀ {c d}, C c d → c.kind = d.kind ∧ c.image = d.image ∧ c.first.line = d.first.line
  before : ∀ {a b c d}, T a b → C c d →
    (c.first.offset < a.first.offset ↔ d.first.offset < b.first.offset)
  after : ∀ {a b c d}, T a b → C c d →
    (a.last.offset < c.first.offset ↔ b.last.offset < d.first.offset)

variable {T : Token → Token → Prop} {C : Comment → Comment → Prop} {ts us extra : List Token}
  {cs ds : List Comment} {i : Nat} {a b : Token} (h : Alike T C) (hts : Forall₂ T ts us)
  (hcs : Forall₂ C cs ds) (hordered : Ordered ts) (hordered' : Ordered (us ++ extra))

include h hts

theorem passSeparators_alike (hhead : ∀ e ∈ extra.head?, isSeparator e = false) (line : Nat)
    {j : Nat} (hj : j ≤ ts.length) : (Margins.mk (us ++ extra).toArray ds).passSeparators line j =
      (Margins.mk ts.toArray cs).passSeparators line j := by
  induction hn : ts.length - j generalizing j with
  | zero =>
    obtain rfl : j = ts.length := by omega
    have hget : (us ++ extra)[ts.length]? = extra.head? := by
      rw [hts.length_eq, getElem?_append_right (Nat.le_refl _), Nat.sub_self, head?_eq_getElem?]
    rw [passSeparators_of_none (m := ⟨ts.toArray, cs⟩) (by simp)]
    cases he : extra.head? with
    | none => exact passSeparators_of_none (by simp [hget, he]) line
    | some e =>
      rw [passSeparators_of_some (t := e) (by simp [hget, he]), if_neg (by simp [hhead e he])]
  | succ n ih =>
    have hlt : j < ts.length := by omega
    have hlt' : j < us.length := hts.length_eq ▸ hlt
    have hget : (us ++ extra)[j]? = us[j]? := getElem?_append_left hlt'
    obtain ⟨hline, -, hseparator⟩ := h.token (hts.get hlt hlt')
    rw [passSeparators_of_some (m := ⟨ts.toArray, cs⟩) (t := ts[j]) (by simp [hlt]),
      passSeparators_of_some (t := us[j]) (by simp [hget, hlt'])]
    simp only [get_eq_getElem] at hline hseparator
    rw [hline, hseparator, ih hlt (by omega)]

include hcs hordered hordered'

variable (ha : ts[i]? = some a) (hb : us[i]? = some b)

include ha hb

theorem leading_alike : Forall₂ C ((Margins.mk ts.toArray cs).leading a)
    ((Margins.mk (us ++ extra).toArray ds).leading b) := by
  have hlt : i < us.length := (List.getElem?_eq_some_iff.1 hb).1
  have hprevious : (us ++ extra)[i - 1]? = us[i - 1]? := getElem?_append_left (by omega)
  rw [leading, leading, index_eq hordered cs ha,
    index_eq hordered' ds (by rw [getElem?_append_left hlt, hb])]
  refine rel_filter (fun c d hcd => ?_) hcs
  simp only [Bool.and_eq_true, decide_eq_true_eq, h.before (forall₂_getElem? hts ha hb) hcd,
    getElem?_toArray, hprevious]
  rcases rel_cases (rel_getElem? hts (i - 1)) with ⟨hp, hp'⟩ | ⟨p, p', hp, hp', hone⟩
  · simp [hp, hp']
  · by_cases hi : i = 0
    · simp [hi]
    · simp [hi, hp, hp', h.after hone hcd, (h.token hone).2.1, (h.comment hcd).2.2]

theorem trailing_alike (hhead : ∀ e ∈ extra.head?, isSeparator e = false)
    (hextra : ∀ e ∈ extra, ∀ d ∈ ds, d.first.offset < e.first.offset) :
    Forall₂ C ((Margins.mk ts.toArray cs).trailing a)
      ((Margins.mk (us ++ extra).toArray ds).trailing b) := by
  have hlt : i < ts.length := (List.getElem?_eq_some_iff.1 ha).1
  have hlt' : i < us.length := (List.getElem?_eq_some_iff.1 hb).1
  have hab := forall₂_getElem? hts ha hb
  have hpass : (Margins.mk (us ++ extra).toArray ds).passSeparators b.last.line (i + 1) =
      (Margins.mk ts.toArray cs).passSeparators b.last.line (i + 1) :=
      passSeparators_alike h hts hhead b.last.line hlt
  rw [trailing, trailing, index_eq hordered cs ha,
    index_eq hordered' ds (by rw [getElem?_append_left hlt', hb])]
  simp only [getElem?_toArray, hpass, (h.token hab).2.1]
  generalize (Margins.mk ts.toArray cs).passSeparators b.last.line (i + 1) = n
  have hmem : Forall₂ (fun c d => d ∈ ds ∧ C c d) cs ds :=
    ((forall₂_and_left _ _).2 ⟨fun _ hd => hd, hcs.flip⟩).flip
  refine (rel_filter (fun c d hcd => ?_) hmem).imp fun _ _ hcd => hcd.2
  simp only [Bool.and_eq_true, decide_eq_true_eq, h.after hab hcd.2, (h.comment hcd.2).2.2]
  refine and_congr_right fun _ => ?_
  rcases rel_cases (rel_getElem? hts n) with ⟨ht, hu⟩ | ⟨t, u, ht, hu, hone⟩
  · -- all comments come before the further tokens
    rw [ht, getElem?_append_right (List.getElem?_eq_none_iff.1 hu)]
    cases he : extra[n - us.length]? with
    | none => simp
    | some e => simp [hextra e (mem_of_getElem? he) d hcd.1]
  · rw [ht, getElem?_append_left (List.getElem?_eq_some_iff.1 hu).1, hu]
    simp [h.before hone hcd.2]

/-- **Declarations between tokens that stand in the same order have the same notes**, whatever
    tokens come after all comments. -/
theorem notes_alike {j : Nat} {a' b' : Token} (ha' : ts[j]? = some a') (hb' : us[j]? = some b')
    (hhead : ∀ e ∈ extra.head?, isSeparator e = false)
    (hextra : ∀ e ∈ extra, ∀ d ∈ ds, d.first.offset < e.first.offset) :
    (Margins.mk ts.toArray cs).notes a a' = (Margins.mk (us ++ extra).toArray ds).notes b b' := by
  have hbefore := leading_alike h hts hcs hordered hordered' ha hb
  have hafter := trailing_alike h hts hcs hordered hordered' ha' hb' hhead hextra
  have hdocs : ∀ {xs ys}, Forall₂ C xs ys →
      Forall₂ C (xs.filter fun c => c.kind = .doc) (ys.filter fun c => c.kind = .doc) := fun hxy =>
    rel_filter (fun c d hcd => by simp [(h.comment hcd).1]) hxy
  have htexts : ∀ {xs ys}, Forall₂ C xs ys → xs.map docText = ys.map docText := fun hxy =>
    map_eq_of_forall₂ (hxy.imp fun c d hcd => by rw [docText, docText, (h.comment hcd).2.1])
  have himages : ∀ {xs ys}, Forall₂ C xs ys →
      (xs.map fun c => Text.trim c.image) = ys.map fun c => Text.trim c.image := fun hxy =>
    map_eq_of_forall₂ (hxy.imp fun c d hcd => by rw [(h.comment hcd).2.1])
  rw [notes, notes]
  simp only [isEmpty_eq_of_forall₂ (hdocs hbefore), himages (rel_append hbefore hafter)]
  split
  · rw [htexts (hdocs hafter)]
  · rw [htexts (hdocs hbefore)]

end Alike

end Margins

variable {q : List Piece}

/-! ## Texts with the same pieces -/

theorem ordered_tokens {p : Position} (hlaid : Laid p q) (himages : ∀ x ∈ q, x.image ≠ []) :
    Margins.Ordered (q.filterMap token?) := by
  have hpairs := (pairwise_of_laid hlaid).imp_of_mem fun hx _ h =>
    Nat.lt_of_lt_of_le (offset_lt_next (himages _ hx)) h
  refine hpairs.filterMap _ fun x y hlt t ht u hu => ?_
  obtain ⟨k, -, rfl⟩ := token?_eq_some ht
  obtain ⟨k', -, rfl⟩ := token?_eq_some hu
  exact hlt

theorem exists_piece_of_mem {t : Token} (h : t ∈ q.filterMap token?) :
    ∃ (i : Nat) (x : Piece) (k : Kind), q[i]? = some x ∧ x.shape = .token k ∧ t = x.lexeme k := by
  obtain ⟨x, hx, ht⟩ := mem_filterMap.1 h
  obtain ⟨i, hi⟩ := mem_iff_getElem?.1 hx
  obtain ⟨k, hk, rfl⟩ := token?_eq_some ht
  exact ⟨i, x, k, hi, hk, rfl⟩

/-- **The text of a tree** is made of the pieces from its first token to its last. -/
theorem Draft.Reader.textOf_eq {r : Reader} (hlaid : Lexer.Laid .origin q)
    (himages : ∀ x ∈ q, x.image ≠ []) (htext : r.source.text.toList = q.flatMap (·.image))
    {t : Tree} {i j : Nat} {x y : Piece} (hx : q[i]? = some x) (hy : q[j]? = some y) {k l : Kind}
    (hfirst : t.tokens.head? = some (x.lexeme k)) (hlast : t.tokens.getLast? = some (y.lexeme l)) :
    r.textOf t = String.ofList (((q.drop i).take (j + 1 - i)).flatMap (·.image)) := by
  rw [textOf, hfirst, hlast, htext, ← slice_between hlaid hx hy,
    ← last_offset_succ (himages y (mem_of_getElem? hy)) l]
  rfl

/-- The piece of a separator of names. -/
def Piece.IsLink (x : Piece) : Prop :=
  (x.shape = .token .colons ∧ x.image = [':', ':']) ∨ (x.shape = .token .dot ∧ x.image = ['.'])

/-- A piece, and one that stands on the same lines of another text and is the same, or both are
    separators of names. -/
structure Piece.Respells (x x' : Piece) : Prop where
  first : x.first.line = x'.first.line
  next : x.next.line = x'.next.line
  same : x.shape = x'.shape ∧ x.image = x'.image ∨ x.IsLink ∧ x'.IsLink

theorem Piece.IsLink.exists_kind {x : Piece} (h : x.IsLink) :
    ∃ k, k.isLink = true ∧ x.shape = .token k := by
  rcases h with h | h
  · exact ⟨_, rfl, h.1⟩
  · exact ⟨_, rfl, h.1⟩

theorem Piece.Respells.isSome_eq {x x' : Piece} (h : x.Respells x') :
    x.token?.isSome = x'.token?.isSome ∧ x.comment?.isSome = x'.comment?.isSome := by
  rw [token?, token?, comment?, comment?]
  rcases h.same with hsame | ⟨hx, hx'⟩
  · rw [hsame.1]
    cases x'.shape <;> exact ⟨rfl, rfl⟩
  · obtain ⟨k, -, hk⟩ := hx.exists_kind
    obtain ⟨k', -, hk'⟩ := hx'.exists_kind
    rw [hk, hk']
    exact ⟨rfl, rfl⟩

section Order

variable {p : Position} {q : List Piece} (hlaid : Laid p q) (himages : ∀ x ∈ q, x.image ≠ [])
  {i j : Nat} {x y : Piece} (hx : q[i]? = some x) (hy : q[j]? = some y)
include hlaid himages hx hy

theorem first_offset_lt_iff : x.first.offset < y.first.offset ↔ i < j := by
  refine ⟨fun hlt => Nat.lt_of_not_le fun hji => ?_, fun hij => ?_⟩
  · exact absurd (first_offset_le_of_laid hlaid hy hx hji) (Nat.not_le.2 hlt)
  · exact Nat.lt_of_lt_of_le (offset_lt_next (himages x (mem_of_getElem? hx)))
      (next_offset_le_of_laid hlaid hx hy hij)

theorem last_offset_lt_iff {κ : Type} (k : κ) :
    (x.lexeme k).last.offset < y.first.offset ↔ i < j := by
  have hlast := last_offset_succ (himages x (mem_of_getElem? hx)) k
  have hnext := offset_lt_next (himages x (mem_of_getElem? hx))
  refine ⟨fun hlt => Nat.lt_of_not_le fun hji => ?_, fun hij => ?_⟩
  · have hle := first_offset_le_of_laid hlaid hy hx hji
    omega
  · have hle := next_offset_le_of_laid hlaid hx hy hij
    omega

end Order

theorem alike_moved {p p' : Position} {q q' : List Piece} (hlaid : Laid p q) (hlaid' : Laid p' q')
    (himages : ∀ x ∈ q, x.image ≠ []) (himages' : ∀ x ∈ q', x.image ≠ [])
    (hq : ∀ (i : Nat) x x', q[i]? = some x → q'[i]? = some x' → x.Respells x') :
    Margins.Alike (Moved token? q q') (Moved comment? q q') := by
  constructor
  · rintro a b ⟨i, x, x', hx, hx', ha, hb⟩
    have hone := hq i x x' hx hx'
    obtain ⟨k, hk, rfl⟩ := token?_eq_some ha
    obtain ⟨k', hk', rfl⟩ := token?_eq_some hb
    refine ⟨hone.first, hone.next, ?_⟩
    rcases hone.same with ⟨hshape, -⟩ | ⟨hlink, hlink'⟩
    · rw [hk, hk'] at hshape
      rw [Shape.token.inj hshape]
      rfl
    · rcases hlink with ⟨h, -⟩ | ⟨h, -⟩ <;> rcases hlink' with ⟨h', -⟩ | ⟨h', -⟩ <;>
        (rw [h] at hk; rw [h'] at hk'; cases hk; cases hk'; rfl)
  · rintro c d ⟨i, x, x', hx, hx', hc, hd⟩
    have hone := hq i x x' hx hx'
    obtain ⟨k, hk, rfl⟩ := comment?_eq_some hc
    obtain ⟨k', hk', rfl⟩ := comment?_eq_some hd
    rcases hone.same with ⟨hshape, himage⟩ | ⟨hlink, -⟩
    · rw [hk, hk'] at hshape
      exact ⟨Shape.comment.inj hshape, congrArg String.ofList himage, hone.first⟩
    · obtain ⟨l, -, hl⟩ := hlink.exists_kind
      rw [hl] at hk
      cases hk
  · rintro a b c d ⟨i, x, x', hx, hx', ha, hb⟩ ⟨j, y, y', hy, hy', hc, hd⟩
    obtain ⟨k, -, rfl⟩ := token?_eq_some ha
    obtain ⟨k', -, rfl⟩ := token?_eq_some hb
    obtain ⟨l, -, rfl⟩ := comment?_eq_some hc
    obtain ⟨l', -, rfl⟩ := comment?_eq_some hd
    exact (first_offset_lt_iff hlaid himages hy hx).trans
      (first_offset_lt_iff hlaid' himages' hy' hx').symm
  · rintro a b c d ⟨i, x, x', hx, hx', ha, hb⟩ ⟨j, y, y', hy, hy', hc, hd⟩
    obtain ⟨k, -, rfl⟩ := token?_eq_some ha
    obtain ⟨k', -, rfl⟩ := token?_eq_some hb
    obtain ⟨l, -, rfl⟩ := comment?_eq_some hc
    obtain ⟨l', -, rfl⟩ := comment?_eq_some hd
    exact (last_offset_lt_iff hlaid himages hx hy k).trans
      (last_offset_lt_iff hlaid' himages' hx' hy' k').symm

def SameRank (ts us : List Token) (a b : Token) : Prop :=
  ∃ i : Nat, ts[i]? = some a ∧ us[i]? = some b

namespace Draft.Reader

variable {file text text' : String} {s s' : Source} {q more : List Piece} {t t' : Tree}
  (hpieces : pieces text'.toList = q ++ more) (hq : Forall₂ Respells (pieces text.toList) q)
include hpieces hq

theorem getElem?_respells {i : Nat} {x x' : Piece} (hx : (pieces text.toList)[i]? = some x) :
    (pieces text'.toList)[i]? = some x' ↔ q[i]? = some x' := by
  rw [hpieces, getElem?_append_left (hq.length_eq ▸ (List.getElem?_eq_some_iff.1 hx).1)]

theorem moved_respells {α : Type} {f : Piece → Option α}
    (hf : ∀ x x', x.Respells x' → (f x).isSome = (f x').isSome) :
    Forall₂ (Moved f (pieces text.toList) (pieces text'.toList)) ((pieces text.toList).filterMap f)
      (q.filterMap f) :=
  (forall₂_moved hq hf).imp fun _ _ ⟨i, x, x', hx, hx', hmoved⟩ =>
    ⟨i, x, x', hx, (getElem?_respells hpieces hq hx).2 hx', hmoved⟩

variable (hs : Source.read file text = .ok s) (hs' : Source.read file text' = .ok s')
  (ht : Forall₂ (SameRank s.tokens s'.tokens) t.tokens t'.tokens)
include hs hs' ht

theorem sameRank_respells : Forall₂ (SameRank ((pieces text.toList).filterMap token?)
    (q.filterMap token?)) t.tokens t'.tokens := by
  obtain ⟨-, -, hsource⟩ := Source.read_eq_ok_iff.1 hs
  obtain ⟨-, -, hsource'⟩ := Source.read_eq_ok_iff.1 hs'
  refine ht.imp fun a b ⟨i, ha, hb⟩ => ?_
  rw [hsource] at ha
  rw [hsource'] at hb
  have hlength := (moved_respells hpieces hq fun _ _ h => h.isSome_eq.1).length_eq
  simp only [Scan.ofText, hpieces, filterMap_append] at hb
  rw [getElem?_append_left (hlength ▸ (List.getElem?_eq_some_iff.1 ha).1)] at hb
  exact ⟨i, ha, hb⟩

/-- **The text of a tree** is the same if the pieces that it surrounds are. -/
theorem textOf_eq_of_respells
    (hsame : ∀ (n : Nat) z z', (pieces text.toList)[n]? = some z → q[n]? = some z' →
      t.surrounds (z.lexeme .doc) = true → z.image = z'.image) :
    (ofSource s).textOf t = (ofSource s').textOf t' := by
  have hrank := sameRank_respells hpieces hq hs hs' ht
  obtain ⟨-, -, hsource⟩ := Source.read_eq_ok_iff.1 hs
  obtain ⟨-, -, hsource'⟩ := Source.read_eq_ok_iff.1 hs'
  refine textOf_eq_of_moved (laid_piecesFrom .origin _) (laid_piecesFrom .origin _)
    (fun _ => image_ne_nil) (fun _ => image_ne_nil)
    (by rw [ofSource, hsource]; exact (flatMap_image_pieces _).symm)
    (by rw [ofSource, hsource']; exact (flatMap_image_pieces _).symm)
    (hrank.imp fun a b ⟨i, ha, hb⟩ => ?_) fun n z z' hz hz' =>
    hsame n z z' hz ((getElem?_respells hpieces hq hz).1 hz')
  exact forall₂_getElem? (moved_respells hpieces hq fun _ _ h => h.isSome_eq.1) ha hb

/-- **The notes of a tree** are the same if further tokens come after all comments. -/
theorem notesOf_eq_of_respells (hmore : more.filterMap comment? = [])
    (hhead : ∀ e ∈ (more.filterMap token?).head?, Margins.isSeparator e = false) :
    (ofSource s).notesOf t = (ofSource s').notesOf t' := by
  have hrank := sameRank_respells hpieces hq hs hs' ht
  obtain ⟨-, -, hsource⟩ := Source.read_eq_ok_iff.1 hs
  obtain ⟨-, -, hsource'⟩ := Source.read_eq_ok_iff.1 hs'
  have hlaid := laid_piecesFrom .origin text'.toList
  have htokens : (Scan.ofText text').tokens = q.filterMap token? ++ more.filterMap token? := by
    rw [← filterMap_append, ← hpieces]
    rfl
  have hcomments : (Scan.ofText text').comments = q.filterMap comment? := by
    rw [← append_nil (q.filterMap _), ← hmore, ← filterMap_append, ← hpieces]
    rfl
  have hordered : Margins.Ordered (Scan.ofText text').tokens :=
    ordered_tokens hlaid fun _ => image_ne_nil
  rw [htokens] at hordered
  have hextra : ∀ e ∈ more.filterMap token?, ∀ d ∈ q.filterMap comment?, d.first.offset <
      e.first.offset := by
    intro e he d hd
    obtain ⟨y, hy, he⟩ := mem_filterMap.1 he
    obtain ⟨x, hx, hd⟩ := mem_filterMap.1 hd
    obtain ⟨k, -, rfl⟩ := token?_eq_some he
    obtain ⟨l, -, rfl⟩ := comment?_eq_some hd
    rw [← pieces, hpieces] at hlaid
    have hle := (pairwise_append.1 (pairwise_of_laid hlaid)).2.2 x hx y hy
    exact Nat.lt_of_lt_of_le
      (offset_lt_next (image_ne_nil (s := text'.toList) (by simp [hpieces, hx]))) hle
  have halike := alike_moved (laid_piecesFrom .origin text.toList) hlaid (fun _ => image_ne_nil)
    (fun _ => image_ne_nil) fun i x x' hx hx' =>
    forall₂_getElem? hq hx ((getElem?_respells hpieces hq hx).1 hx')
  have hfirst := rel_head? hrank
  have hlast := rel_getLast? hrank
  rw [notesOf, notesOf]
  generalize t.tokens.head? = a, t'.tokens.head? = b at hfirst
  generalize t.tokens.getLast? = a', t'.tokens.getLast? = b' at hlast
  cases hfirst with
  | none => rfl
  | some hfirst =>
    cases hlast with
    | none => rfl
    | some hlast =>
      obtain ⟨i, ha, hb⟩ := hfirst
      obtain ⟨j, ha', hb'⟩ := hlast
      rw [hsource, hsource', ofSource, ofSource]
      dsimp only
      rw [htokens, hcomments]
      exact Margins.notes_alike halike (moved_respells hpieces hq fun _ _ h => h.isSome_eq.1)
        (moved_respells hpieces hq fun _ _ h => h.isSome_eq.2)
        (ordered_tokens (laid_piecesFrom .origin _) fun _ => image_ne_nil) hordered ha hb ha'
        hb' hhead hextra

end Draft.Reader

/-! ## One more line -/

/-- The keyword of an import as it is written. -/
def importWord : Identifier :=
  ⟨'i', ['m', 'p', 'o', 'r', 't'], by decide, all_eq_true.1 (by decide)⟩

/-- A text with an import as its last line. -/
def importing (text : String) (lineEnd path : List Char) : String :=
  text ++ String.ofList lineEnd ++ "import \"" ++ String.ofList path ++ "\""

/-- A line feed, alone or after a carriage return. -/
def IsLineEnd (s : List Char) : Prop := s = ['\n'] ∨ s = ['\r', '\n']

section Line

variable {text : String} {lineEnd : List Char} (hend : IsLineEnd lineEnd) (path : Quotable)

theorem toList_importing (text : String) (lineEnd : List Char) (path : Quotable) :
    (importing text lineEnd path.chars).toList =
      text.toList ++ (lineEnd ++ layout [.name importWord, .quoted path]) := by
  simp [importing, layout, Word.name, Word.quoted, Word.separator, Identifier.chars, importWord]

include hend

theorem breaksLine_append (s : List Char) : BreaksLine (lineEnd ++ s) := by
  rcases hend with rfl | rfl <;> simp [BreaksLine, isLineChar]

theorem piecesFrom_lineEnd (p : Position) (s : List Char) : piecesFrom p 0 (lineEnd ++ s) =
    ⟨.lineEnd, lineEnd, p⟩ :: piecesFrom (after p .lineEnd lineEnd) 0 s := by
  refine piecesFrom_of_recognize ?_ ?_ p
  · rcases hend with rfl | rfl <;> exact cons_ne_nil _ _
  · rcases hend with rfl | rfl <;> rfl

/-- **The pieces of a text with one more import.** -/
theorem pieces_importing (hstrays : (Scan.ofText text).strays = []) :
    ∃ e keyword gap quoted, pieces (importing text lineEnd path.chars).toList =
      pieces text.toList ++ [⟨.lineEnd, lineEnd, e⟩, (Word.name importWord).piece keyword,
        (Word.name importWord).gap gap, (Word.quoted path).piece quoted] := by
  have hbreak := breaksLine_append hend (layout [.name importWord, .quoted path])
  have hcut := piecesFrom_cut hbreak.stops (append_nil (pieces text.toList)).symm
    (strays_eq_nil_iff.1 hstrays) fun _ _ => .inr hbreak
  rw [flatMap_image_pieces] at hcut
  rw [toList_importing, pieces, hcut, piecesFrom_lineEnd hend, piecesFrom_layout,
    piecesFrom_layout_singleton]
  exact ⟨_, _, _, _, rfl⟩

end Line

/-! ## Reading one more line -/

section Derivations

variable {keyword path : Token} (hkeyword : keyword.kind = .keyword .import_)
  (hpath : path.kind = .text)

include hkeyword hpath

variable {cs : List Tree}

theorem Parses.importing {b : Option Token} (h : Parses b Rule.file.body cs [keyword, path]) :
    Parses b Rule.file.body (cs ++ [.node .importLine [.leaf keyword, .leaf path]]) [] := by
  induction cs generalizing b with
  | nil =>
    have himport : Parses b Rule.importLine.body [.leaf keyword, .leaf path] [] :=
      .token hkeyword (.token hpath (.skip (.skip .nil)))
    exact .round trivial
      (.choose (a := [.rule .importLine]) (by simp) (.rule himport (.stop trivial .nil)))
  | cons c cs ih =>
    cases h with
    | stop _ h => cases h
    | round _ h =>
      cases h with
      | choose ha h =>
        obtain ⟨r, hr, rfl⟩ := mem_map.1 ha
        cases h with
        | rule hcs h =>
          refine .round trivial (.choose ha (.rule ?_ (ih h)))
          simpa [tokensOfAll_append, tokensOfAll, Tree.tokens] using hcs

/-- **A derivation with one more import.** -/
theorem Derivation.importing {tokens : List Token} (h : Derivation tokens (.node .file cs)) :
    Derivation (tokens ++ [keyword, path])
      (.node .file (cs ++ [.node .importLine [.leaf keyword, .leaf path]])) := by
  obtain ⟨ds, heq, rfl, hparses⟩ := h
  cases heq
  -- no default goes on with the keyword
  have hends : EndAlike Eq [] [keyword, path] := fun b b' _ => by
    have hkinds : Kind.keyword .import_ ∉ firstOf [.rule .defaultAtom] := by decide
    simp [Cursor.goesOn, Cursor.startsWith, Cursor.next, hkeyword, hkinds]
  have hnear : ∀ a b : Token, a = b → a.Near b := fun a b hab => hab ▸ ⟨.inl rfl, rfl, rfl⟩
  have hbefore := hparses.of_rel hnear (.ofRule (by decide)) .none
    (Tree.rel_refl cs fun _ _ => rfl) hends
  exact ⟨_, rfl, by simp [tokensOfAll_append, tokensOfAll, Tree.tokens],
    (hbefore.1 Rule.file.isFair_body).importing hkeyword hpath⟩

end Derivations

section Importing

variable {text : String} {lineEnd : List Char} (hend : IsLineEnd lineEnd) (path : Quotable)
include hend

variable {file : String}

/-- **Two tokens come after all others.** -/
theorem scan_importing (hstrays : (Scan.ofText text).strays = []) : ∃ keyword quoted : Token,
    Scan.ofText (importing text lineEnd path.chars) =
        ⟨(Scan.ofText text).tokens ++ [keyword, quoted], (Scan.ofText text).comments, []⟩ ∧
      keyword.kind = .keyword .import_ ∧ quoted.kind = .text ∧
      quoted.image = String.ofList ('"' :: (path.chars ++ ['"'])) := by
  obtain ⟨e, keyword, gap, quoted, hpieces⟩ := pieces_importing hend path hstrays
  have hkind : (Word.name importWord).kind = .keyword .import_ := by decide
  refine ⟨((Word.name importWord).piece keyword).lexeme (.keyword .import_),
    ((Word.quoted path).piece quoted).lexeme .text, ?_, rfl, rfl, rfl⟩
  have hstrays : (pieces text.toList).filterMap stray? = [] := hstrays
  simp only [Scan.ofText, hpieces, filterMap_append, hstrays]
  simp [filterMap_cons, token?, comment?, stray?, Word.piece, Word.gap, hkind, Word.quoted,
    show (Word.name importWord).endsLine = false from rfl]

/-- **The source of a text with one more import.** -/
theorem Source.read_importing {s : Source} (h : Source.read file text = .ok s) :
    ∃ keyword quoted : Token, Source.read file (importing text lineEnd path.chars) =
        .ok ⟨file, importing text lineEnd path.chars, s.tokens ++ [keyword, quoted], s.comments,
          .node .file (s.tree.children ++ [.node .importLine [.leaf keyword, .leaf quoted]])⟩ ∧
      keyword.kind = .keyword .import_ ∧ quoted.kind = .text ∧
      quoted.image = String.ofList ('"' :: (path.chars ++ ['"'])) := by
  obtain ⟨hstrays, hderivation, hs⟩ := Source.read_eq_ok_iff.1 h
  obtain ⟨keyword, quoted, hscan, hkeyword, hquoted, himage⟩ := scan_importing hend path hstrays
  have htokens : s.tokens = (Scan.ofText text).tokens := by rw [hs]
  have hcomments : s.comments = (Scan.ofText text).comments := by rw [hs]
  obtain ⟨cs, htree⟩ : ∃ cs, s.tree = .node .file cs := hderivation.imp fun cs hcs => hcs.1
  rw [htree] at hderivation
  refine ⟨keyword, quoted, Source.read_eq_ok_iff.2 ⟨by rw [hscan], ?_, ?_⟩, hkeyword,
    hquoted, himage⟩
  · rw [hscan, htree]
    exact hderivation.importing hkeyword hquoted
  · rw [hscan, htokens, hcomments]

theorem rereads_importing {s s' : Source} (h : Source.read file text = .ok s)
    (h' : Source.read file (importing text lineEnd path.chars) = .ok s') {extra : List Token}
    (htokens : s'.tokens = s.tokens ++ extra) {t : Tree} (ht : ∀ a ∈ t.tokens, a ∈ s.tokens) :
    Rereads (.spelled id) (.ofSource s) (.ofSource s') t t := by
  obtain ⟨e, keyword, gap, quoted, hpieces⟩ :=
    pieces_importing hend path (Source.read_eq_ok_iff.1 h).1
  have hkind : (Word.name importWord).kind = .keyword .import_ := by decide
  have hq : Forall₂ Respells (pieces text.toList) (pieces text.toList) :=
    forall₂_same.2 fun _ _ => ⟨rfl, rfl, .inl ⟨rfl, rfl⟩⟩
  have hrel : Tree.Rel (fun a b => a = b ∧ a ∈ s.tokens) t t := .refl t fun a ha => ⟨rfl, ht a ha⟩
  refine rereads_of_rel ?_ hrel fun q cs ds _ hpart => ?_
  · rintro a _ ⟨rfl, -⟩
    exact ⟨.inl rfl, fun _ => rfl, rfl, rfl⟩
  have hranks : Forall₂ (SameRank s.tokens s'.tokens) (Tree.node q cs).tokens
      (Tree.node q ds).tokens :=
    hpart.tokens.imp fun a b ⟨hab, ha⟩ => by
      obtain ⟨i, hi⟩ := mem_iff_getElem?.1 ha
      rw [← hab, htokens]
      exact ⟨i, hi, by rw [getElem?_append_left (List.getElem?_eq_some_iff.1 hi).1, hi]⟩
  refine similar_of_rel (fun a b hab => congrArg _ hab.1) hpart (fun _ => ?_) ?_
  · refine textOf_eq_of_respells hpieces hq h h' hranks fun n z z' hz hz' _ => ?_
    rw [Option.some.inj (hz.symm.trans hz')]
  · refine congrArg id (notesOf_eq_of_respells hpieces hq h h' hranks ?_ ?_)
    · simp [comment?, Word.piece, Word.gap, show (Word.name importWord).endsLine = false from rfl]
    · simp [filterMap_cons, token?, Word.piece, hkind, Margins.isSeparator, lexeme]

end Importing

variable {raw : Draft}

theorem Draft.Reader.contributions_concat {r : Reader} {t : Tree}
    (ht : ∀ p, r.contribution p t = .ok {}) (p : Place) (ts : List Tree) :
    r.contributions p (ts ++ [t]) = r.contributions p ts := by
  induction ts generalizing p with
  | nil =>
    simp only [nil_append, contributions, ht]
    rfl
  | cons u ts ih =>
    rw [cons_append, contributions, contributions]
    simp only [ih]

theorem Draft.ofSource_eq_ok_iff {stem : String} {s : Source} : ofSource stem s = .ok raw ↔
    ∃ all, (Reader.ofSource s).contributions ⟨stem, none, 0⟩ s.tree.children = .ok all ∧
      raw = ⟨s.file, stem, all.scope, all.arena, (s.tree.all .importLine).map Reader.importLine,
        .empty⟩ := by
  rw [ofSource]
  cases (Reader.ofSource s).contributions ⟨stem, none, 0⟩ s.tree.children with
  | error fault =>
    constructor
    · intro h
      cases h
    · rintro ⟨all, h, -⟩
      cases h
  | ok all =>
    constructor
    · intro h
      exact ⟨all, rfl, (Except.ok.inj h).symm⟩
    · rintro ⟨all', h, rfl⟩
      cases h
      rfl

/-- **What is read of a text with one more import** is what is read of the text, and the
    import. -/
theorem Draft.read_importing {file text : String} {lineEnd : List Char} (hend : IsLineEnd lineEnd)
    (path : Quotable) (h : read file text = .ok raw) :
    ∃ line, read file (importing text lineEnd path.chars) =
      .ok { raw with imports := raw.imports ++ [⟨String.ofList path.chars, none, line⟩] } := by
  cases hs : Source.read file text with
  | error fault =>
    rw [read, hs] at h
    cases h
  | ok s =>
    obtain ⟨keyword, quoted, hs', hkeyword, hquoted, himage⟩ := Source.read_importing hend path hs
    have hrereads := forall₂_same.2 fun t (ht : t ∈ s.tree.children) =>
      rereads_importing hend path hs hs' rfl (t := t) fun a ha => by
        obtain ⟨-, ⟨cs, htree, htokens, -⟩, hsource⟩ := Source.read_eq_ok_iff.1 hs
        rw [htree] at ht
        rw [hsource, ← htokens]
        exact Tree.mem_tokensOfAll.2 ⟨_, ht, ha⟩
    have himports :
      (Tree.all (.node .file (s.tree.children ++ [.node .importLine [.leaf keyword, .leaf quoted]]))
        .importLine).map importLine = (s.tree.all .importLine).map importLine ++
          [⟨String.ofList path.chars, none, quoted.first.line⟩] := by
      simp [Tree.all, Tree.children, Tree.isNode, importLine, Tree.leaves, Tree.leaf?,
         hkeyword, hquoted, himage, Tree.find?]
    have hfile : s.file = file := (Source.read_elim hs).1
    rw [read, hs] at h
    obtain ⟨all, hall, rfl⟩ := ofSource_eq_ok_iff.1 h
    have hboth := Reader.both_contributions (by exact hfile) ⟨Path.stem file, none, 0⟩ hrereads
    simp only [View.contribution_id] at hboth
    refine ⟨quoted.first.line, ?_⟩
    rw [read, hs']
    refine ofSource_eq_ok_iff.2 ⟨all, ?_, ?_⟩
    · rw [Tree.children, contributions_concat fun p => rfl]
      exact hboth.eq_ok hall
    · rw [himports, hfile]

end MessageSchema
