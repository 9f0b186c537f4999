/-
  Texts between quotes.

  `Text.encode` writes a text so that it may stand between quotes: quotes, backslashes and
  control characters are escaped, all other characters stand for themselves.  A default of a
  string that is written so is read as the text that it encodes.
-/
import MessageSchema.Proofs.Literals
import MessageSchema.Proofs.Printing

namespace MessageSchema

open List Option Model.Binder Text Draft Table

/-! ## Escapes -/

namespace Text

/-- A character as it is written between quotes. -/
def escape : Char → List Char
  | '"' => ['\\', '"']
  | '\\' => ['\\', '\\']
  | '\x08' => ['\\', 'b']
  | '\x0c' => ['\\', 'f']
  | '\n' => ['\\', 'n']
  | '\r' => ['\\', 'r']
  | '\t' => ['\\', 't']
  | c =>
    if c < ' ' then ['\\', 'u', '0', '0', Nat.digitChar (c.toNat / 16),
      Nat.digitChar (c.toNat % 16)] else [c]

/-- A text as it is written between quotes. -/
def encode (s : List Char) : List Char := s.flatMap escape

/-- A text in quotes, with escapes. -/
def quote (s : String) : String := String.ofList ('"' :: (encode s.toList ++ ['"']))

theorem hexUnit?_digitChar :
    ∀ n < 32, hexUnit? '0' '0' (Nat.digitChar (n / 16)) (Nat.digitChar (n % 16)) = some n := by
  decide

theorem codes?_unescape {e c : Char} (hu : e ≠ 'u') (h : unescape? e = some c) (s : List Char) :
    codes? ('\\' :: e :: s) = (codes? s).map (c.toNat :: ·) := by
  rw [codes?, h]
  · cases codes? s <;> rfl
  · intro _ _ _ _ _ he
    exact absurd he hu

/-- **One character is read again** where it is written. -/
theorem codes?_escape (c : Char) (s : List Char) :
    codes? (escape c ++ s) = (codes? s).map (c.toNat :: ·) := by
  unfold escape
  split
  · exact codes?_unescape (by decide) rfl s
  · exact codes?_unescape (by decide) rfl s
  · exact codes?_unescape (by decide) rfl s
  · exact codes?_unescape (by decide) rfl s
  · exact codes?_unescape (by decide) rfl s
  · exact codes?_unescape (by decide) rfl s
  · exact codes?_unescape (by decide) rfl s
  · next hquote hslash _ _ _ _ _ =>
    split
    · next hcontrol =>
      show codes? ('\\' :: 'u' :: '0' :: '0' :: _ :: _ :: s) = _
      rw [codes?, hexUnit?_digitChar c.toNat hcontrol]
      cases codes? s <;> rfl
    · next hplain =>
      rw [singleton_append, codes?, if_neg fun h => h.elim hquote (·.elim hslash hplain)]
      · cases codes? s <;> rfl
      · exact fun _ _ _ _ _ h _ => hslash h
      · exact fun _ _ h _ => hslash h

theorem codes?_encode (s : List Char) : codes? (encode s) = some (s.map Char.toNat) := by
  induction s with
  | nil => rfl
  | cons c s ih =>
    rw [encode, flatMap_cons, codes?_escape, ← encode, ih]
    rfl

theorem half_eq_false (c : Char) : (isHighHalf c.toNat || isLowHalf c.toNat) = false := by
  have hvalid : c.toNat < 0xD800 ∨ 0xDFFF < c.toNat ∧ c.toNat < 0x110000 := c.valid
  simp only [isHighHalf, isLowHalf, Bool.or_eq_false_iff, Bool.and_eq_false_iff,
    decide_eq_false_iff_not]
  omega

theorem joinUnits_map (s : List Char) : joinUnits (s.map Char.toNat) = s := by
  induction s with
  | nil => rfl
  | cons c s ih =>
    have hhalf := half_eq_false c
    cases s with
    | nil =>
      show [if isHighHalf c.toNat || isLowHalf c.toNat then _ else Char.ofNat c.toNat] = _
      rw [hhalf, if_neg Bool.false_ne_true, Char.ofNat_toNat]
    | cons d s =>
      rw [map_cons, map_cons, joinUnits, ← map_cons, ih, hhalf, (Bool.or_eq_false_iff.1 hhalf).1,
        Bool.false_and, if_neg Bool.false_ne_true, if_neg Bool.false_ne_true, Char.ofNat_toNat]

/-- **What is encoded is decoded again.** -/
theorem decode_encode (s : List Char) : decode (encode s) = some s := by
  rw [decode, codes?_encode, map_some, joinUnits_map]

/-- An encoded text may stand between quotes. -/
def quotable (s : String) : Quotable :=
  ⟨encode s.toList, isQuotable_of_codes? (codes?_encode s.toList)⟩

end Text

/-- **A quoted text is read as the text.** -/
theorem DefaultValue.unquote_quote (s : String) : unquote (quote s) = .ok s := by
  have hlist : (quote s).toList = '"' :: (encode s.toList ++ ['"']) := String.toList_ofList
  have hwidth : ¬ width (quote s) < 2 := by
    rw [width, hlist, units_cons, units_append]
    have := unitsOf_pos '"'
    simp only [units_cons]
    omega
  have hlast : ('"' :: (encode s.toList ++ ['"'])).getLast? = some '"' := by
    rw [← cons_append, getLast?_concat]
  rw [unquote, hlist]
  simp [hwidth, hlast, decode_encode]

theorem DefaultValue.readPrimitive_quote (s : String) :
    readPrimitive (quote s) .string = .ok (.text s) := by
  rw [readPrimitive, unquote_quote]
  rfl

/-! ## Texts without imports -/

namespace System

theorem ofAlone {ext : String} {source : String → Option String} {f : String} {raw d : Draft}
    {m : Model} (hread : readFrom source f = some raw) (himports : raw.imports = [])
    (hrefines : Refines [] raw d) (hbuilt : ∀ lib, Model.ofDraft lib d .empty = (m, [])) :
    System ext source (fun g => if g = f then some d else none) (empty.insert f m) := by
  have hlinked : ∀ final, raw.linked ext final = [] := fun final => by
    rw [linked, links, himports]
    rfl
  have hsettles : ∀ final, Settles ext source final f raw d := fun final => by
    refine ⟨hread, ?_, ?_, ?_⟩
    · rw [himports]
      exact List.Pairwise.nil
    · rw [himports]
      exact fun i hi => absurd hi not_mem_nil
    · rw [hlinked]
      exact hrefines
  have hlinks : d.links ext = .empty := by
    rw [(hsettles fun _ => none).links_eq, links, himports]
    rfl
  have hm : m.imports = .empty := by rw [(Model.ofDraft_eq (hbuilt .empty)).1]
  have hfind : ∀ {g : String} {m' : Model}, (empty.insert f m).find? g = some m' →
      g = f ∧ m = m' := by
    intro g m' hg
    rw [find?_insert] at hg
    split at hg
    · next heq => exact ⟨heq, some.inj hg⟩
    · cases hg
  refine ⟨fun {g d'} hd => ?_, ⟨fun _ => 0, fun {g d'} hd => ?_⟩, fun {g m'} hg => ?_,
    fun g k himport => ?_⟩
  · obtain ⟨rfl, hd'⟩ := ite_none_right_eq_some.1 hd
    exact ⟨raw, some.inj hd' ▸ hsettles _⟩
  · obtain ⟨rfl, hd'⟩ := ite_none_right_eq_some.1 hd
    rw [← some.inj hd', hlinks]
    exact fun k hk => absurd hk not_mem_nil
  · obtain ⟨rfl, rfl⟩ := hfind hg
    exact ⟨d, if_pos rfl, hlinks ▸ hbuilt _⟩
  · obtain ⟨m', hm', hk⟩ := himport
    obtain ⟨-, rfl⟩ := hfind hm'
    rw [hm] at hk
    exact absurd hk not_mem_nil

end System

/-- **A text without imports compiles** if its draft can be refined and built. -/
theorem Compilation.exists_ofText {fs : FileSystem} {ext path text : String} {raw d : Draft}
    {m : Model} (hread : read (Path.absolute path) text = .ok raw) (himports : raw.imports = [])
    (hrefines : Refines [] raw d) (hbuilt : ∀ lib, Model.ofDraft lib d .empty = (m, [])) :
    ∃ lib, (ofText fs ext path text).result = .ok lib := by
  have htext := Loading.source_self fs (Path.absolute path) text
  have hraw : readFrom (fs.source (Path.absolute path) text) (Path.absolute path) = some raw :=
    readFrom_eq_some_iff.2 ⟨text, htext, hread⟩
  have hsystem := @System.ofAlone ext _ _ _ _ _ hraw himports hrefines hbuilt
  have hl : Loading.run fs (Path.absolute path) text ⟨.empty ext, []⟩ =
      (⟨((Workspace.empty ext).note (.loading (Path.absolute path))).insert (Path.absolute path)
      raw, []⟩, none) := by
    rw [Loading.run, Loading.load, hread]
    simp only [himports]
    rfl
  obtain ⟨lib, -, hlib, -⟩ :=
      hsystem.ofTextAfter_eq (contains_insert_iff.2 (.inl rfl)) (fun _ _ => rfl)
      (Loading.sourceOf_source fs _ text) htext hl fun p hp => by
      rcases (Loading.has_insert (l := ⟨(Workspace.empty ext).note _, []⟩)).1 hp with rfl | hp
      · exact .refl
      · cases hp
  exact ⟨lib, hlib⟩

/-! ## A message with one field -/

namespace Draft

/-- A file of one message with one field of a primitive type, as it is read. -/
structure Lone where
  file : String
  stem : String
  message : String
  field : String
  type : Primitive
  default : Option String
  messageOrigin : Origin
  fieldOrigin : Origin

namespace Lone

/-- A field that is a string with a quoted text as its default. -/
def text (file message field s : String) : Lone :=
  ⟨file, Path.stem file, message, field, .string, some (quote s),
    ⟨.none, file, 0, Path.stem file⟩, ⟨.none, file, 0, Path.stem file⟩⟩

variable (a : Lone)

def theField : Field :=
  ⟨a.field, .element (.scalar (.primitive a.type)), [], a.default, a.fieldOrigin⟩

def theMessage : Message := ⟨a.message, none, [a.theField], a.messageOrigin⟩

def raw : Draft := ⟨a.file, a.stem, { messages := [a.theMessage] }, [], [], .empty⟩

/-- The message in the namespace of the file. -/
def moved : Message := ⟨a.message, none, [a.theField], a.messageOrigin.moveTo a.stem⟩

def refined : Draft :=
  ⟨a.file, a.stem, { children := [0] },
    [⟨.none, a.stem, none, some a.stem, a.file, 1, { messages := [a.moved] }⟩], [], .empty⟩

theorem refines : Refines [] a.raw a.refined := by
  have hwrapped : a.raw.wrap.useColons.isWrapped = true := by
    show (true && (if a.stem = a.stem then some 0 else none).isSome) = true
    rw [if_pos rfl]
    rfl
  refine ⟨a.refined, ?_, rfl⟩
  rw [resolve, if_pos hwrapped]
  rfl

def key : String := QualifiedName.join (some a.stem) a.message

theorem messageCycleFaults_eq (b : Model.Binder)
    (hb : b.declared = empty.insert a.key (.message a.moved)) : b.messageCycleFaults = [] := by
  have hmessage : b.message? a.key = some a.moved := by
    rw [message?, hb, find?_insert_self]
    rfl
  have hchain : b.messageCycle? a.key = none := by
    rw [messageCycle?, messageChain, hmessage]
    rfl
  have hentries : b.declared.entries = [(a.key, .message a.moved)] := by rw [hb]; rfl
  rw [messageCycleFaults, hentries]
  show (b.addMessageCycle [] [] a.key).2 = []
  rw [addMessageCycle, hchain]
  rfl

theorem ofDraft_refined {D : Option DefaultValue}
    (hD : a.default.map (fun text => DefaultValue.readPrimitive text a.type) = D.map .ok) :
    ∃ m, ∀ lib, Model.ofDraft lib a.refined .empty = (m, []) := by
  refine ⟨(Model.ofDraft .empty a.refined .empty).1, fun lib => Prod.ext rfl ?_⟩
  have hindex : Model.Index.ofDraft a.refined = ⟨empty.insert a.stem 1,
      empty.insert a.key (.message a.moved), []⟩ := rfl
  have hfield : ∀ (b : Model.Binder) enums owner, (b.field enums owner a.theField).2 = [] := by
    intro b enums owner
    have hread :
      a.theField.default.map
      (fun text => DefaultValue.read (b.valuesOf enums) text (.primitive a.type)) = D.map .ok := hD
    simp only [Model.Binder.field, theField, Model.Binder.fieldType, Model.Binder.elementType,
      Model.Binder.scalarType] at hread ⊢
    rw [hread]
    cases D <;> rfl
  simp only [Model.ofDraft, hindex]
  rw [a.messageCycleFaults_eq _ rfl]
  show [] ++ ((Model.Binder.field _ _ a.key a.theField).2 ++ []) = []
  rw [hfield]
  rfl

theorem eq_of_bare_type {t : FieldType} {p : Primitive}
    (h : t.bare (fun _ => 0) = .element (.scalar (.primitive p))) :
    t = .element (.scalar (.primitive p)) := by
  cases t with
  | element e =>
    cases e with
    | scalar s => exact h
    | inline kind values => cases h
    | compound base components => cases h
  | array e => cases h
  | map key value => cases h

theorem of_bare {d : Draft} (h : d.bare (fun _ => 0) = a.raw) :
    ∃ b : Lone, d = b.raw ∧ b.message = a.message ∧ b.field = a.field ∧ b.type = a.type ∧
      b.default = a.default := by
  obtain ⟨file, stem, ⟨messages, enums, options, compounds, children⟩, arena, imports,
    attached⟩ := d
  injection h with hfile hstem htop harena himports hattached
  injection htop with hmessages henums hoptions hcompounds hchildren
  obtain ⟨⟨name, parent, fields, origin⟩, rfl, hmessage⟩ := map_eq_singleton_iff.1 hmessages
  injection hmessage with hname hparent hfields
  obtain ⟨⟨label, type, modifiers, default, fieldOrigin⟩, rfl, hfield⟩ :=
    map_eq_singleton_iff.1 hfields
  injection hfield with hlabel htype hmodifiers hdefault
  obtain rfl : parent = none := hparent
  obtain rfl : enums = [] := map_eq_nil_iff.1 henums
  obtain rfl : options = [] := map_eq_nil_iff.1 hoptions
  obtain rfl : compounds = [] := map_eq_nil_iff.1 hcompounds
  obtain rfl : children = [] := hchildren
  obtain rfl : arena = [] := map_eq_nil_iff.1 harena
  obtain rfl : imports = [] := map_eq_nil_iff.1 himports
  obtain rfl : attached = .empty := hattached
  obtain rfl : modifiers = [] := hmodifiers
  obtain rfl : type = .element (.scalar (.primitive a.type)) := eq_of_bare_type htype
  exact ⟨⟨file, stem, name, label, a.type, default, origin, fieldOrigin⟩, rfl, hname, hlabel,
    rfl, hdefault⟩

end Lone

end Draft

/-! ## Defaults of strings -/

/-- The model `m` has a field that is a string, with the default `s`. -/
def Model.HasText (m : Model) (message field s : String) : Prop :=
  ∃ ns ∈ m.namespaces, ∃ M ∈ ns.messages, M.name = message ∧
    ∃ F ∈ M.fields, F.name = field ∧ F.type = .primitive .string ∧ F.default = some (.text s)

theorem System.hasText {ext : String} {source : String → Option String}
    {final : String → Option Draft} {lib : Library} (h : System ext source final lib)
    {file : String} {m : Model} (hm : lib.find? file = some m) {raw : Draft}
    (hraw : readFrom source file = some raw) {x : Message} (hx : raw.HasMessage x) {f : Field}
    (hf : f ∈ x.fields) (htype : f.type = .element (.scalar (.primitive .string))) {s : String}
    (hdefault : f.default = some (quote s)) : m.HasText x.name f.name s := by
  obtain ⟨ns, hns, M, hM, hname, hfields⟩ := h.exists_message hm hraw hx
  obtain ⟨F, hF, hbecomes⟩ := hfields f hf _ htype
  obtain ⟨value, hvalue, hread⟩ := hbecomes.default _ hdefault
  cases (DefaultValue.readPrimitive_quote s).symm.trans hread
  exact ⟨ns, hns, M, hM, hname, F, hF, hbecomes.name, hbecomes.type, hvalue⟩

namespace Compilation

/-- A message with a field that is a string, and the default of the field. -/
def stringMessage (message field : Identifier) (s : String) : String :=
  "message " ++ message.text ++ " \x7b\n" ++ field.text ++ " : string = " ++ quote s ++ " ;\n\x7d"

def stringSchema (message field : Identifier) (s : String) : Schema :=
  ⟨[.inr (.message ⟨message, none,
    [⟨[], field, .element (.scalar (.primitive .string)), some (.text (quotable s))⟩]⟩)]⟩

theorem text_stringSchema (message field : Identifier) (s : String) :
    (stringSchema message field s).text = stringMessage message field s := by
  apply String.toList_injective
  have hwords : layout (stringSchema message field s).words =
      "message ".toList ++
      (message.chars ++ (" \x7b\n".toList ++ (field.chars ++ (" : string = ".toList ++
        ('"' :: (encode s.toList ++ ['"']) ++ " ;\n\x7d".toList))))) := rfl
  rw [Schema.text, String.toList_ofList, hwords]
  simp [stringMessage, Identifier.text, quote]

theorem read_stringMessage (file : String) (message field : Identifier) (s : String) :
    ∃ a : Lone, read file (stringMessage message field s) = .ok a.raw ∧ a.message = message.text ∧
      a.field = field.text ∧ a.type = .string ∧ a.default = some (quote s) := by
  obtain ⟨source, hsource, hfile, hread, himports⟩ :=
    (stringSchema message field s).exists_source file
  obtain ⟨d, hd, hbare⟩ :=
    (stringSchema message field s).draft_of_source hfile hread himports (Path.stem file)
  obtain ⟨a, rfl, ha⟩ := (Lone.text file message.text field.text s).of_bare hbare
  refine ⟨a, ?_, ha⟩
  rw [Draft.read, ← text_stringSchema, hsource]
  exact hd

/-- **Defaults of strings are the texts that they encode**: wherever a string is given a quoted
    text as its default, the default is that text, and a message with such a field compiles. -/
theorem text_of_quoted (s : String) :
    (∀ fs ext path source lib, Compiles fs ext path source lib → ∀ file m, lib.find? file = some m →
      ∀ raw, Draft.readFrom source file = some raw → ∀ x, raw.HasMessage x → ∀ f ∈ x.fields,
        f.type = .element (.scalar (.primitive .string)) → f.default = some (Text.quote s) →
          m.HasText x.name f.name s) ∧
      ∀ fs ext path message field, ∃ lib,
        (ofText fs ext path (stringMessage message field s)).result = .ok lib ∧
        ∃ m, lib.find? (Path.absolute path) = some m ∧ m.HasText message.text field.text s := by
  refine ⟨fun fs ext path source lib h file m hm raw hraw x hx f hf htype hdefault => ?_,
    fun fs ext path message field => ?_⟩
  · obtain ⟨final, hsystem, -⟩ := h.system
    exact hsystem.hasText hm hraw hx hf htype hdefault
  · obtain ⟨a, hread, hmessage, hfield, htype, hdefault⟩ :=
      read_stringMessage (Path.absolute path) message field s
    have hvalue : a.default.map (fun text => DefaultValue.readPrimitive text a.type) =
        (some (DefaultValue.text s)).map .ok := by
      rw [hdefault, htype, map_some, DefaultValue.readPrimitive_quote, map_some]
    obtain ⟨model, hbuilt⟩ := a.ofDraft_refined hvalue
    obtain ⟨lib, hlib⟩ := @exists_ofText fs ext path _ _ _ _ hread rfl a.refines hbuilt
    obtain ⟨final, hsystem, hfile⟩ := (Compiles.ofText hlib).system
    obtain ⟨m, hm⟩ := (contains_iff _ _).1 hfile
    refine ⟨lib, hlib, m, hm, ?_⟩
    rw [← hmessage, ← hfield]
    exact hsystem.hasText hm (readFrom_eq_some_iff.2 ⟨_, if_pos rfl, hread⟩)
      (x := a.theMessage) (Or.inl (mem_singleton_self _))
      (f := a.theField) (mem_singleton_self _) (by rw [Lone.theField, htype]) hdefault

/-- A text with quotes, escapes, a control character, a line separator and marks of the language. -/
def marks : String := "\"a\\b\"\n\x01\u2028 // /* \x7b ; \x7d"

theorem text_of_quoted_marks :
    ∃ lib m, (alone ("message message \x7b\nstring : string = " ++
        "\"\\\"a\\\\b\\\"\\n\\u0001\u2028 // /* \x7b ; \x7d\" ;\n\x7d")).result = .ok lib ∧
      lib.find? "/a.def" = some m ∧ m.HasText "message" "string" marks := by
  have htext : stringMessage Keyword.message.identifier Keyword.string.identifier marks =
      "message message \x7b\nstring : string = " ++
        "\"\\\"a\\\\b\\\"\\n\\u0001\u2028 // /* \x7b ; \x7d\" ;\n\x7d" := by decide +kernel
  have hfile : Path.absolute "/a.def" = "/a.def" := by decide +kernel
  obtain ⟨hdefaults, hcompiles⟩ := text_of_quoted marks
  obtain ⟨lib, hlib, m, hm, -⟩ := hcompiles ⟨.empty, [], fun _ => ""⟩ ".def" "/a.def"
    Keyword.message.identifier Keyword.string.identifier
  obtain ⟨a, hread, hmessage, hfield, htype, hdefault⟩ :=
    read_stringMessage (Path.absolute "/a.def") Keyword.message.identifier
      Keyword.string.identifier marks
  have hhas :=
    hdefaults _ _ _ _ _ (.ofText hlib) _ _ hm a.raw (readFrom_eq_some_iff.2 ⟨_, if_pos rfl, hread⟩)
    a.theMessage (Or.inl (mem_singleton_self _)) a.theField (mem_singleton_self _)
    (by rw [Lone.theField, htype]) hdefault
  have hname : a.theMessage.name = "message" := hmessage.trans (by decide)
  have hlabel : a.theField.name = "string" := hfield.trans (by decide)
  rw [hname, hlabel] at hhas
  rw [htext] at hlib
  rw [hfile] at hm
  exact ⟨lib, m, hlib, hm, hhas⟩

end Compilation

end MessageSchema
