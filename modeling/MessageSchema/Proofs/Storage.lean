/-
  The storage of flags.

  The numbers of a set of flags are within 64 bits, and its width is the least one that
  holds them all.  The width does not see the defaults: an integer in one is only held
  against the greatest number of 64 bits, and the name of a flag stands for its number,
  also if that is negative.
-/
import MessageSchema.Proofs.Comments
import MessageSchema.Proofs.FieldTrees
import MessageSchema.Proofs.Flags
import MessageSchema.Proofs.Lineages

namespace MessageSchema

open List Option Model.Binder

/-! ## Widths -/

namespace Model

variable {numbers : List Int} {n : Int}

theorem foldl_max_natAbs_le_iff {a b : Nat} :
    numbers.foldl (fun m n => max m n.natAbs) a ≤ b ↔ a ≤ b ∧ ∀ n ∈ numbers, n.natAbs ≤ b := by
  induction numbers generalizing a with
  | nil => simp
  | cons n ns ih =>
    rw [foldl_cons, ih, Nat.max_le, forall_mem_cons, and_assoc]

theorem natAbs_lt_of_inRange (h : EnumKind.inRange n = true) : n.natAbs < 2 ^ 64 := by
  rw [EnumKind.inRange, Bool.and_eq_true, decide_eq_true_eq, decide_eq_true_eq] at h
  have hmin : EnumKind.minNumber = -9223372036854775808 := rfl
  have hmax : EnumKind.maxNumber = 18446744073709551615 := rfl
  omega

/-- **A width holds the numbers that it is made for**, if they are within 64 bits. -/
theorem natAbs_lt_of_mem {wide : Bool} (h : ∀ n ∈ numbers, EnumKind.inRange n = true)
    (hn : n ∈ numbers) : n.natAbs < 2 ^ storageWidth wide numbers := by
  have hle :=
    (foldl_max_natAbs_le_iff.1 (le_refl (numbers.foldl (fun m n => max m n.natAbs) 0))).2 n hn
  have htop : numbers.foldl (fun m n => max m n.natAbs) 0 ≤ 2 ^ 64 - 1 :=
    foldl_max_natAbs_le_iff.2 ⟨Nat.zero_le _,
      fun k hk => Nat.le_pred_of_lt (natAbs_lt_of_inRange (h k hk))⟩
  rw [storageWidth]
  generalize numbers.foldl (fun m n => max m n.natAbs) 0 = top at hle htop
  -- what is chosen from the numbers holds them, and a wide enumeration is no narrower
  have hchosen : top < 2 ^ (if top < Nat.pow 2 8 then 8 else if top < Nat.pow 2 16 then 16
      else if top < Nat.pow 2 32 then 32 else 64) := by
    split
    · assumption
    · split
      · assumption
      · split
        · assumption
        · omega
  refine hle.trans_lt (hchosen.trans_le (Nat.pow_le_pow_right (by decide) ?_))
  cases wide with
  | false => exact le_refl _
  | true => exact le_max_left _ _

theorem inRange_of_mem_mergeFrom {renumber : Bool} {taken used : List String}
    {previous : Option Int} {own : List Draft.EnumValue} {v : EnumValue}
    (hv : v ∈ (mergeFrom renumber taken used previous own).values) :
    EnumKind.inRange v.number = true := by
  induction own generalizing used previous with
  | nil => cases hv
  | cons x xs ih =>
    rw [mergeFrom] at hv
    split at hv
    · exact ih hv
    · generalize (if x.explicit || !renumber then x.number
        else EnumKind.closed.nextNumber previous) = n at hv
      dsimp only at hv
      split at hv
      · next hrange =>
        rcases mem_cons.1 hv with rfl | hv
        · exact hrange
        · exact ih hv
      · exact ih hv

theorem inRange_of_mem_mergeValues {renumber : Bool} {inherited : List EnumValue}
    {own : List Draft.EnumValue} (h : ∀ v ∈ inherited, EnumKind.inRange v.number = true) :
    ∀ v ∈ (mergeValues renumber inherited own).values, EnumKind.inRange v.number = true := by
  intro v hv
  rcases mem_append.1 hv with hv | hv
  · obtain ⟨x, hx, rfl⟩ := mem_map.1 hv
    exact h x hx
  · exact inRange_of_mem_mergeFrom hv

end Model

/-! ## Flags together -/

/-- A number is one of so many bits. -/
def Flags.Fits (width : Nat) (n : Int) : Prop := 0 ≤ n ∧ n.toNat < 2 ^ width

instance (width : Nat) (n : Int) : Decidable (Flags.Fits width n) :=
  inferInstanceAs (Decidable (_ ∧ _))

/-- **Flags together fit just if each does.** -/
theorem Flags.fits_union {width : Nat} {a b : Int} :
    Fits width (union a b) ↔ Fits width a ∧ Fits width b := by
  cases a with
  | ofNat a =>
    cases b with
    | ofNat b =>
      simp only [Fits, union, Int.ofNat_eq_natCast, Int.toNat_natCast, Int.natCast_nonneg, true_and]
      constructor
      · intro h
        exact ⟨Nat.left_le_or.trans_lt h, Nat.right_le_or.trans_lt h⟩
      · rintro ⟨ha, hb⟩
        exact Nat.or_lt_two_pow ha hb
    | negSucc b => simp [Fits, union]
  | negSucc a => cases b <;> simp [Fits, union]

namespace DefaultValue

open Model (EnumValue)

variable {options : String} {values : List EnumValue} {width : Nat}

/-- What is said for a part of a default to fit: an integer is of so many bits, and a flag
    that is named is not negative. -/
structure PartFits (options : String) (values : List EnumValue) (width : Nat) (part : String) :
    Prop where
  number : ∀ n, Numeral.integer? part = some n → n.toNat < 2 ^ width
  flag : ∀ v, Numeral.integer? part = none → findValue? part options values = some v → 0 ≤ v.number

/-- **One part fits** just if its integer does, or the flag that it names is not negative. -/
theorem fits_readFlag (hvalues : ∀ v ∈ values, v.number.natAbs < 2 ^ width) {part : String}
    {names : List String} {k : Int} (h : readFlag options values part = .ok (names, k)) :
    Flags.Fits width k ↔ PartFits options values width part := by
  rw [readFlag] at h
  split at h
  · next n hn =>
    split at h
    · next hrange =>
      cases h
      simp only [Bool.and_eq_true, decide_eq_true_eq] at hrange
      refine ⟨fun hfits => ⟨fun m hm => ?_, fun v hnone => ?_⟩,
        fun hfits => ⟨hrange.1, hfits.number _ hn⟩⟩
      · rw [← some.inj (hn.symm.trans hm)]
        exact hfits.2
      · cases hn.symm.trans hnone
    · cases h
  · next hn =>
    split at h
    · next v hv =>
      cases h
      refine ⟨fun hfits => ⟨fun m hm => ?_, fun w _ hw => ?_⟩, fun hfits => ?_⟩
      · cases hn.symm.trans hm
      · rw [← some.inj (hv.symm.trans hw)]
        exact hfits.1
      · have hlt := hvalues v (mem_of_find?_eq_some (findValue?_eq_some_iff.1 hv).2)
        have hnonneg := hfits.flag v hn hv
        exact ⟨hnonneg, by omega⟩
    · cases h

/-- **A default of flags fits just if all its parts do.** -/
theorem fits_readFlags (hvalues : ∀ v ∈ values, v.number.natAbs < 2 ^ width) {parts : List String}
    {r : List String × Int} (h : readFlags options values parts = .ok r) :
    Flags.Fits width r.2 ↔ ∀ part ∈ parts, PartFits options values width part := by
  induction parts generalizing r with
  | nil =>
    cases h
    exact ⟨fun _ _ hp => absurd hp not_mem_nil, fun _ => ⟨Int.le_refl 0, Nat.two_pow_pos width⟩⟩
  | cons part parts ih =>
    obtain ⟨⟨names, k⟩, hone, h⟩ := bind_eq_ok h
    obtain ⟨⟨more, l⟩, hrest, h⟩ := bind_eq_ok h
    cases h
    rw [forall_mem_cons, Flags.fits_union, fits_readFlag hvalues hone, ih hrest]

end DefaultValue

/-! ## The values of enumerations -/

/-- The values that an enumeration inherits: those of what its parent refers to. -/
def Library.Inherits (lib : Library) (f : String) (e : Model.Enumeration)
    (inherited : List Model.EnumValue) : Prop :=
  (e.parent = none ∧ inherited = []) ∨ ∃ ref parent, e.parent = some ref ∧
    lib.resolve? f ref = some (.enumeration parent) ∧ inherited = parent.values

namespace System

variable {ext : String} {source : String → Option String} {final : String → Option Draft}
  {lib : Library} (h : System ext source final lib) {f : String}
include h

variable {root m : Model} {d : Draft} {e : Model.Enumeration}

/-- **An enumeration of a model** has the values that it inherits before its own. -/
theorem exists_inherited (hroot : lib.find? f = some root) (hm : m ∈ lib.reachable f)
    (hd : Model.Models lib d m) (he : .enumeration e ∈ m.entities) :
    ∃ x inherited, (Model.Index.ofDraft d).declared.find? e.qualified = some (.enumeration x) ∧
      x.kind = e.kind ∧ lib.Inherits f e inherited ∧
        Model.mergeValues (x.kind ≠ .flags) inherited x.values = { values := e.values } := by
  have hown : m.own? e.qualified = some (.enumeration e) := by
    rw [Model.entities_eq hd.nodup_entities] at he
    exact hd.own?_iff.2 ⟨he, rfl⟩
  obtain ⟨x, inherited, hx, hkind, hhands, hmerge⟩ := hd.exists_inherited hown
  refine ⟨x, inherited, hx, hkind, ?_, hmerge⟩
  cases href : e.parent with
  | none =>
    rw [href] at hhands
    cases hhands
    exact .inl ⟨href, rfl⟩
  | some ref =>
    obtain ⟨m', hm', parent, hmem, -, hresolve⟩ := h.exists_parent_of_enumeration hroot hm he href
    rw [href] at hhands
    exact .inr ⟨ref, parent, href, hresolve, h.eq_of_hands hm hroot hd hown href hresolve hhands⟩

/-- **What putting values behind inherited ones preserves** holds of the values of every
    enumeration, along all its ancestors. -/
theorem forall_values {P : List Model.EnumValue → Prop} (hnil : P [])
    (hmerge :
      ∀ (renumber : Bool) (inherited values : List Model.EnumValue) (own : List Draft.EnumValue),
      P inherited → Model.mergeValues renumber inherited own = { values } → P values)
    (hroot : lib.find? f = some root) (hm : m ∈ lib.reachable f)
    (he : .enumeration e ∈ m.entities) : P e.values := by
  generalize hentity : Model.Entity.enumeration e = entity at he
  induction entity using (h.wellFounded_isParent hroot).induction generalizing m e with
  | h entity ih =>
    subst hentity
    obtain ⟨d, hd⟩ := h.models (h.mem_reachable hm).2
    obtain ⟨x, inherited, -, -, hinherits, hvalues⟩ := h.exists_inherited hroot hm hd he
    refine hmerge _ inherited _ x.values ?_ hvalues
    rcases hinherits with ⟨-, rfl⟩ | ⟨ref, parent, href, hresolve, rfl⟩
    · exact hnil
    · obtain ⟨m', hm', parent', hmem, -, hresolve'⟩ :=
        h.exists_parent_of_enumeration hroot hm he href
      obtain rfl := Model.Entity.enumeration.inj (some.inj (hresolve.symm.trans hresolve'))
      exact ih _ ⟨m, hm, he, ref, href, hresolve⟩ hm' rfl hmem

/-- **The numbers of an enumeration are within 64 bits**, those that it inherits included. -/
theorem inRange_of_mem_values (hroot : lib.find? f = some root) (hm : m ∈ lib.reachable f)
    (he : .enumeration e ∈ m.entities) : ∀ v ∈ e.values, EnumKind.inRange v.number = true := by
  refine h.forall_values (P := fun values => ∀ v ∈ values, EnumKind.inRange v.number = true)
    (by simp) ?_ hroot hm he
  intro renumber inherited values own hinherited hvalues
  have hall := @Model.inRange_of_mem_mergeValues renumber inherited own hinherited
  rwa [hvalues] at hall

/-- **The values that defaults are read with** are those of the enumeration that the type
    refers to. -/
theorem exists_enumeration_of_puts (hm : lib.find? f = some m) (hd : Model.Models lib d m)
    {n : Draft.TypeName} {ref : TypeRef} (hn : (Model.binderOf lib d m.imports).Puts n ref)
    (hkind : ref.kind = .enumeration ∨ ref.kind = .options) :
    ∃ m' ∈ lib.reachable f, ∃ e, m'.own? ref.name = some (.enumeration e) ∧
      lib.resolve? f ref = some (.enumeration e) ∧
      (Model.binderOf lib d m.imports).valuesOf (Model.enumsOf lib d m.imports) ref.name =
        e.values := by
  obtain ⟨p, hp, -, hpkind⟩ := h.resolves_of_puts hm hd hn
  obtain ⟨m', hm', hpown⟩ := (h.lookup?_iff hm).1 (filter_eq_some_iff.1 hp).1
  cases p with
  | message | compound => rcases hkind with hk | hk <;> cases hpkind.trans hk
  | enumeration e =>
    refine ⟨m', hm', e, hpown, hp, ?_⟩
    obtain ⟨-, hname, ⟨x, hx, hxkind⟩ | ⟨hnone, e', he', hekind⟩⟩ := hn.cases
    · -- one of the file itself
      obtain ⟨y, hy, hykind⟩ := hd.own?_of_declared hx
      rw [← hname] at hy
      obtain ⟨hresolve, -⟩ :=
        h.resolve?_of_own? hm (h.mem_reachable_self hm) hy (hykind.trans hxkind.symm)
      cases hresolve.symm.trans hp
      obtain ⟨-, -, -, z, -, -, -, hbecomes⟩ := hd.becomes_of_own? hy
      cases hbecomes with
      | enumeration hresult =>
        rw [valuesOf, show (Model.enumsOf lib d m.imports).find? ref.name = some e from hresult]
    · -- an imported one, so that no finished one has the name
      have hfinished : (Model.enumsOf lib d m.imports).find? ref.name = none := by
        cases hfind : (Model.enumsOf lib d m.imports).find? ref.name with
        | none => rfl
        | some result =>
          obtain ⟨x, hx, -⟩ := (fit_enumerations _).1 _ _ hfind
          rw [hname] at hx
          cases hnone.symm.trans hx
      rw [← hname] at he'
      obtain ⟨m'', hm'', hown⟩ := exists_of_findSome?_eq_some he'
      obtain ⟨hresolve, -⟩ :=
        h.resolve?_of_own? hm (h.mem_reachable_of_imported hm hm'') hown hekind.symm
      cases hresolve.symm.trans hp
      rw [valuesOf, hfinished, importedValues, he']
      rfl

end System

/-! ## Defaults of flags -/

theorem Draft.FieldType.Bound.exists_puts {b : Model.Binder} {t : Draft.FieldType} {ref : TypeRef}
    (h : t.Bound b.Puts (fun _ => False) (.entity ref)) : ∃ n, b.Puts n ref := by
  cases h with
  | element h =>
    cases h with
    | inline hfalse => cases hfalse
    | scalar h =>
      cases h with
      | entity hputs => exact ⟨_, hputs⟩

namespace Compilation

/-- **Just when a default of flags fits its storage.**  The default of a field whose type is
    a set of flags is read from a text that is written for the field, with the values of the
    set.  It fits the width of the set just if each integer in the text does and no flag that
    is named there is negative; the other flags are as wide as the set at most. -/
theorem flagsFit_of_compiles {fs : FileSystem} {ext path : String} {source : String → Option String}
    {lib : Library} (h : Compiles fs ext path source lib) {m : Model}
    (hm : m ∈ lib.reachable (Path.absolute path)) {ns : Model.Namespace} (hns : ns ∈ m.namespaces)
    {M : Model.Message} (hM : M ∈ ns.messages) {F : Model.Field} (hF : F ∈ M.fields) {q : String}
    (htype : F.type = .entity ⟨.options, q⟩) {D : DefaultValue} (hD : F.default = some D) :
    ∃ e f text names n, lib.resolve? m.file ⟨.options, q⟩ = some (.enumeration e) ∧
      Written source m.file M.name f ∧ f.name = F.name ∧ f.default = some text ∧
        D = .flags names n ∧
      DefaultValue.read (fun _ => e.values) text F.type = .ok D ∧
      (∀ v ∈ e.values, 0 ≤ v.number → Flags.Fits e.width v.number) ∧
      (Flags.Fits e.width n ↔
        ∀ part ∈ DefaultValue.flagParts text, DefaultValue.PartFits q e.values e.width part) := by
  obtain ⟨final, hsys, -⟩ := h.system
  obtain ⟨-, hfind⟩ := hsys.mem_reachable hm
  obtain ⟨d, hd, hwritten⟩ := hsys.exists_written hfind
  obtain ⟨f, f', hf, hpassed, hname, hbound, hdefault⟩ := hwritten ns hns M hM F hF
  rw [htype] at hbound hdefault
  obtain ⟨t, hputs⟩ := hbound.exists_puts
  obtain ⟨m', hm', e, hown, hresolve, hvalues⟩ :=
    hsys.exists_enumeration_of_puts hfind hd hputs (Or.inr rfl)
  rw [hD] at hdefault
  obtain ⟨text, htext, hread⟩ := map_eq_some_iff.1 hdefault
  obtain ⟨⟨names, n⟩, hflags, hD'⟩ := bind_eq_ok hread
  cases hD'
  rw [hvalues] at hflags
  -- the width is made for the numbers of the set
  obtain ⟨d', hd'⟩ := hsys.models (hsys.mem_reachable hm').2
  have hmem : .enumeration e ∈ m'.entities := (Table.mem_values_iff _ _).2 ⟨_, hown⟩
  have hwidth : ∀ v ∈ e.values, v.number.natAbs < 2 ^ e.width := by
    intro v hv
    obtain ⟨x, -, -, hfin⟩ := hd'.exists_finishes hown
    rw [hfin.width]
    refine Model.natAbs_lt_of_mem (fun k hk => ?_) (mem_map_of_mem hv)
    obtain ⟨w, hw, rfl⟩ := mem_map.1 hk
    exact hsys.inRange_of_mem_values hfind hm' hmem w hw
  refine ⟨e, f, text, names, n, hresolve, hf, hname.symm ▸ hpassed.name.symm,
    hpassed.default ▸ htext, rfl, ?_, fun v hv hnonneg => ⟨hnonneg, ?_⟩,
    DefaultValue.fits_readFlags hwidth hflags⟩
  · rw [htype]
    simp only [DefaultValue.read, hflags, bind, Except.bind, pure, Except.pure]
  · have hlt := hwidth v hv
    omega

/-- The set that a field of flags refers to, with its width, and the default of the field. -/
def flagDefault? (lib : Library) (m : Model) (F : Model.Field) :
    Option (String × Nat × List String × Int) :=
  match F.type, F.default with
  | .entity ⟨.options, q⟩, some (.flags names n) =>
    (lib.enumeration? m.file q).map fun e => (q, e.width, names, n)
  | _, _ => none

/-- The defaults of flags in a file and what it imports. -/
def flagDefaults (lib : Library) (file : String) : List (String × Nat × List String × Int) :=
  (lib.reachable file).flatMap fun m => m.namespaces.flatMap fun ns => ns.messages.flatMap fun M =>
    M.fields.filterMap (flagDefault? lib m)

theorem exists_of_mem_flagDefaults {lib : Library} {file q : String} {width : Nat}
    {names : List String} {n : Int} (h : (q, width, names, n) ∈ flagDefaults lib file) :
    ∃ m ∈ lib.reachable file, ∃ ns ∈ m.namespaces, ∃ M ∈ ns.messages, ∃ F ∈ M.fields,
      F.type = .entity ⟨.options, q⟩ ∧ F.default = some (.flags names n) ∧
        ∃ e, lib.enumeration? m.file q = some e ∧ e.width = width := by
  obtain ⟨m, hm, h⟩ := mem_flatMap.1 h
  obtain ⟨ns, hns, h⟩ := mem_flatMap.1 h
  obtain ⟨M, hM, h⟩ := mem_flatMap.1 h
  obtain ⟨F, hF, h⟩ := mem_filterMap.1 h
  refine ⟨m, hm, ns, hns, M, hM, F, hF, ?_⟩
  rw [flagDefault?] at h
  split at h
  · next htype hdefault =>
    obtain ⟨e, he, heq⟩ := map_eq_some_iff.1 h
    cases heq
    exact ⟨htype, hdefault, e, he, rfl⟩
  · cases h

theorem flagsFit_mixed : ∃ lib m ns M F e, ∃ (f : Draft.Field) (text : String),
    (alone "options O\x7bA=256\x7dmessage M\x7bo:O=A|7\x7d").result = .ok lib ∧
      m ∈ lib.reachable "/a.def" ∧
    ns ∈ m.namespaces ∧ M ∈ ns.messages ∧ F ∈ M.fields ∧ F.type = .entity ⟨.options, "a::O"⟩ ∧
    F.default = some (.flags ["A"] 263) ∧ lib.resolve? m.file ⟨.options, "a::O"⟩ =
      some (.enumeration e) ∧
    e.width = 16 ∧ f.name = F.name ∧ f.default = some text ∧
    DefaultValue.read (fun _ => e.values) text F.type = .ok (.flags ["A"] 263) ∧
    ∀ part ∈ DefaultValue.flagParts text, DefaultValue.PartFits "a::O" e.values 16 part := by
  obtain ⟨lib, hlib, hdefaults⟩ := exists_of_map_toOption
    (x := (alone "options O\x7bA=256\x7dmessage M\x7bo:O=A|7\x7d").result)
    (p := (flagDefaults · "/a.def")) (b := [("a::O", 16, ["A"], 263)]) (by decide +kernel)
  obtain ⟨m, hm, ns, hns, M, hM, F, hF, htype, hdefault, e', he', hwidth⟩ :=
    exists_of_mem_flagDefaults (hdefaults ▸ mem_singleton_self _)
  have hpath : Path.absolute "/a.def" = "/a.def" := by decide +kernel
  obtain ⟨e, f, text, names, n, hresolve, -, hname, htext, hflags, hread, -, hfits⟩ :=
    flagsFit_of_compiles (Compiles.ofText hlib) (by rw [hpath]; exact hm) hns hM hF htype hdefault
  cases hflags
  obtain rfl : e' = e := by
    obtain ⟨x, hx, hxe⟩ := bind_eq_some_iff.1 he'
    obtain rfl := some.inj (hx.symm.trans (filter_eq_some_iff.1 hresolve).1)
    exact (some.inj hxe).symm
  rw [hwidth] at hfits
  exact ⟨lib, m, ns, M, F, e', f, text, hlib, hm, hns, hM, hF, htype, hdefault, hresolve, hwidth,
    hname, htext, hread, hfits.1 (by decide)⟩

theorem alone_wideFlags :
    ∃ lib, (alone "options O\x7bA=-1\x7dmessage M\x7ba:O=256;b:O=A\x7d").result = .ok lib ∧
    flagDefaults lib "/a.def" = [("a::O", 8, [], 256), ("a::O", 8, ["A"], -1)] ∧
    ¬ Flags.Fits 8 256 ∧ ¬ Flags.Fits 8 (-1) := by
  obtain ⟨lib, hlib, hdefaults⟩ := exists_of_map_toOption
    (x := (alone "options O\x7bA=-1\x7dmessage M\x7ba:O=256;b:O=A\x7d").result)
    (p := (flagDefaults · "/a.def"))
    (b := [("a::O", 8, [], 256), ("a::O", 8, ["A"], -1)]) (by decide +kernel)
  exact ⟨lib, hlib, hdefaults, by decide, by decide⟩

end Compilation

end MessageSchema
