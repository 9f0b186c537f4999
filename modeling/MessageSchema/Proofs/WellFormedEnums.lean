/-
  Well-formed enumerations.

  In a compilation the values of every enumeration have names of their own and numbers within
  64 bits, and its width is the least that holds them all.  Nothing is bent to get there: every
  list of values that is written is the list of an enumeration, with just the names that are
  written, and with numbers that count on as integers do.
-/
import MessageSchema.Proofs.Storage
import MessageSchema.Proofs.ValueLists
import Mathlib.Order.Bounds.Basic

namespace MessageSchema

open List

/-! ## Counting -/

namespace EnumKind

/-- A number comes next: zero first and then one more for an enumeration, and the least power
    of two above the number before for a set of flags. -/
inductive IsNext : EnumKind → Option Int → Int → Prop
  | first {kind} : kind ≠ .flags → IsNext kind none 0
  | succ {kind p} : kind ≠ .flags → IsNext kind (some p) (p + 1)
  | flag {previous n} : IsLeast {k : Int | (∃ i : Nat, k = (2 ^ i : Nat)) ∧ ∀ p ∈ previous, p < k}
    n → IsNext .flags previous n

/-- The widths that an enumeration may have. -/
def widths : EnumKind → List Nat
  | extensible => [32, 64]
  | closed | flags => [8, 16, 32, 64]

/-- Numbers of values, after the number `previous`: those that are written stand, and the
    others come next. -/
inductive Counted (kind : EnumKind) : Option Int → List (Option Int) → List Int → Prop
  | nil {previous} : Counted kind previous [] []
  | written {previous n ws ns} : Counted kind (some n) ws ns →
    Counted kind previous (some n :: ws) (n :: ns)
  | next {previous n ws ns} : kind.IsNext previous n → Counted kind (some n) ws ns →
      Counted kind previous (none :: ws) (n :: ns)

theorem isLeast_nextFlag (previous : Option Int) :
    IsLeast {k : Int | (∃ i : Nat, k = (2 ^ i : Nat)) ∧ ∀ p ∈ previous, p < k}
      (nextFlag previous) := by
  -- no power of two is below one
  have hone : ∀ k : Int, (∃ i : Nat, k = (2 ^ i : Nat)) → 1 ≤ k := by
    rintro k ⟨i, rfl⟩
    exact_mod_cast Nat.one_le_two_pow
  cases previous with
  | none => exact ⟨⟨⟨0, rfl⟩, by simp⟩, fun k hk => hone k hk.1⟩
  | some p =>
    rw [nextFlag]
    split
    · next hp => exact ⟨⟨⟨0, rfl⟩, by simpa using hp⟩, fun k hk => hone k hk.1⟩
    · next hp =>
      obtain ⟨n, rfl⟩ := Int.eq_ofNat_of_zero_le (show 0 ≤ p by omega)
      have hpow : Int.pow 2 (n.log2 + 1) = ((2 ^ (n.log2 + 1) : Nat) : Int) :=
        (Int.natCast_pow 2 _).symm
      rw [Int.toNat_natCast, hpow]
      refine ⟨⟨⟨_, rfl⟩, ?_⟩, ?_⟩
      · rintro p ⟨⟩
        exact_mod_cast Nat.lt_log2_self
      · rintro k ⟨⟨i, rfl⟩, hlt⟩
        have hlt : n < 2 ^ i := by exact_mod_cast hlt _ rfl
        exact_mod_cast Nat.pow_le_pow_right (by decide) ((Nat.log2_lt (by omega)).2 hlt)

theorem isNext_nextNumber (kind : EnumKind) (previous : Option Int) :
    kind.IsNext previous (kind.nextNumber previous) := by
  cases kind with
  | flags => exact .flag (isLeast_nextFlag previous)
  | closed | extensible =>
    cases previous with
    | none => exact .first (by decide)
    | some p => exact .succ (by decide)

end EnumKind

/-- **Values are counted when they are read.** -/
theorem Draft.counted_numberFrom {kind : EnumKind} {file home : String} {previous : Option Int}
    {raws : List RawValue} {values : List EnumValue}
    (h : numberFrom kind file home previous raws = .ok values) :
    values.map (·.name) = raws.map (·.name) ∧
      kind.Counted previous (raws.map (·.number)) (values.map (·.number)) := by
  induction raws generalizing previous values with
  | nil =>
    cases h
    exact ⟨rfl, .nil⟩
  | cons raw raws ih =>
    obtain ⟨-, rest, hrest, rfl⟩ := (numberFrom_cons_eq_ok_iff rfl).1 h
    obtain ⟨hnames, hcounted⟩ := ih hrest
    refine ⟨by rw [map_cons, map_cons, hnames], ?_⟩
    rw [map_cons, map_cons]
    cases hnumber : raw.number with
    | none =>
      rw [hnumber] at hcounted
      exact .next (kind.isNext_nextNumber previous) hcounted
    | some n =>
      rw [hnumber] at hcounted
      exact .written hcounted

namespace Model

/-! ## Values behind inherited ones -/

section
variable {kind : EnumKind} {file home : String} {raws : List Draft.RawValue}
  {own : List Draft.EnumValue} {inherited values : List EnumValue}

/-- **Values are counted behind inherited ones**, on from the last of them. -/
theorem counted_of_merge (hown : Draft.number kind file home raws = .ok own)
    (h : mergeValues (kind ≠ .flags) inherited own = { values })
    (hflags : kind = .flags → inherited = []) :
    values.map (·.name) = inherited.map (·.name) ++ raws.map (·.name) ∧
      ∃ numbers, kind.Counted (inherited.getLast?.map (·.number)) (raws.map (·.number)) numbers ∧
        values.map (·.number) = inherited.map (·.number) ++ numbers := by
  by_cases hkind : kind = .flags
  · -- flags inherit nothing and keep the numbers that they have
    obtain rfl := hflags hkind
    obtain ⟨hvalues, hduplicates, hoverflows⟩ := Merged.mk.inj h
    have hkept := kept_mergeFrom hduplicates hoverflows
    rw [show (mergeFrom _ _ _ _ _).values = values from hvalues] at hkept
    have hnames : own.map (·.name) = values.map (·.name) :=
      map_eq_of_forall₂ (hkept.imp fun _ _ hv => hv.name.symm)
    have hnumbers : own.map (·.number) = values.map (·.number) :=
      map_eq_of_forall₂ (hkept.imp fun _ _ hv => (hv.number (.inr hkind)).symm)
    obtain ⟨hnames', hcounted⟩ := Draft.counted_numberFrom hown
    exact ⟨hnames.symm.trans hnames', _, hcounted, hnumbers.symm⟩
  · obtain ⟨below, hbelow, rfl⟩ := mergeValues_eq hkind hown h
    rw [← Draft.numberFrom_eq_closed hkind] at hbelow
    obtain ⟨hnames, hcounted⟩ := Draft.counted_numberFrom hbelow
    refine ⟨?_, _, hcounted, ?_⟩
    · rw [map_append, map_map, map_map, ← hnames]
      rfl
    · rw [map_append, map_map, map_map]
      rfl

theorem nodup_mergeFrom {renumber : Bool} {taken used : List String} {previous : Option Int} :
    ((mergeFrom renumber taken used previous own).values.map (·.name)).Nodup ∧
      ∀ v ∈ (mergeFrom renumber taken used previous own).values, v.name ∉ taken ∧
        v.name ∉ used := by
  induction own generalizing used previous with
  | nil => exact ⟨nodup_nil, by simp [mergeFrom]⟩
  | cons x xs ih =>
    rw [mergeFrom]
    split
    · exact ih
    · next hfree =>
      simp only [Bool.or_eq_true, contains_iff_mem, not_or] at hfree
      generalize (if x.explicit || !renumber then x.number
        else EnumKind.closed.nextNumber previous) = n
      dsimp only
      split
      · obtain ⟨hnodup, hnew⟩ := @ih (x.name :: used) (some n)
        refine ⟨?_, forall_mem_cons.2 ⟨hfree, fun v hv => ?_⟩⟩
        · refine nodup_cons.2 ⟨fun hmem => ?_, hnodup⟩
          obtain ⟨v, hv, hname⟩ := mem_map.1 hmem
          exact (hnew v hv).2 (hname ▸ mem_cons_self)
        · exact ⟨(hnew v hv).1, fun hmem => (hnew v hv).2 (mem_cons_of_mem _ hmem)⟩
      · obtain ⟨hnodup, hnew⟩ := @ih (x.name :: used) previous
        exact ⟨hnodup,
          fun v hv => ⟨(hnew v hv).1, fun hmem => (hnew v hv).2 (mem_cons_of_mem _ hmem)⟩⟩

/-- **No name is taken twice**, and none of an inherited value. -/
theorem nodup_mergeValues {renumber : Bool} (hinherited : (inherited.map (·.name)).Nodup)
    (h : mergeValues renumber inherited own = { values }) : (values.map (·.name)).Nodup := by
  obtain ⟨rfl, -, -⟩ := Merged.mk.inj h
  obtain ⟨hnodup, hnew⟩ :=
    @nodup_mergeFrom own renumber (inherited.map (·.name)) [] (inherited.getLast?.map (·.number))
  rw [map_append, map_map]
  refine nodup_append'.2 ⟨hinherited, hnodup, fun n hn hn' => ?_⟩
  obtain ⟨v, hv, rfl⟩ := mem_map.1 hn'
  exact (hnew v hv).1 hn

end

/-! ## Widths -/

/-- **The width of a list of numbers** within 64 bits is the least that holds them all. -/
theorem isLeast_storageWidth {kind : EnumKind} {numbers : List Int}
    (h : ∀ n ∈ numbers, EnumKind.inRange n = true) :
    IsLeast {w | w ∈ kind.widths ∧ ∀ n ∈ numbers, n.natAbs < 2 ^ w}
      (storageWidth (kind = .extensible) numbers) := by
  -- the least of all widths, before an open enumeration is widened
  have hchosen : ∀ top : Nat, ∃ c ∈ [8, 16, 32, 64],
      (if top < Nat.pow 2 8 then 8 else if top < Nat.pow 2 16 then 16
      else if top < Nat.pow 2 32 then 32 else 64) = c ∧ ∀ w ∈ [8, 16, 32, 64], top <
      2 ^ w → c ≤ w := by
    intro top
    simp only [Nat.pow_eq, forall_mem_cons]
    split
    · exact ⟨8, by decide, rfl, by simp⟩
    · split
      · exact ⟨16, by decide, rfl, by simp; omega⟩
      · split
        · exact ⟨32, by decide, rfl, by simp; omega⟩
        · exact ⟨64, by decide, rfl, by simp; omega⟩
  refine ⟨⟨?_, fun n hn => natAbs_lt_of_mem h hn⟩, ?_⟩
  · rw [storageWidth]
    obtain ⟨c, hc, heq, -⟩ := hchosen (numbers.foldl (fun m n => max m n.natAbs) 0)
    simp only [heq]
    cases kind with
    | closed | flags => exact hc
    | extensible =>
      have hwide : ∀ c ∈ [8, 16, 32, 64], max c 32 ∈ EnumKind.extensible.widths := by decide
      exact hwide c hc
  · rintro w ⟨hw, hall⟩
    have htop : numbers.foldl (fun m n => max m n.natAbs) 0 ≤ 2 ^ w - 1 :=
      foldl_max_natAbs_le_iff.2 ⟨Nat.zero_le _, fun n hn => Nat.le_pred_of_lt (hall n hn)⟩
    have hpos := Nat.two_pow_pos w
    obtain ⟨c, -, heq, hleast⟩ := hchosen (numbers.foldl (fun m n => max m n.natAbs) 0)
    rw [storageWidth]
    simp only [heq]
    cases kind with
    | closed | flags => exact hleast w hw (by omega)
    | extensible =>
      have hwide : ∀ w ∈ [32, 64], w ∈ [8, 16, 32, 64] ∧ 32 ≤ w := by decide
      obtain ⟨hmem, hle⟩ := hwide w hw
      exact max_le (hleast w hmem (by omega)) hle

/-- The values of an enumeration have names of their own and numbers within 64 bits, and its
    width is the least that holds the magnitudes of all. -/
structure Enumeration.WellFormed (e : Enumeration) : Prop where
  names : (e.values.map (·.name)).Nodup
  numbers : ∀ v ∈ e.values, -((2 ^ 63 : Nat) : Int) ≤ v.number ∧ v.number < ((2 ^ 64 : Nat) : Int)
  width : IsLeast {w | w ∈ e.kind.widths ∧ ∀ v ∈ e.values, v.number.natAbs < 2 ^ w} e.width

end Model

/-! ## Lists of values in texts -/

namespace Draft.Reader

/-- The number that is written for a value, if there is one and it is an integer. -/
def writtenNumber? (t : Tree) : Option Int :=
  (t.leaves .number).head?.bind fun l => Numeral.integer? l.image

variable {r : Reader}

theorem value_eq {t : Tree} {raw : RawValue} (h : r.value t = .ok raw) :
    raw.name = nameOf t ∧ raw.number = writtenNumber? t ∧
      ∀ l ∈ (t.leaves .number).head?, (Numeral.integer? l.image).isSome := by
  obtain ⟨number, hnumber, h⟩ := bind_eq_ok h
  cases h
  refine ⟨rfl, ?_⟩
  rw [numberOf] at hnumber
  rw [writtenNumber?]
  split at hnumber
  · next hnone =>
    cases hnumber
    rw [hnone]
    exact ⟨rfl, by simp⟩
  · next literal hsome =>
    rw [hsome]
    split at hnumber
    · cases hnumber
    · next n hn =>
      split at hnumber
      · cases hnumber
        exact ⟨hn.symm, by simp [hn]⟩
      · cases hnumber

/-- **The values of a list are read as they are written.** -/
theorem values_eq {t list : Tree} {raws : List RawValue} (h : r.values t = .ok raws)
    (hlist : t.find? .valueList = some list) :
    raws.map (·.name) = (list.all .value).map nameOf ∧
      raws.map (·.number) = (list.all .value).map writtenNumber? ∧
      ∀ v ∈ list.all .value, ∀ l ∈ (v.leaves .number).head?, (Numeral.integer? l.image).isSome := by
  rw [values, hlist] at h
  have hall := forall₂_of_mapM h
  refine ⟨(map_eq_of_forall₂ (hall.imp fun _ _ hv => (value_eq hv).1.symm)).symm,
    (map_eq_of_forall₂ (hall.imp fun _ _ hv => (value_eq hv).2.1.symm)).symm, fun v hv => ?_⟩
  obtain ⟨raw, -, hread⟩ := exists_right_of_mem hall hv
  exact (value_eq hread).2.2

end Draft.Reader

/-- **What is written is what there is**: an enumeration has the name, the kind and the parent
    of a tree in a text, and behind what it inherits the values that are listed there, with
    their names and with numbers that are counted on from the last inherited one. -/
structure Library.Realizes (lib : Library) (f : String) (t list : Tree) (e : Model.Enumeration) :
    Prop where
  name : ∀ n, t.find? .name = some n → e.name = n.image
  kind : e.kind = Draft.Reader.kindOf t
  parent : e.parent.isSome = (t.find? .qualifiedName).isSome
  values : ∃ inherited numbers, lib.Inherits f e inherited ∧
    e.values.map (·.name) = inherited.map (·.name) ++ (list.all .value).map Draft.Reader.nameOf ∧
    e.values.map (·.number) = inherited.map (·.number) ++ numbers ∧
    e.kind.Counted (inherited.getLast?.map (·.number))
    ((list.all .value).map Draft.Reader.writtenNumber?) numbers

namespace System

variable {ext : String} {source : String → Option String} {final : String → Option Draft}
  {lib : Library} (h : System ext source final lib) {f : String} {root m : Model}
  (hroot : lib.find? f = some root) (hm : m ∈ lib.reachable f)
include h hroot hm

/-- **Enumerations of a system are well formed.** -/
theorem wellFormed {e : Model.Enumeration} (he : .enumeration e ∈ m.entities) : e.WellFormed := by
  have hrange := h.inRange_of_mem_values hroot hm he
  refine ⟨?_, fun v hv => ?_, ?_⟩
  · refine h.forall_values (P := fun values => (values.map (·.name)).Nodup) nodup_nil ?_ hroot hm he
    exact fun _ _ _ _ hinherited hvalues => Model.nodup_mergeValues hinherited hvalues
  · have hv := hrange v hv
    rw [EnumKind.inRange, Bool.and_eq_true, decide_eq_true_eq, decide_eq_true_eq] at hv
    have hmin : EnumKind.minNumber = -9223372036854775808 := rfl
    have hmax : EnumKind.maxNumber = 18446744073709551615 := rfl
    omega
  · obtain ⟨d, hd⟩ := h.models (h.mem_reachable hm).2
    have hown : m.own? e.qualified = some (.enumeration e) := by
      rw [Model.entities_eq hd.nodup_entities] at he
      exact hd.own?_iff.2 ⟨he, rfl⟩
    obtain ⟨x, -, -, hfin⟩ := hd.exists_finishes hown
    rw [hfin.width, ← hfin.kind]
    have hleast :=
      @Model.isLeast_storageWidth e.kind (e.values.map (·.number)) (forall_mem_map.2 hrange)
    simpa only [forall_mem_map] using hleast

/-- **A declared enumeration that is spelled in a text** has just the values that are listed. -/
theorem realizes_of_spelled {d : Draft} (hd : Model.Models lib d m) {v : Draft.Visit}
    (hv : v ∈ d.walk) {y : Draft.Enumeration}
    (hy : .enumeration y ∈ Model.declarationsOf v.site.ns.scope) {r : Draft.Reader} {t list : Tree}
    (hlist : t.find? .valueList = some list) {x : Draft.Spelling} (hx : r.Yields t x)
    (hspelled : y.Spelled x) (hflags : x.kind = .flags → x.inherits = false) :
    ∃ e, .enumeration e ∈ m.entities ∧ lib.Realizes f t list e := by
  have hdeclared := Model.find?_declared hd.faultless hd.finished hv hy
  obtain ⟨entity, hown, -⟩ := hd.own?_of_declared hdeclared
  obtain ⟨-, -, -, z, -, -, hz, hbecomes⟩ := hd.becomes_of_own? hown
  cases hz.symm.trans hdeclared
  cases hbecomes with
  | @enumeration _ e _ =>
    have he : .enumeration e ∈ m.entities := (Table.mem_values_iff _ _).2 ⟨_, hown⟩
    obtain ⟨y₁, hy₁, -, hfin⟩ := hd.exists_finishes hown
    cases hy₁.symm.trans hdeclared
    obtain ⟨y₂, inherited, hy₂, -, hinherits, hmerge⟩ := h.exists_inherited hroot hm hd he
    rw [hfin.qualified] at hy₂
    cases hy₂.symm.trans hdeclared
    have hkept := hfin.kept
    -- a set of flags has no parent
    have hnone : y.kind = .flags → inherited = [] := by
      intro hk
      have hparent := hkept.parent.trans (hspelled.parent.trans (hflags (hspelled.kind ▸ hk)))
      rcases hinherits with ⟨-, hnil⟩ | ⟨ref, _, href, -⟩
      · exact hnil
      · rw [href] at hparent
        cases hparent
    obtain ⟨file, home, hvalues⟩ := hspelled.values
    rw [← hspelled.kind] at hvalues
    obtain ⟨hnames, numbers, hcounted, hnumbers⟩ := Model.counted_of_merge hvalues hmerge hnone
    obtain ⟨hwritten, hwritten', -⟩ := Draft.Reader.values_eq hx.raws hlist
    rw [hwritten] at hnames
    rw [hwritten', ← hkept.kind] at hcounted
    exact ⟨e, he, fun n hn => hkept.name.trans (hspelled.name _ (by rw [hx.name, hn]; rfl)),
      hkept.kind.trans (hspelled.kind.trans hx.kind),
      hkept.parent.trans (hspelled.parent.trans hx.inherits),
      inherited, numbers, hinherits, hnames, hnumbers, hcounted⟩

end System

namespace Compilation

/-- **Enumerations are well formed, and nothing else compiles.**  In a compilation every
    enumeration and every set of flags, declared, promoted or inheriting, is well formed.  Every
    list of values in the text of a file is that of one of them: written numbers are integers,
    and the names and the numbers of the enumeration are the written ones, the others being
    counted on as integers, behind what is inherited.  So a text in which a name comes twice, or
    a number is written or counted beyond 64 bits, is not part of any compilation. -/
theorem wellFormed_of_compiles {fs : FileSystem} {ext path : String}
    {source : String → Option String} {lib : Library} (h : Compiles fs ext path source lib)
    {m : Model} (hm : m ∈ lib.reachable (Path.absolute path)) :
    (∀ e, .enumeration e ∈ m.entities → e.WellFormed) ∧
    ∃ text s, source m.file = some text ∧ Source.read m.file text = .ok s ∧
      ∀ q, q.listsValues = true → ∀ t ∈ s.tree.parts q, ∀ list, t.find? .valueList = some list →
        (∀ v ∈ list.all .value, ∀ l ∈ (v.leaves .number).head?, (Numeral.integer? l.image).isSome) ∧
        ∃ e, .enumeration e ∈ m.entities ∧ lib.Realizes (Path.absolute path) t list e := by
  obtain ⟨final, hsys, hcontains⟩ := h.system
  obtain ⟨root, hroot⟩ := (Table.contains_iff _ _).1 hcontains
  obtain ⟨raw, d, -, hset, hd, -⟩ := hsys.settles (hsys.mem_reachable hm).2
  obtain ⟨text, htext, hread⟩ := Draft.readFrom_eq_some_iff.1 hset.read
  obtain ⟨s, hs, hraw⟩ := bind_eq_ok hread
  refine ⟨fun e he => hsys.wellFormed hroot hm he, text, s, htext, hs,
    fun q hq t ht list hlist => ?_⟩
  obtain ⟨x, hx, v, hv, y, hy, hspelled⟩ :=
    hset.refined.exists_spelled hset.asRead (Draft.hasScope_spells hs hraw hq ht hlist)
  have hflags := hx.inherits_of_flags ((Source.read_valid hs).of_mem_parts ht)
  exact ⟨(Draft.Reader.values_eq hx.raws hlist).2.2,
    hsys.realizes_of_spelled hroot hm hd hv hy hlist hx hspelled hflags⟩

/-- A chain that leaves eight bits, and flags written in place. -/
def overflowing : String :=
  "enum A\x7ba=254 b\x7dopen_enum B:A\x7bc\x7dmessage M\x7bo:options\x7bx y=-3 z\x7d\x7d"

theorem wellFormed_overflowing :
    ∃ lib, ∃ a b o : Model.Enumeration, (alone overflowing).result = .ok lib ∧
    a.values.map (fun v => (v.name, v.number)) = [("a", 254), ("b", 255)] ∧ a.width = 8 ∧
    b.values.map (fun v => (v.name, v.number)) = [("a", 254), ("b", 255), ("c", 256)] ∧
      b.width = 32 ∧
    o.values.map (fun v => (v.name, v.number)) = [("x", 1), ("y", -3), ("z", 1)] ∧ o.width = 8 ∧
    a.WellFormed ∧ b.WellFormed ∧ o.WellFormed ∧
    ∃ m ∈ lib.reachable "/a.def", ∃ text s, Source.read m.file text = .ok s ∧
      ∀ q, q.listsValues = true → ∀ t ∈ s.tree.parts q, ∀ list, t.find? .valueList = some list →
        ∃ e, .enumeration e ∈ m.entities ∧ lib.Realizes "/a.def" t list e := by
  obtain ⟨lib, hlib, hfound⟩ := exists_of_map_toOption (x := (alone overflowing).result)
    (p := fun lib => ["a::A", "a::B", "a::M_o"].map fun q =>
    (lib.enumeration? "/a.def" q).map fun e =>
      (e.values.map (fun v => (v.name, v.number)), e.width))
    (b := [some ([("a", 254), ("b", 255)], 8), some ([("a", 254), ("b", 255), ("c", 256)], 32),
      some ([("x", 1), ("y", -3), ("z", 1)], 8)]) (by decide +kernel)
  simp only [map_cons, map_nil, List.cons.injEq, Option.map_eq_some_iff, Prod.mk.injEq,
    and_true] at hfound
  obtain ⟨⟨a, ha, havalues, hawidth⟩, ⟨b, hb, hbvalues, hbwidth⟩, o, ho, hovalues,
    howidth⟩ := hfound
  have hpath : Path.absolute "/a.def" = "/a.def" := by decide +kernel
  have hall : ∀ m ∈ lib.reachable "/a.def", _ := fun m hm =>
    wellFormed_of_compiles (Compiles.ofText hlib) (m := m) (by rw [hpath]; exact hm)
  obtain ⟨⟨m, hm, hamem⟩, -⟩ := enumeration?_elim ha
  obtain ⟨⟨mb, hmb, hbmem⟩, -⟩ := enumeration?_elim hb
  obtain ⟨⟨mo, hmo, homem⟩, -⟩ := enumeration?_elim ho
  obtain ⟨hwell, text, s, -, hread, hlists⟩ := hall m hm
  rw [hpath] at hlists
  exact ⟨lib, a, b, o, hlib, havalues, hawidth, hbvalues, hbwidth, hovalues, howidth, hwell a hamem,
    (hall mb hmb).1 b hbmem, (hall mo hmo).1 o homem, m, hm, text, s, hread,
    fun q hq t ht list hlist => (hlists q hq t ht list hlist).2⟩

end Compilation

end MessageSchema
