/-
  The numbers of flags.

  Where the numbers that are written in a set of flags do not go down, every flag without a
  number gets a bit of its own: the lowest one above all numbers before it.  Only behind a
  number that has the highest of 64 bits no such bit is left.
-/
import MessageSchema.Proofs.WellFormedEnums

namespace MessageSchema

open List Option

namespace EnumKind

variable {previous : Option Int}

theorem lt_nextFlag (p : Int) : p < nextFlag (some p) := (isLeast_nextFlag (some p)).1.2 p rfl

theorem nextFlag_pos (previous : Option Int) : 0 < nextFlag previous := by
  obtain ⟨⟨⟨i, hi⟩, -⟩, -⟩ := isLeast_nextFlag previous
  rw [hi]
  exact_mod_cast Nat.two_pow_pos i

theorem and_nextFlag_eq_zero {m : Int} (h : m < nextFlag previous) :
    m.toNat &&& (nextFlag previous).toNat = 0 := by
  have hpos := nextFlag_pos previous
  obtain ⟨⟨⟨i, hi⟩, -⟩, -⟩ := isLeast_nextFlag previous
  have hlt : m.toNat < (nextFlag previous).toNat := by omega
  rw [hi, Int.toNat_natCast] at hlt ⊢
  rw [Nat.and_two_pow, Nat.testBit_lt_two_pow hlt]
  simp

theorem inRange_iff {n : Int} : inRange n = true ↔ -2 ^ 63 ≤ n ∧ n < 2 ^ 64 := by
  rw [inRange, Bool.and_eq_true, decide_eq_true_eq, decide_eq_true_eq]
  exact and_congr_right fun _ => Int.le_sub_one_iff

theorem inRange_nextFlag (h : ∀ p ∈ previous, p < 2 ^ 63) : inRange (nextFlag previous) = true := by
  have hle : nextFlag previous ≤ 2 ^ 63 := (isLeast_nextFlag previous).2 ⟨⟨63, rfl⟩, h⟩
  have hpos := nextFlag_pos previous
  exact inRange_iff.2 ⟨by omega, by omega⟩

theorem nextFlag_of_le {p : Int} (hp : inRange p = true) (h : 2 ^ 63 ≤ p) :
    nextFlag (some p) = 2 ^ 64 := by
  have hlt := (inRange_iff.1 hp).2
  refine IsLeast.unique (isLeast_nextFlag (some p)) ⟨⟨⟨64, rfl⟩, ?_⟩, ?_⟩
  · rintro p ⟨⟩
    exact hlt
  · rintro k ⟨⟨i, rfl⟩, hk⟩
    have hk : (2 ^ 63 : Nat) < 2 ^ i := by
      have := hk p rfl
      omega
    exact_mod_cast Nat.pow_le_pow_right (by decide) ((Nat.pow_lt_pow_iff_right (by decide)).1 hk)

end EnumKind

namespace Draft

open EnumKind (nextFlag inRange)

variable {previous : Option Int} {vs : List RawValue}

/-- The numbers of flags after the number `previous`, however large they get. -/
def flagNumbers (previous : Option Int) : List RawValue → List Int
  | [] => []
  | v :: vs =>
    let n := v.number.getD (nextFlag previous)
    n :: flagNumbers (some n) vs

variable {file home : String} {fault : Fault}

theorem flagNumbers_append (previous : Option Int) (xs ys : List RawValue) :
    flagNumbers previous (xs ++ ys) =
      flagNumbers previous xs ++ flagNumbers
        ((flagNumbers previous xs).getLast?.or previous) ys := by
  induction xs generalizing previous with
  | nil => rfl
  | cons v vs ih =>
    rw [cons_append, flagNumbers, flagNumbers, ih, getLast?_cons]
    cases h : (flagNumbers (some (v.number.getD (nextFlag previous))) vs).getLast? <;> rfl

/-- **Numbering gives every flag its number**, and none of them is too large. -/
theorem numberFrom_flags {values : List EnumValue}
    (h : numberFrom .flags file home previous vs = .ok values) :
    values.map (·.number) = flagNumbers previous vs ∧ values.map (·.explicit) =
      vs.map (·.number.isSome) ∧
      ∀ n ∈ flagNumbers previous vs, inRange n = true := by
  induction vs generalizing previous values with
  | nil =>
    cases h
    exact ⟨rfl, rfl, by simp [flagNumbers]⟩
  | cons v vs ih =>
    obtain ⟨hrange, rest, hrest, rfl⟩ := (numberFrom_cons_eq_ok_iff rfl).1 h
    obtain ⟨hnumbers, hexplicit, hall⟩ := ih hrest
    refine ⟨?_, ?_, forall_mem_cons.2 ⟨hrange, hall⟩⟩
    · rw [map_cons, hnumbers]
      rfl
    · rw [map_cons, hexplicit]
      rfl

theorem numberFrom_cons_eq_error_iff {kind : EnumKind} {v : RawValue} {n : Int}
    (hn : v.number.getD (kind.nextNumber previous) = n) :
    numberFrom kind file home previous (v :: vs) = .error fault ↔
      (inRange n = false ∧
        fault = { cause := .numberTooWide n v.name, file, line := v.line, token := some v.name }) ∨
        (inRange n = true ∧ numberFrom kind file home (some n) vs = .error fault) := by
  subst hn
  rw [numberFrom]
  by_cases hrange : inRange (v.number.getD (kind.nextNumber previous)) = true
  · simp only [hrange, if_true]
    cases numberFrom kind file home (some (v.number.getD (kind.nextNumber previous))) vs <;>
      simp [bind, Except.bind, pure, Except.pure]
  · simp only [hrange, Bool.not_eq_true] at hrange ⊢
    simp [throw, throwThe, MonadExceptOf.throw, eq_comm]

/-- **Numbering ends at the first flag whose number is too large.** -/
theorem numberFrom_flags_eq_error_iff :
    numberFrom .flags file home previous vs = .error fault ↔
      ∃ before v after n, vs = before ++ v :: after ∧
        (∀ m ∈ flagNumbers previous before, inRange m = true) ∧
        v.number.getD (nextFlag ((flagNumbers previous before).getLast?.or previous)) = n ∧
          inRange n = false ∧
        fault =
          { cause := .numberTooWide n v.name, file, line := v.line, token := some v.name } := by
  induction vs generalizing previous with
  | nil => simp [numberFrom]
  | cons v vs ih =>
    have hlast : ∀ before : List RawValue,
      (flagNumbers previous (v :: before)).getLast?.or previous =
        (flagNumbers (some (v.number.getD (nextFlag previous))) before).getLast?.or
          (some (v.number.getD (nextFlag previous))) := by
      intro before
      rw [flagNumbers, getLast?_cons]
      cases (flagNumbers (some (v.number.getD (nextFlag previous))) before).getLast? <;> rfl
    rw [numberFrom_cons_eq_error_iff rfl, ih]
    constructor
    · rintro (⟨hfalse, rfl⟩ | ⟨hrange, before, u, after, n, rfl, hall, hn, hfalse, hfault⟩)
      · exact ⟨[], v, vs, _, rfl, by simp [flagNumbers], rfl, hfalse, rfl⟩
      · exact ⟨v :: before, u, after, n, rfl,
          forall_mem_cons.2 ⟨hrange, hall⟩, by rw [hlast]; exact hn, hfalse, hfault⟩
    · rintro ⟨before, u, after, n, hvs, hall, hn, hfalse, rfl⟩
      cases before with
      | nil =>
        obtain ⟨rfl, rfl⟩ := cons.inj hvs
        obtain rfl : v.number.getD (nextFlag previous) = n := hn
        exact .inl ⟨hfalse, rfl⟩
      | cons w before =>
        obtain ⟨rfl, rfl⟩ := cons.inj hvs
        obtain ⟨hrange, hall⟩ := forall_mem_cons.1 hall
        rw [hlast] at hn
        exact .inr ⟨hrange, before, u, after, n, rfl, hall, hn, hfalse, rfl⟩

/-! ## Numbers that do not go down -/

/-- The numbers that are written in a set of flags are within 64 bits, not below zero, and
    not below any number of a flag before. -/
def Rising (vs : List RawValue) : Prop :=
  ∀ before v after n, vs = before ++ v :: after → v.number = some n →
    inRange n = true ∧ 0 ≤ n ∧ ∀ m ∈ flagNumbers none before, inRange m = true → m ≤ n

/-- The flag `v` has no number of its own and follows a number with the highest bit. -/
def NoRoom (before : List RawValue) (v : RawValue) : Prop :=
  v.number = none ∧ ∃ m ∈ flagNumbers none before, 2 ^ 63 ≤ m

theorem flagNumbers_concat (vs : List RawValue) (v : RawValue) : flagNumbers none (vs ++ [v]) =
    flagNumbers none vs ++ [v.number.getD (nextFlag (flagNumbers none vs).getLast?)] := by
  rw [flagNumbers_append, or_none]
  rfl

namespace Rising

variable {vs : List RawValue} (h : Rising vs) {before after : List RawValue}
include h

variable {v : RawValue}

/-- **The numbers of such a set do not go down.** -/
theorem le_last (hvs : vs = before ++ after)
    (hall : ∀ m ∈ flagNumbers none before, inRange m = true) :
    ∀ m ∈ flagNumbers none before, 0 ≤ m ∧ ∀ p ∈ (flagNumbers none before).getLast?, m ≤ p := by
  induction before using reverseRecOn generalizing after with
  | nil => simp [flagNumbers]
  | append_singleton before v ih =>
    rw [append_assoc, singleton_append] at hvs
    rw [flagNumbers_concat] at hall ⊢
    have hbefore := ih hvs fun m hm => hall m (mem_append_left _ hm)
    -- the last number is above the one before, or written
    have hlast : 0 ≤ v.number.getD (nextFlag (flagNumbers none before).getLast?) ∧
        ∀ m ∈ flagNumbers none before, m ≤
        v.number.getD (nextFlag (flagNumbers none before).getLast?) := by
      cases hv : v.number with
      | some n =>
        obtain ⟨-, hn, hle⟩ := h before v after n hvs hv
        exact ⟨hn, fun m hm => hle m hm (hall m (mem_append_left _ hm))⟩
      | none =>
        refine ⟨(EnumKind.nextFlag_pos _).le, fun m hm => ?_⟩
        obtain ⟨p, hp⟩ := isSome_iff_exists.1 (getLast?_isSome.2 (ne_nil_of_mem hm))
        rw [hp]
        exact ((hbefore m hm).2 p hp).trans (EnumKind.lt_nextFlag p).le
    intro m hm
    rw [getLast?_concat]
    rcases mem_append.1 hm with hm | hm
    · refine ⟨(hbefore m hm).1, ?_⟩
      rintro p ⟨⟩
      exact hlast.2 m hm
    · obtain rfl := mem_singleton.1 hm
      refine ⟨hlast.1, ?_⟩
      rintro p ⟨⟩
      exact le_refl _

theorem eq_of_noRoom (hvs : vs = before ++ v :: after)
    (hall : ∀ m ∈ flagNumbers none before, inRange m = true) (hv : NoRoom before v) :
    v.number.getD (nextFlag (flagNumbers none before).getLast?) = 2 ^ 64 := by
  obtain ⟨hnone, m, hm, hle⟩ := hv
  obtain ⟨p, hp⟩ := isSome_iff_exists.1 (getLast?_isSome.2 (ne_nil_of_mem hm))
  rw [hnone, hp, getD_none]
  exact EnumKind.nextFlag_of_le (hall p (mem_of_getLast? hp))
    (hle.trans ((h.le_last hvs hall m hm).2 p hp))

theorem inRange_of_not_noRoom (hvs : vs = before ++ v :: after) (hv : ¬NoRoom before v) :
    inRange (v.number.getD (nextFlag (flagNumbers none before).getLast?)) = true := by
  cases hnumber : v.number with
  | some n => exact (h before v after n hvs hnumber).1
  | none =>
    refine EnumKind.inRange_nextFlag fun p hp => not_le.1 fun hle => hv ⟨hnumber, p, ?_, hle⟩
    exact mem_of_getLast? hp

/-- **Numbers fit as long as there is room.** -/
theorem forall_inRange_iff (hvs : vs = before ++ after) :
    (∀ m ∈ flagNumbers none before, inRange m = true) ↔ ∀ b u a, before = b ++ u :: a →
      ¬NoRoom b u := by
  constructor
  · rintro hall b u a rfl hroom
    have hsplit := flagNumbers_append none b (u :: a)
    rw [or_none] at hsplit
    rw [hsplit] at hall
    rw [append_assoc, cons_append] at hvs
    have hmem := hall _ (mem_append_right _ mem_cons_self)
    rw [h.eq_of_noRoom hvs (fun m hm => hall m (mem_append_left _ hm)) hroom] at hmem
    revert hmem
    decide
  · induction before using reverseRecOn generalizing after with
    | nil => simp [flagNumbers]
    | append_singleton before v ih =>
      intro hroom
      rw [append_assoc, singleton_append] at hvs
      have hbefore := ih hvs fun b u a heq => hroom b u (a ++ [v]) (by simp [heq])
      rw [flagNumbers_concat, forall_mem_append, forall_mem_singleton]
      exact ⟨hbefore, h.inRange_of_not_noRoom hvs (hroom before v [] rfl)⟩

end Rising

theorem length_flagNumbers (previous : Option Int) (vs : List RawValue) :
    (flagNumbers previous vs).length = vs.length := by
  induction vs generalizing previous with
  | nil => rfl
  | cons v vs ih => rw [flagNumbers, length_cons, ih, length_cons]

/-- **Flags have bits of their own.**  Where the numbers that are written do not go down, every
    flag that is given a number gets the least power of two above the number before, and
    shares no bit with any flag before.  Numbering fails just if a flag without a number
    follows the highest bit, and then at the first such flag. -/
theorem number_flags {vs : List RawValue} (h : Rising vs) (file home : String) :
    (∀ values, number .flags file home vs = .ok values →
      values.map (·.number) = flagNumbers none vs ∧ values.map (·.explicit) =
        vs.map (·.number.isSome) ∧
        (∀ w ∈ values, 0 ≤ w.number) ∧ ∀ earlier w later, values = earlier ++ w :: later →
          w.explicit = false →
          IsLeast {k : Int | (∃ i : Nat, k = (2 ^ i : Nat)) ∧ ∀ p ∈ earlier.getLast?,
            p.number < k} w.number ∧
            ∀ u ∈ earlier, u.number.toNat &&& w.number.toNat = 0) ∧
      ∀ fault, number .flags file home vs = .error fault ↔
        ∃ before v after, vs = before ++ v :: after ∧
        NoRoom before v ∧ (∀ b u a, before = b ++ u :: a → ¬NoRoom b u) ∧
          fault = { cause := .numberTooWide (2 ^ 64) v.name
                    file, line := v.line, token := some v.name } := by
  refine ⟨fun values hvalues => ?_, fun fault => ?_⟩
  · obtain ⟨hnumbers, hexplicit, hall⟩ := numberFrom_flags hvalues
    have hrising := h.le_last (append_nil vs).symm hall
    refine ⟨hnumbers, hexplicit, fun w hw => (hrising _ (hnumbers ▸ mem_map_of_mem hw)).1, ?_⟩
    rintro earlier w later rfl hw
    -- the flag as it is written, behind those that are written before it
    rw [map_append, map_cons, eq_comm] at hexplicit
    obtain ⟨before, _, rfl, hbefore, hrest⟩ := map_eq_append_iff.1 hexplicit
    obtain ⟨v, after, rfl, hv, -⟩ := map_eq_cons_iff.1 hrest
    have hlength : (earlier.map (·.number)).length = (flagNumbers none before).length := by
      rw [length_flagNumbers, length_map, ← length_map (f := (·.explicit)), ← hbefore, length_map]
    rw [flagNumbers_append, map_append, map_cons, or_none] at hnumbers
    obtain ⟨hearlier, hrest⟩ := append_inj hnumbers hlength
    rw [hw, isSome_eq_false_iff, isNone_iff_eq_none] at hv
    have hnumber : w.number = nextFlag (earlier.getLast?.map (·.number)) := by
      rw [← getLast?_map, hearlier, (cons.inj hrest).1, hv]
      rfl
    have hleast := EnumKind.isLeast_nextFlag (earlier.getLast?.map (·.number))
    rw [hnumber]
    refine ⟨by simpa using hleast, fun u hu => EnumKind.and_nextFlag_eq_zero ?_⟩
    obtain ⟨p, hp⟩ := isSome_iff_exists.1 (getLast?_isSome.2 (ne_nil_of_mem hu))
    have hlast :=
      h.le_last rfl fun m hm => hall m (by rw [flagNumbers_append]; exact mem_append_left _ hm)
    rw [← hearlier, getLast?_map, hp] at hlast
    rw [hp]
    exact ((hlast _ (mem_map_of_mem hu)).2 _ rfl).trans_lt (EnumKind.lt_nextFlag _)
  · rw [number, numberFrom_flags_eq_error_iff]
    constructor
    · rintro ⟨before, v, after, n, hvs, hall, hn, hfalse, rfl⟩
      rw [or_none] at hn
      have hroom : NoRoom before v := by
        by_contra hroom
        rw [← hn, h.inRange_of_not_noRoom hvs hroom] at hfalse
        cases hfalse
      exact ⟨before, v, after, hvs, hroom, (h.forall_inRange_iff hvs).1 hall, by
        rw [← hn, h.eq_of_noRoom hvs hall hroom]⟩
    · rintro ⟨before, v, after, hvs, hroom, hfirst, rfl⟩
      have hall := (h.forall_inRange_iff hvs).2 hfirst
      refine ⟨before, v, after, 2 ^ 64, hvs, hall, ?_, by decide, rfl⟩
      rw [or_none, h.eq_of_noRoom hvs hall hroom]

theorem number_flags_highest :
    let flags : List RawValue :=
  [⟨.none, "A", none, 1⟩, ⟨.none, "B", some 6, 2⟩, ⟨.none, "C", none, 3⟩]
    let top : List RawValue := [⟨.none, "D", some (2 ^ 63), 4⟩, ⟨.none, "E", none, 5⟩]
    Rising flags ∧ Rising top ∧
      (∃ a b c, number .flags "f" "h" flags = .ok [a, b, c] ∧ c.number = 8 ∧
        ∀ u ∈ [a, b], u.number.toNat &&& c.number.toNat = 0) ∧
      number .flags "f" "h" top =
        .error
        { cause := .numberTooWide (2 ^ 64) "E", file := "f", line := 5, token := some "E" } := by
  intro flags top
  have hflags : Rising flags := by
    rintro (_ | ⟨_, _ | ⟨_, _ | ⟨_, _ | _⟩⟩⟩) v after n heq hn <;> simp only [flags, nil_append,
      cons_append, List.cons.injEq] at heq
    · obtain ⟨rfl, -⟩ := heq
      cases hn
    · obtain ⟨rfl, rfl, -⟩ := heq
      cases hn
      decide
    · obtain ⟨rfl, rfl, rfl, -⟩ := heq
      cases hn
    all_goals simp at heq
  have htop : Rising top := by
    rintro (_ | ⟨_, _ | ⟨_, _ | _⟩⟩) v after n heq hn <;> simp only [top, nil_append, cons_append,
      List.cons.injEq] at heq
    · obtain ⟨rfl, -⟩ := heq
      cases hn
      decide
    · obtain ⟨rfl, rfl, -⟩ := heq
      cases hn
    all_goals simp at heq
  refine ⟨hflags, htop, ⟨_, _, _, rfl, rfl, ?_⟩, ?_⟩
  · exact (((number_flags hflags "f" "h").1 _ rfl).2.2.2 [_, _] _ [] rfl rfl).2
  · refine ((number_flags htop "f" "h").2 _).2 ⟨[_], _, [], rfl,
      ⟨rfl, 2 ^ 63, by decide, le_refl _⟩, ?_, rfl⟩
    rintro (_ | ⟨_, _⟩) u a heq ⟨hu, -⟩
    · obtain ⟨rfl, -⟩ := cons.inj heq
      cases hu
    · simp at heq

end Draft

end MessageSchema
