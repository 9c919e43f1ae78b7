import Wiring.Decimal.Cursor
import Wiring.Decimal.Grammar

/-!
# Numerals are scanned as far as possible

`Numeral.scan` is a maximal munch. Each of its parts leaves no more than any text of its part of the
grammar does, and what follows the numeral has no say in it.

- `Numeral.scan_longest`: the scanned text is the longest prefix that is a numeral.
- `Numeral.scan_scanned`: the scanned text alone is scanned to the same numeral.
- `Numeral.hasDigits_scan`: there are digits when the text starts with one of the shortest numerals.
-/

namespace Wiring.Decimal

open scoped Computability
open Grammar

variable {l : Language Char} {cs sg ds f e u v w : List Char}

/-! ## Texts of the grammar -/

namespace Grammar

theorem mem_optional : w ∈ optional l ↔ w = [] ∨ w ∈ l := by
  rw [optional, Language.mem_add, Language.mem_one]

theorem mem_kstar_one {p : Char → Prop} : w ∈ (one p)∗ ↔ ∀ c ∈ w, p c := by
  constructor
  · rintro ⟨parts, rfl, hparts⟩ c hc
    obtain ⟨part, hpart, hmem⟩ := List.mem_flatten.mp hc
    obtain ⟨d, hd, rfl⟩ := hparts part hpart
    rw [List.mem_singleton.mp hmem]
    exact hd
  · intro h
    refine ⟨w.map fun c => [c], ?_, ?_⟩
    · induction w with
      | nil => rfl
      | cons c w ih => simp [← ih fun d hd => h d (List.mem_cons_of_mem _ hd)]
    · intro part hpart
      obtain ⟨c, hc, rfl⟩ := List.mem_map.mp hpart
      exact ⟨c, h c hc, rfl⟩

theorem mem_digits : w ∈ digits ↔ w ≠ [] ∧ ∀ c ∈ w, c.isDigit = true := by
  rw [digits, digit, Language.mem_mul]
  constructor
  · rintro ⟨_, ⟨c, hc, rfl⟩, ds, hds, rfl⟩
    refine ⟨List.cons_ne_nil _ _, fun d hd => ?_⟩
    cases List.mem_cons.mp hd with
    | inl h => exact h ▸ hc
    | inr h => exact mem_kstar_one.mp hds d h
  · rintro ⟨hne, hw⟩
    cases w with
    | nil => exact absurd rfl hne
    | cons c ds =>
      exact ⟨[c], ⟨c, hw c List.mem_cons_self, rfl⟩, ds,
        mem_kstar_one.mpr fun d hd => hw d (List.mem_cons_of_mem _ hd), rfl⟩

theorem mem_sign : w ∈ optional sign ↔ w = [] ∨ w = ['+'] ∨ w = ['-'] := by
  rw [mem_optional]
  constructor
  · rintro (rfl | ⟨c, rfl | rfl, rfl⟩)
    · exact .inl rfl
    · exact .inr (.inl rfl)
    · exact .inr (.inr rfl)
  · rintro (rfl | rfl | rfl)
    · exact .inl rfl
    · exact .inr ⟨'+', .inl rfl, rfl⟩
    · exact .inr ⟨'-', .inr rfl, rfl⟩

theorem mem_point_mul : w ∈ point * l ↔ ∃ v ∈ l, w = '.' :: v := by
  constructor
  · rintro ⟨_, ⟨_, rfl, rfl⟩, v, hv, rfl⟩
    exact ⟨v, hv, rfl⟩
  · rintro ⟨v, hv, rfl⟩
    exact ⟨['.'], ⟨'.', rfl, rfl⟩, v, hv, rfl⟩

theorem mem_exponent : w ∈ exponent ↔
    ∃ mark, (mark = 'e' ∨ mark = 'E') ∧ ∃ sg ∈ optional sign, ∃ ds ∈ digits,
      w = mark :: (sg ++ ds) := by
  constructor
  · rintro ⟨_, ⟨_, ⟨mark, hmark, rfl⟩, sg, hsg, rfl⟩, ds, hds, rfl⟩
    exact ⟨mark, hmark, sg, hsg, ds, hds, rfl⟩
  · rintro ⟨mark, hmark, sg, hsg, ds, hds, rfl⟩
    exact ⟨mark :: sg, ⟨[mark], ⟨mark, hmark, rfl⟩, sg, hsg, rfl⟩, ds, hds, rfl⟩

/-- The four parts of a numeral. There is a digit on one side of the point. -/
theorem mem_numerals : w ∈ numerals ↔
    ∃ sg ∈ optional sign, ∃ ds, (∀ c ∈ ds, c.isDigit = true) ∧ ∃ f ∈ optional fraction,
      (ds ≠ [] ∨ f.tail ≠ []) ∧ ∃ e ∈ optional exponent, w = sg ++ (ds ++ (f ++ e)) := by
  constructor
  · rintro ⟨_, ⟨sg, hsg, _, hm, rfl⟩, e, he, rfl⟩
    refine ⟨sg, hsg, ?_⟩
    rcases hm with ⟨ds, hds, f, hf, rfl⟩ | hm
    · obtain ⟨hne, hds⟩ := mem_digits.mp hds
      exact ⟨ds, hds, f, hf, .inl hne, e, he, by simp⟩
    · obtain ⟨ds, hds, rfl⟩ := mem_point_mul.mp hm
      obtain ⟨hne, hds⟩ := mem_digits.mp hds
      exact ⟨[], by simp, '.' :: ds, .inr (mem_point_mul.mpr ⟨ds, mem_kstar_one.mpr hds, rfl⟩),
        .inr hne, e, he, by simp⟩
  · rintro ⟨sg, hsg, ds, hds, f, hf, hne, e, he, rfl⟩
    refine ⟨sg ++ (ds ++ f), ⟨sg, hsg, ds ++ f, ?_, rfl⟩, e, he, by simp⟩
    by_cases hnil : ds = []
    · subst hnil
      have htail := hne.resolve_left (not_not_intro rfl)
      rcases mem_optional.mp hf with rfl | hf
      · exact absurd rfl htail
      · obtain ⟨ds, hds, rfl⟩ := mem_point_mul.mp hf
        exact .inr (mem_point_mul.mpr ⟨ds, mem_digits.mpr ⟨htail, mem_kstar_one.mp hds⟩, rfl⟩)
    · exact .inl ⟨ds, mem_digits.mpr ⟨hnil, hds⟩, f, hf, rfl⟩

end Grammar

/-! ## What each part takes -/

/-- A sign is taken before anything that could not be taken for a sign itself. -/
theorem takeSign_append (hsg : sg ∈ optional sign)
    (hu : sg = [] → ∀ c ∈ u.head?, c ≠ '+' ∧ c ≠ '-') : takeSign (sg ++ u) = (sg.head?, u) := by
  rcases mem_sign.mp hsg with rfl | rfl | rfl
  · have hhead := hu rfl
    rw [List.nil_append]
    unfold takeSign
    split
    · exact absurd rfl (hhead '+' rfl).1
    · exact absurd rfl (hhead '-' rfl).2
    · rfl
  · rfl
  · rfl

/-- Without a sign, the text does not start with one. -/
theorem head?_takeSign (h : (takeSign cs).1 = none) :
    (takeSign cs).2 = cs ∧ ∀ c ∈ cs.head?, c ≠ '+' ∧ c ≠ '-' := by
  unfold takeSign at h ⊢
  split at h
  · cases h
  · cases h
  · next hplus hminus =>
    refine ⟨rfl, fun c hc => ?_⟩
    obtain ⟨rest, rfl⟩ := List.head?_eq_some_iff.mp hc
    constructor
    · rintro rfl
      exact hplus rest rfl
    · rintro rfl
      exact hminus rest rfl

theorem takeSign_mem (cs : List Char) : (takeSign cs).1.toList ∈ optional sign := by
  unfold takeSign
  split
  · exact mem_sign.mpr (.inr (.inl rfl))
  · exact mem_sign.mpr (.inr (.inr rfl))
  · exact mem_sign.mpr (.inl rfl)

/-- A digit is no sign. -/
theorem not_sign_of_isDigit {c : Char} (h : c.isDigit = true) : c ≠ '+' ∧ c ≠ '-' := by
  constructor
  · rintro rfl
    cases h
  · rintro rfl
    cases h

/-- All digits are taken, and then those that follow. -/
theorem takeDigits_append (hds : ∀ c ∈ ds, c.isDigit = true) (u : List Char) :
    takeDigits (ds ++ u) = (ds ++ (takeDigits u).1, (takeDigits u).2) := by
  rw [takeDigits, List.takeWhile_append_of_pos hds, List.dropWhile_append_of_pos hds]
  rfl

/-- Nothing is taken when the text starts with something else. -/
theorem takeDigits_of_head (h : ∀ c ∈ u.head?, c.isDigit = false) : takeDigits u = ([], u) := by
  cases u with
  | nil => rfl
  | cons c u => simp [takeDigits, h c rfl]

theorem takeDigits_mem (cs : List Char) : ∀ c ∈ (takeDigits cs).1, c.isDigit = true :=
  fun c hc => List.all_eq_true.mp List.all_takeWhile c hc

theorem takeFraction_of_head (h : ∀ c ∈ u.head?, c ≠ '.') : takeFraction u = (none, u) := by
  unfold takeFraction
  split
  · exact absurd rfl (h '.' rfl)
  · rfl

theorem takeFraction_mem (cs : List Char) :
    (takeFraction cs).1.elim [] ('.' :: ·) ∈ optional fraction := by
  unfold takeFraction
  split
  · exact .inr (mem_point_mul.mpr ⟨_, mem_kstar_one.mpr (takeDigits_mem _), rfl⟩)
  · exact mem_optional.mpr (.inl rfl)

/-- An exponent is taken, with all digits that follow it. -/
theorem takeExponent_append {mark : Char} (hmark : mark = 'e' ∨ mark = 'E') (hsg : sg ∈ optional sign)
    (hds : ds ∈ digits) (u : List Char) : takeExponent (mark :: (sg ++ (ds ++ u))) =
      (some ⟨mark, sg.head?, ds ++ (takeDigits u).1⟩, (takeDigits u).2) := by
  obtain ⟨hne, hds⟩ := mem_digits.mp hds
  have hsign : takeSign (sg ++ (ds ++ u)) = (sg.head?, ds ++ u) := by
    refine takeSign_append hsg fun _ c hc => ?_
    have hdigit : c.isDigit = true := by
      rw [List.head?_append_of_ne_nil _ hne] at hc
      exact hds c (List.mem_of_mem_head? hc)
    exact not_sign_of_isDigit hdigit
  rw [takeExponent]
  simp [hsign, takeDigits_append hds, hmark, hne]

theorem takeExponent_mem (cs : List Char) :
    ((takeExponent cs).1.elim [] fun x => x.mark :: (x.sign.toList ++ x.digits)) ∈
      optional exponent := by
  unfold takeExponent
  split
  · exact mem_optional.mpr (.inl rfl)
  · next mark cs =>
    dsimp only
    split
    · next h =>
      exact mem_optional.mpr (.inr (mem_exponent.mpr ⟨mark, h.1, _, takeSign_mem cs, _,
        mem_digits.mpr ⟨h.2, takeDigits_mem _⟩, rfl⟩))
    · exact mem_optional.mpr (.inl rfl)

/-! ## No text takes more -/

/-- An exponent starts with its mark. -/
theorem head?_exponent (he : e ∈ optional exponent) (hne : e ≠ []) (v : List Char) :
    ∀ c ∈ (e ++ v).head?, c = 'e' ∨ c = 'E' := by
  obtain ⟨mark, hmark, sg, -, ds, -, rfl⟩ := mem_exponent.mp ((mem_optional.mp he).resolve_left hne)
  rintro c ⟨⟩
  exact hmark

/-- A fraction starts with the point, and without one an exponent starts with its mark. -/
theorem head?_fraction (hf : f ∈ optional fraction) (he : e ∈ optional exponent) (hne : f ++ e ≠ [])
    (v : List Char) : ∀ c ∈ (f ++ (e ++ v)).head?, c = '.' ∨ c = 'e' ∨ c = 'E' := by
  rcases mem_optional.mp hf with rfl | hf
  · exact fun c hc => .inr (head?_exponent he hne v c hc)
  · obtain ⟨ds, -, rfl⟩ := mem_point_mul.mp hf
    rintro c ⟨⟩
    exact .inl rfl

theorem takeDigits_suffix (cs : List Char) : (takeDigits cs).2 <:+ cs := ⟨_, takeDigits_text cs⟩

theorem takeFraction_suffix (cs : List Char) : (takeFraction cs).2 <:+ cs := ⟨_, takeFraction_text cs⟩

theorem takeExponent_suffix (cs : List Char) : (takeExponent cs).2 <:+ cs := ⟨_, takeExponent_text cs⟩

/-- An exponent leaves at least what `takeExponent` leaves. -/
theorem exponent_suffix (he : e ∈ optional exponent) (v : List Char) :
    (takeExponent (e ++ v)).2 <:+ v := by
  rcases mem_optional.mp he with rfl | he
  · exact takeExponent_suffix v
  · obtain ⟨mark, hmark, sg, hsg, ds, hds, rfl⟩ := mem_exponent.mp he
    rw [List.cons_append, List.append_assoc, takeExponent_append hmark hsg hds]
    exact takeDigits_suffix v

/-- A fraction and an exponent leave at least what is left when they are taken. -/
theorem fraction_suffix (hf : f ∈ optional fraction) (he : e ∈ optional exponent) (v : List Char) :
    (takeExponent (takeFraction (f ++ (e ++ v))).2).2 <:+ v := by
  by_cases hnil : e = []
  · subst hnil
    refine (takeExponent_suffix _).trans ?_
    rcases mem_optional.mp hf with rfl | hf
    · exact takeFraction_suffix v
    · obtain ⟨ds, hds, rfl⟩ := mem_point_mul.mp hf
      show (takeDigits (ds ++ v)).2 <:+ v
      rw [takeDigits_append (mem_kstar_one.mp hds)]
      exact takeDigits_suffix v
  -- A mark is neither a point nor a digit, so the exponent is where it is looked for.
  · have hhead := head?_exponent he hnil v
    have hrest : (takeFraction (f ++ (e ++ v))).2 = e ++ v := by
      rcases mem_optional.mp hf with rfl | hf
      · rw [List.nil_append, takeFraction_of_head]
        intro c hc
        rcases hhead c hc with rfl | rfl <;> decide
      · obtain ⟨ds, hds, rfl⟩ := mem_point_mul.mp hf
        show (takeDigits (ds ++ (e ++ v))).2 = e ++ v
        rw [takeDigits_append (mem_kstar_one.mp hds), takeDigits_of_head]
        intro c hc
        rcases hhead c hc with rfl | rfl <;> decide
    rw [hrest]
    exact exponent_suffix he v

/-- Digits, a fraction and an exponent leave at least what is left when they are taken. -/
theorem digits_suffix (hds : ∀ c ∈ ds, c.isDigit = true) (hf : f ∈ optional fraction)
    (he : e ∈ optional exponent) (v : List Char) :
    (takeExponent (takeFraction (takeDigits (ds ++ (f ++ (e ++ v)))).2).2).2 <:+ v := by
  rw [takeDigits_append hds]
  by_cases hnil : f ++ e = []
  · obtain ⟨rfl, rfl⟩ := List.append_eq_nil_iff.mp hnil
    exact ((takeExponent_suffix _).trans (takeFraction_suffix _)).trans (takeDigits_suffix v)
  · rw [takeDigits_of_head]
    · exact fraction_suffix hf he v
    · intro c hc
      rcases head?_fraction hf he hnil v c hc with rfl | rfl | rfl <;> decide

namespace Numeral

/-- A numeral leaves at least what is left when it is scanned. -/
theorem numeral_suffix (hw : w ∈ numerals) (v : List Char) : (scan (w ++ v)).2 <:+ v := by
  obtain ⟨sg, hsg, ds, hds, f, hf, hne, e, he, rfl⟩ := mem_numerals.mp hw
  have hunsigned : ∀ c ∈ (ds ++ (f ++ (e ++ v))).head?, c ≠ '+' ∧ c ≠ '-' := by
    intro c hc
    cases ds with
    | nil =>
      have hnil : f ++ e ≠ [] := fun h => by simp_all
      rcases head?_fraction hf he hnil v c hc with rfl | rfl | rfl <;> decide
    | cons d ds =>
      rw [List.head?_append_of_ne_nil _ (List.cons_ne_nil d ds)] at hc
      exact not_sign_of_isDigit (hds c (List.mem_of_mem_head? hc))
  simp only [List.append_assoc]
  rw [scan, takeSign_append hsg fun _ => hunsigned]
  exact digits_suffix hds hf he v

/-! ## The longest numeral -/

/-- With a digit, what has been scanned is a numeral. -/
theorem scan_mem (h : (scan cs).1.hasDigits = true) : (scan cs).1.text ∈ numerals := by
  refine mem_numerals.mpr ⟨_, takeSign_mem cs, _, takeDigits_mem (takeSign cs).2, _,
    takeFraction_mem (takeDigits (takeSign cs).2).2, ?_, _,
    takeExponent_mem (takeFraction (takeDigits (takeSign cs).2).2).2, by simp [scan, text]⟩
  have hne : (scan cs).1.whole ++ (scan cs).1.fraction.getD [] ≠ [] := by
    simpa [hasDigits, digits] using h
  have hfraction : ∀ x : Option (List Char), (x.elim [] ('.' :: ·)).tail = x.getD [] := by
    rintro (- | ds) <;> rfl
  rw [hfraction]
  exact not_and_or.mp fun hnil => hne (List.append_eq_nil_iff.mpr hnil)

/-- **The scanned text is the longest numeral** that a text starts with. -/
theorem scan_longest (h : (scan cs).1.hasDigits = true) :
    IsLongestPrefix numerals (scan cs).1.text cs := by
  refine ⟨scan_mem h, ⟨_, scan_text cs⟩, ?_⟩
  rintro q hq ⟨v, rfl⟩
  have htext := congrArg List.length (scan_text (q ++ v))
  have hrest := (numeral_suffix hq v).length_le
  rw [List.length_append, List.length_append] at htext
  omega

/-- A numeral starts with a shortest one. -/
theorem exists_shortest (hw : w ∈ numerals) : ∃ h ∈ shortest, h <+: w := by
  obtain ⟨sg, hsg, ds, hds, f, hf, hne, e, he, rfl⟩ := mem_numerals.mp hw
  cases ds with
  | cons d ds =>
    have hdigit : [d] ∈ digit := ⟨d, hds d List.mem_cons_self, rfl⟩
    exact ⟨sg ++ [d], ⟨sg, hsg, [d], .inl hdigit, rfl⟩, ds ++ (f ++ e), by simp⟩
  | nil =>
    have htail := hne.resolve_left (not_not_intro rfl)
    rcases mem_optional.mp hf with rfl | hf
    · exact absurd rfl htail
    · obtain ⟨ds, hds, rfl⟩ := mem_point_mul.mp hf
      cases ds with
      | nil => exact absurd rfl htail
      | cons d ds =>
        have hdigit : [d] ∈ digit := ⟨d, mem_kstar_one.mp hds d List.mem_cons_self, rfl⟩
        have hpoint : ['.', d] ∈ point * digit := mem_point_mul.mpr ⟨[d], hdigit, rfl⟩
        exact ⟨sg ++ ['.', d], ⟨sg, hsg, ['.', d], .inr hpoint, rfl⟩, ds ++ e, by simp⟩

/-- Behind the sign of a shortest numeral there is a digit, or the point and a digit. -/
theorem takeSign_of_shortest (h : ∃ h ∈ shortest, h <+: cs) : ∃ d rest, d.isDigit = true ∧
    ((takeSign cs).2 = d :: rest ∨ (takeSign cs).2 = '.' :: d :: rest) := by
  obtain ⟨_, ⟨sg, hsg, _, ⟨d, hd, rfl⟩ | hfraction, rfl⟩, rest, rfl⟩ := h
  · refine ⟨d, rest, hd, .inl ?_⟩
    rw [List.append_assoc, takeSign_append hsg]
    · rfl
    · rintro - c ⟨⟩
      exact not_sign_of_isDigit hd
  · obtain ⟨_, ⟨d, hd, rfl⟩, rfl⟩ := mem_point_mul.mp hfraction
    refine ⟨d, rest, hd, .inr ?_⟩
    rw [List.append_assoc, takeSign_append hsg]
    · rfl
    · rintro - c ⟨⟩
      decide

/-- **There are digits** when the text starts with a shortest numeral. -/
theorem hasDigits_scan : (scan cs).1.hasDigits = true ↔ ∃ h ∈ shortest, h <+: cs := by
  constructor
  · intro h
    obtain ⟨short, hshort, hprefix⟩ := exists_shortest (scan_mem h)
    exact ⟨short, hshort, hprefix.trans ⟨_, scan_text cs⟩⟩
  · intro h
    obtain ⟨d, rest, hd, hunsigned | hunsigned⟩ := takeSign_of_shortest h
    · simp [scan, hasDigits, digits, hunsigned, takeDigits, hd]
    · simp [scan, hasDigits, digits, hunsigned, takeDigits, takeFraction, hd]

end Numeral

/-! ## What follows a numeral has no say -/

/-- The sign is the same when less of what follows it is there. -/
theorem takeSign_cut (h : (takeSign cs).2 = u ++ v) :
    takeSign ((takeSign cs).1.toList ++ u) = ((takeSign cs).1, u) := by
  have hhead : (takeSign cs).1.toList = [] → ∀ c ∈ u.head?, c ≠ '+' ∧ c ≠ '-' := by
    intro hnil c hc
    obtain ⟨hrest, hhead⟩ := head?_takeSign (Option.toList_eq_nil_iff.mp hnil)
    refine hhead c ?_
    rw [← hrest, h]
    exact List.mem_head?_append_of_mem_head? hc
  rw [takeSign_append (takeSign_mem cs) hhead]
  cases (takeSign cs).1 <;> rfl

theorem takeDigits_cut (h : (takeDigits cs).2 = u ++ v) :
    takeDigits ((takeDigits cs).1 ++ u) = ((takeDigits cs).1, u) := by
  have hhead : ∀ c ∈ u.head?, c.isDigit = false := by
    intro c hc
    have hdrop : (cs.dropWhile Char.isDigit).head? = some c := by
      show (takeDigits cs).2.head? = some c
      rw [h]
      exact List.mem_head?_append_of_mem_head? hc
    have hnot := List.head?_dropWhile_not Char.isDigit cs
    rw [hdrop] at hnot
    simpa using hnot
  rw [takeDigits_append (takeDigits_mem cs), takeDigits_of_head hhead, List.append_nil]

theorem takeFraction_cut (h : (takeFraction cs).2 = u ++ v) :
    takeFraction ((takeFraction cs).1.elim [] ('.' :: ·) ++ u) = ((takeFraction cs).1, u) := by
  cases hpoint : cs.head? == some '.' with
  | true =>
    obtain ⟨rest, rfl⟩ := List.head?_eq_some_iff.mp (eq_of_beq hpoint)
    show (some (takeDigits ((takeDigits rest).1 ++ u)).1, (takeDigits ((takeDigits rest).1 ++ u)).2) = _
    rw [takeDigits_cut h]
    rfl
  | false =>
    have hhead : ∀ c ∈ cs.head?, c ≠ '.' := by
      rintro c hc rfl
      rw [hc] at hpoint
      cases hpoint
    rw [takeFraction_of_head hhead] at h ⊢
    refine takeFraction_of_head fun c hc => hhead c ?_
    show c ∈ cs.head?
    rw [show cs = u ++ v from h]
    exact List.mem_head?_append_of_mem_head? hc

/-- An exponent is taken again from its own text. -/
theorem takeExponent_taken (cs : List Char) :
    takeExponent ((takeExponent cs).1.elim [] fun x => x.mark :: (x.sign.toList ++ x.digits)) =
      ((takeExponent cs).1, []) := by
  cases cs with
  | nil => rfl
  | cons mark cs =>
    by_cases h : (mark = 'e' ∨ mark = 'E') ∧ (takeDigits (takeSign cs).2).1 ≠ []
    · have htaken : (takeExponent (mark :: cs)).1 =
          some ⟨mark, (takeSign cs).1, (takeDigits (takeSign cs).2).1⟩ := by
        rw [takeExponent, if_pos h]
      have hdigits := mem_digits.mpr ⟨h.2, takeDigits_mem (takeSign cs).2⟩
      have happend := takeExponent_append h.1 (takeSign_mem cs) hdigits []
      rw [htaken]
      simpa [takeDigits] using happend
    · rw [takeExponent, if_neg h]
      rfl

/-- **The scanned text alone is scanned to the same numeral.** -/
theorem Numeral.scan_scanned (cs : List Char) : scan (scan cs).1.text = ((scan cs).1, []) := by
  let unsigned := (takeSign cs).2
  let afterWhole := (takeDigits unsigned).2
  let afterFraction := (takeFraction afterWhole).2
  let wholeText := (takeDigits unsigned).1
  let fractionText := (takeFraction afterWhole).1.elim [] ('.' :: ·)
  let exponentText := (takeExponent afterFraction).1.elim [] fun x => x.mark :: (x.sign.toList ++ x.digits)
  let rest := (takeExponent afterFraction).2
  have hexponent : afterFraction = exponentText ++ rest := (takeExponent_text afterFraction).symm
  have hfraction : afterWhole = (fractionText ++ exponentText) ++ rest := by
    rw [List.append_assoc, ← hexponent]
    exact (takeFraction_text afterWhole).symm
  have hwhole : unsigned = (wholeText ++ (fractionText ++ exponentText)) ++ rest := by
    rw [List.append_assoc, ← hfraction]
    exact (takeDigits_text unsigned).symm
  have htext : (scan cs).1.text =
      (takeSign cs).1.toList ++ (wholeText ++ (fractionText ++ exponentText)) := by
    simp only [scan, text, List.append_assoc]
    rfl
  rw [htext, scan, takeSign_cut hwhole, takeDigits_cut hfraction, takeFraction_cut hexponent,
    takeExponent_taken]
  rfl

theorem IsLongestPrefix.eq {p q : List Char} (h : IsLongestPrefix l p cs)
    (h' : IsLongestPrefix l q cs) : p = q := by
  have hprefix : p <+: q :=
    List.prefix_of_prefix_length_le h.isPrefix h'.isPrefix (h'.length_le p h.mem h.isPrefix)
  exact hprefix.eq_of_length_le (h.length_le q h'.mem h'.isPrefix)

/-- The longest numeral alone has the parts of the numeral that a text starts with. -/
theorem IsLongestPrefix.scan_eq {p : List Char} (h : IsLongestPrefix numerals p cs) :
    (Numeral.scan cs).1.hasDigits = true ∧ (Numeral.scan cs).1.text = p ∧
      Numeral.scan p = ((Numeral.scan cs).1, []) := by
  obtain ⟨short, hshort, hprefix⟩ := Numeral.exists_shortest h.mem
  have hdigits := Numeral.hasDigits_scan.mpr ⟨short, hshort, hprefix.trans h.isPrefix⟩
  have htext := (Numeral.scan_longest hdigits).eq h
  refine ⟨hdigits, htext, ?_⟩
  rw [← htext]
  exact Numeral.scan_scanned cs

/-! ## The texts of doubles -/

namespace Grammar

/-- Digits with a point between them, or at one of their ends. -/
theorem digits_with_point : digits + digits * point * digit∗ + digit∗ * point * digits =
    digits * optional fraction + point * digits := by
  have hstar : digit∗ = 1 + digits := (Language.one_add_self_mul_kstar_eq_kstar digit).symm
  have hle : digits * point * digits ≤ digits * point * digit∗ := by
    rw [hstar, mul_add]
    exact le_add_self
  have hfirst : digits * optional fraction = digits + digits * point * digit∗ := by
    rw [optional, fraction, mul_add, mul_one, mul_assoc]
  have hlast : digit∗ * point * digits = point * digits + digits * point * digits := by
    rw [hstar, add_mul, add_mul, one_mul]
  rw [hfirst, hlast, add_assoc, add_assoc, add_comm (point * digits), ← add_assoc (_ * _),
    add_eq_left_iff_le.mpr hle]

theorem doubles_eq : doubles =
    optional sign * spelled "inf" + optional sign * spelled "infinity" +
      optional sign * spelled "nan" + numerals := by
  rw [doubles, digits_with_point, mul_add, mul_add, mul_add, ← mul_assoc, numerals]

/-- A word is found behind the sign. -/
theorem mem_spelled {word : String} (hword : ∀ c ∈ word.toList.head?, c ≠ '+' ∧ c ≠ '-') :
    cs ∈ optional sign * spelled word ↔ (takeSign cs).2.map Char.toLower = word.toList := by
  constructor
  · rintro ⟨sg, hsg, w, hw, rfl⟩
    have hw : w.map Char.toLower = word.toList := hw
    rw [takeSign_append hsg]
    · exact hw
    · intro _ c hc
      have hlower := hword c.toLower (by rw [← hw, List.head?_map, hc]; rfl)
      constructor
      · rintro rfl
        exact hlower.1 rfl
      · rintro rfl
        exact hlower.2 rfl
  · intro h
    exact ⟨_, takeSign_mem cs, _, h, takeSign_text cs⟩

end Grammar

/-- A numeral is scanned as a whole. -/
theorem Numeral.scan_whole_iff :
    (scan cs).1.hasDigits = true ∧ (scan cs).2 = [] ↔ cs ∈ numerals := by
  constructor
  · rintro ⟨hdigits, hrest⟩
    have htext := scan_text cs
    rw [hrest, List.append_nil] at htext
    rw [← htext]
    exact scan_mem hdigits
  · intro h
    have hrest := numeral_suffix h []
    rw [List.append_nil] at hrest
    exact ⟨hasDigits_scan.mpr (exists_shortest h), List.suffix_nil.mp hrest⟩

/-- **The texts of doubles are those of the grammar.** -/
theorem parseDouble?_isSome (cs : List Char) : (parseDouble? cs).isSome = true ↔ cs ∈ doubles := by
  rw [doubles_eq, Language.mem_add, Language.mem_add, Language.mem_add,
    mem_spelled (by simp), mem_spelled (by simp), mem_spelled (by simp),
    ← Numeral.scan_whole_iff, parseDouble?]
  dsimp only
  split
  · next hinfinite => exact iff_of_true rfl (.inl (.inl hinfinite))
  · next hinfinite =>
    split
    · next hnan => exact iff_of_true rfl (.inl (.inr hnan))
    · next hnan =>
      split
      · next hwhole => exact iff_of_true rfl (.inr hwhole)
      · next hwhole =>
        exact iff_of_false Bool.false_ne_true fun h => h.elim (fun h => h.elim hinfinite hnan) hwhole

theorem toLower_of_isDigit {c : Char} (h : c.isDigit = true) : c.toLower = c := by
  refine dif_neg ?_
  rintro ⟨hfirst, -⟩
  have hlast : c.toNat ≤ '9'.toNat := (Char.isDigit_iff_toNat.mp h).2
  exact absurd (Nat.le_trans (UInt32.le_iff_toNat_le.mp hfirst) hlast) (by decide)

/-- A numeral is read as the double nearest to it. -/
theorem parseDouble?_numeral (h : cs ∈ numerals) :
    parseDouble? cs = some (.number (Binary64.ofDecimal (Numeral.scan cs).1.negative
      (Numeral.scan cs).1.significand (Numeral.scan cs).1.scale)) := by
  have hwhole := Numeral.scan_whole_iff.mpr h
  have hhead : ∀ c ∈ ((takeSign cs).2.map Char.toLower).head?, c.isDigit = true ∨ c = '.' := by
    obtain ⟨d, rest, hd, hunsigned | hunsigned⟩ :=
      Numeral.takeSign_of_shortest (Numeral.hasDigits_scan.mp hwhole.1)
    · rw [hunsigned]
      rintro c ⟨⟩
      exact .inl (by rw [toLower_of_isDigit hd]; exact hd)
    · rw [hunsigned]
      rintro c ⟨⟩
      exact .inr rfl
  have hword : ∀ word : String, word ∈ ["inf", "infinity", "nan"] →
      (takeSign cs).2.map Char.toLower ≠ word.toList := by
    intro word hword heq
    rw [heq] at hhead
    have hnot : ∀ word ∈ ["inf", "infinity", "nan"],
        ¬ ∀ c ∈ word.toList.head?, c.isDigit = true ∨ c = '.' := by simp
    exact hnot word hword hhead
  rw [parseDouble?]
  simp only [hword "inf" (by decide), hword "infinity" (by decide), hword "nan" (by decide), hwhole,
    or_self, and_self, if_true, if_false]

end Wiring.Decimal
