import Wiring.Proofs.Numerals

/-!
# The number at the head of a text

The cursors of `Cursor.leading` move over bytes, and `Numeral.scan` takes characters. All that the cursors
look for is ASCII, and no byte of another character is, so they stop where the parts of the numeral end.

- `Cursor.ascii?_utf8`: what a cursor sees between two parts of a text.
- `Cursor.leading_eq`: the cursors cut out what is scanned, and never cut a character.
- `Cursor.read?_eq`: what has been cut out is always read.

`number_at_head` says which texts have a number at their head, and what it depends on.
-/

namespace Wiring.Decimal

open scoped Computability
open Grammar

namespace Cursor

/-! ## The bytes of a text -/

theorem utf8_append (u v : List Char) : utf8 (u ++ v) = utf8 u ++ utf8 v := List.flatMap_append

theorem utf8_cons (c : Char) (v : List Char) : utf8 (c :: v) = String.utf8EncodeChar c ++ utf8 v :=
  List.flatMap_cons

/-- An ASCII character is its own byte. -/
theorem utf8EncodeChar_of_ascii {c : Char} (h : c.toNat < 0x80) :
    String.utf8EncodeChar c = [UInt8.ofNat c.toNat] := by
  rw [String.utf8EncodeChar]
  exact if_pos (Nat.le_of_lt_succ h)

/-- Any other character starts with a byte that is none. -/
theorem utf8EncodeChar_of_not_ascii {c : Char} (h : ¬ c.toNat < 0x80) :
    ∃ b bs, String.utf8EncodeChar c = b :: bs ∧ 0x80 ≤ b.toNat := by
  have hnot : ¬ c.val.toNat ≤ 0x7f := fun hle => h (Nat.lt_succ_of_le hle)
  have hbyte : ∀ n, 0x80 ≤ n → n < 0x100 → 0x80 ≤ (UInt8.ofNat n).toNat := by
    intro n hge hlt
    rw [UInt8.toNat_ofNat', Nat.mod_eq_of_lt hlt]
    exact hge
  rw [String.utf8EncodeChar, if_neg hnot]
  split
  · exact ⟨_, _, rfl, hbyte _ (by omega) (by omega)⟩
  · split
    · exact ⟨_, _, rfl, hbyte _ (by omega) (by omega)⟩
    · exact ⟨_, _, rfl, hbyte _ (by omega) (by omega)⟩

theorem length_utf8 (u v : List Char) :
    (utf8 (u ++ v)).length = (utf8 u).length + (utf8 v).length := by
  rw [utf8_append, List.length_append]

/-- A cursor moves by one over an ASCII character. -/
theorem length_utf8_succ {c : Char} (h : c.toNat < 0x80) (u : List Char) :
    (utf8 u).length + 1 = (utf8 (u ++ [c])).length := by
  rw [length_utf8, utf8_cons, utf8EncodeChar_of_ascii h]
  rfl

/-- Every character has a byte. -/
theorem length_utf8_eq_zero {w : List Char} : (utf8 w).length = 0 ↔ w = [] := by
  cases w with
  | nil => exact iff_of_true rfl rfl
  | cons c w =>
    rw [utf8_cons, List.length_append, String.length_utf8EncodeChar]
    have := c.utf8Size_pos
    simp
    omega

/-- **Between two parts of a text**, a cursor sees the character that the second starts with, if it is
ASCII. -/
theorem ascii?_utf8 (u v : List Char) :
    ascii? (utf8 (u ++ v)) (utf8 u).length = v.head?.filter (·.toNat < 0x80) := by
  have hat : (utf8 (u ++ v))[(utf8 u).length]? = (utf8 v)[0]? := by
    rw [utf8_append, List.getElem?_append_right (Nat.le_refl _), Nat.sub_self]
  rw [ascii?, hat]
  cases v with
  | nil => rfl
  | cons c v =>
    rw [utf8_cons]
    by_cases h : c.toNat < 0x80
    · rw [utf8EncodeChar_of_ascii h]
      have hbyte : (UInt8.ofNat c.toNat).toNat = c.toNat := by
        rw [UInt8.toNat_ofNat']
        omega
      simp [hbyte, Char.ofNat_toNat]
    · obtain ⟨b, bs, hbytes, hb⟩ := utf8EncodeChar_of_not_ascii h
      have hchar : ¬ (Char.ofNat b.toNat).toNat < 0x80 := by
        have hlt := b.toNat_lt
        rw [Char.ofNat, dif_pos (.inl (by omega))]
        exact Nat.not_lt.mpr hb
      simp [hbytes, Option.filter_some, hchar, h]

theorem ascii?_eq_some_iff {c : Char} (hc : c.toNat < 0x80) (u v : List Char) :
    ascii? (utf8 (u ++ v)) (utf8 u).length = some c ↔ v.head? = some c := by
  rw [ascii?_utf8, Option.filter_eq_some_iff]
  exact and_iff_left (decide_eq_true hc)

/-- A test that only ASCII characters pass may be made on bytes. -/
theorem any_ascii? {p : Char → Bool} (hp : ∀ c, p c = true → c.toNat < 0x80) (u v : List Char) :
    (ascii? (utf8 (u ++ v)) (utf8 u).length).any p = v.head?.any p := by
  rw [ascii?_utf8]
  cases v with
  | nil => rfl
  | cons c v =>
    cases hc : p c with
    | true => simp [hc, hp c hc]
    | false =>
      by_cases h : c.toNat < 0x80
      · simp [h, hc]
      · simp [h, hc]

theorem ascii_of_either {a b : Char} (ha : a.toNat < 0x80) (hb : b.toNat < 0x80) (c : Char)
    (hc : (c == a || c == b) = true) : c.toNat < 0x80 := by
  rw [Bool.or_eq_true, beq_iff_eq, beq_iff_eq] at hc
  rcases hc with rfl | rfl
  · exact ha
  · exact hb

/-- **A cut** between two parts of a text takes no character apart. -/
theorem cut?_utf8 (u v : List Char) : cut? (u ++ v) (utf8 u).length = some (u, v) := by
  induction u with
  | nil => cases v <;> rfl
  | cons c u ih =>
    have hpos := c.utf8Size_pos
    obtain ⟨n, hn⟩ : ∃ n, (utf8 (c :: u)).length = n + 1 :=
      Nat.exists_eq_succ_of_ne_zero fun h => List.cons_ne_nil c u (length_utf8_eq_zero.mp h)
    have hlength : n + 1 = c.utf8Size + (utf8 u).length := by
      rw [← hn, utf8_cons, List.length_append, String.length_utf8EncodeChar]
    rw [hn, List.cons_append, cut?, if_pos (by omega), hlength, Nat.add_sub_cancel_left, ih]
    rfl

/-! ## Where cursors stop -/

/-- Digits end where `takeDigits` stops. -/
theorem digitsEnd_utf8 (u v : List Char) :
    digitsEnd (utf8 (u ++ v)) (utf8 u).length = (utf8 (u ++ (takeDigits v).1)).length := by
  have hascii : ∀ c : Char, c.isDigit = true → c.toNat < 0x80 := by
    intro c hc
    exact Nat.lt_of_le_of_lt (Char.isDigit_iff_toNat.mp hc).2 (by decide)
  -- A digit moves from the text behind the cursor to the text before it.
  induction v generalizing u with
  | nil =>
    rw [digitsEnd, any_ascii? hascii]
    show (utf8 u).length = (utf8 (u ++ [])).length
    rw [List.append_nil]
  | cons c v ih =>
    rw [digitsEnd, any_ascii? hascii]
    cases hc : c.isDigit with
    | true =>
      have htaken : (takeDigits (c :: v)).1 = c :: (takeDigits v).1 := by simp [takeDigits, hc]
      have ih := ih (u ++ [c])
      rw [List.append_assoc, List.append_assoc] at ih
      rw [htaken, length_utf8_succ (hascii c hc)]
      simpa [hc] using ih
    | false =>
      have htaken : (takeDigits (c :: v)).1 = [] := by simp [takeDigits, hc]
      rw [htaken, List.append_nil]
      simp [hc]

/-- A sign ends where `takeSign` stops. -/
theorem signEnd_utf8 (u v : List Char) :
    signEnd (utf8 (u ++ v)) (utf8 u).length = (utf8 (u ++ (takeSign v).1.toList)).length := by
  have hascii : ∀ c : Char, isSign c = true → c.toNat < 0x80 :=
    ascii_of_either (by decide) (by decide)
  rw [signEnd, any_ascii? hascii, length_utf8]
  have htext := takeSign_text v
  rcases mem_sign.mp (takeSign_mem v) with h | h | h
  · have hhead := (head?_takeSign (Option.toList_eq_nil_iff.mp h)).2
    have hnot : v.head?.any isSign = false := by
      cases v with
      | nil => rfl
      | cons c v => simp [isSign, hhead c rfl]
    rw [hnot, h]
    rfl
  · rw [h] at htext ⊢
    rw [← htext]
    rfl
  · rw [h] at htext ⊢
    rw [← htext]
    rfl

/-- Digits and a fraction end where `takeFraction` stops, and are counted. -/
theorem fractionEnd_utf8 (u v : List Char) :
    let whole := takeDigits v
    let fraction := (takeFraction whole.2).1
    fractionEnd (utf8 (u ++ v)) (utf8 u).length =
      ((utf8 (u ++ (whole.1 ++ fraction.elim [] ('.' :: ·)))).length,
        (utf8 whole.1).length + (utf8 (fraction.getD [])).length) := by
  intro whole fraction
  have htext : u ++ v = (u ++ whole.1) ++ whole.2 := by
    rw [List.append_assoc]
    exact congrArg (u ++ ·) (takeDigits_text v).symm
  have hcount : (utf8 (u ++ whole.1)).length - (utf8 u).length = (utf8 whole.1).length := by
    rw [length_utf8, Nat.add_sub_cancel_left]
  have hpoint : ascii? (utf8 (u ++ v)) (utf8 (u ++ whole.1)).length = some '.' ↔
      whole.2.head? = some '.' := by
    rw [htext]
    exact ascii?_eq_some_iff (by decide) _ _
  rw [fractionEnd]
  dsimp only
  rw [digitsEnd_utf8, hcount]
  by_cases hhead : whole.2.head? = some '.'
  · obtain ⟨rest, hrest⟩ := List.head?_eq_some_iff.mp hhead
    have hfraction : fraction = some (takeDigits rest).1 := by
      show (takeFraction whole.2).1 = _
      rw [hrest]
      rfl
    have hdigits := digitsEnd_utf8 (u ++ whole.1 ++ ['.']) rest
    rw [List.append_assoc _ ['.'], List.singleton_append, ← hrest, ← htext] at hdigits
    rw [if_pos (hpoint.mpr hhead), length_utf8_succ (show '.'.toNat < 0x80 by decide), hdigits, hfraction,
      length_utf8 (u ++ whole.1 ++ ['.']), Nat.add_sub_cancel_left, ← length_utf8]
    simp
  · have hfraction : fraction = none := by
      show (takeFraction whole.2).1 = none
      rw [takeFraction_of_head]
      rintro c hc rfl
      exact hhead hc
    rw [if_neg (mt hpoint.mp hhead), hfraction]
    show _ = ((utf8 (u ++ (whole.1 ++ []))).length, _)
    rw [List.append_nil]
    rfl

/-- An exponent ends where `takeExponent` stops. -/
theorem exponentEnd_utf8 (u v : List Char) :
    exponentEnd (utf8 (u ++ v)) (utf8 u).length =
      (utf8 (u ++ (takeExponent v).1.elim [] fun x => x.mark :: (x.sign.toList ++ x.digits))).length := by
  have hascii : ∀ c : Char, isMark c = true → c.toNat < 0x80 :=
    ascii_of_either (by decide) (by decide)
  rw [exponentEnd, any_ascii? hascii]
  cases v with
  | nil => simp [takeExponent]
  | cons mark v =>
    show (if isMark mark = true then _ else _) = _
    by_cases hmark : isMark mark = true
    · have htext : u ++ mark :: v = u ++ [mark] ++ v := by simp
      have hsign := signEnd_utf8 (u ++ [mark]) v
      have hdigits := digitsEnd_utf8 (u ++ [mark] ++ (takeSign v).1.toList) (takeSign v).2
      rw [List.append_assoc _ (takeSign v).1.toList, takeSign_text] at hdigits
      rw [if_pos hmark, length_utf8_succ (hascii mark hmark), htext, hsign]
      dsimp only
      rw [hdigits, length_utf8 _ (takeDigits (takeSign v).2).1]
      have hmark : mark = 'e' ∨ mark = 'E' := by simpa [isMark] using hmark
      -- Without digits, the cursor goes back to the mark.
      by_cases hnil : (takeDigits (takeSign v).2).1 = []
      · have hnone : takeExponent (mark :: v) = (none, mark :: v) := by
          rw [takeExponent, if_neg fun h => h.2 hnil]
        rw [hnone, length_utf8_eq_zero.mpr hnil, Nat.add_zero, if_neg (Nat.lt_irrefl _)]
        simp
      · have hpos := Nat.pos_of_ne_zero (mt length_utf8_eq_zero.mp hnil)
        rw [if_pos (Nat.lt_add_of_pos_right hpos), takeExponent, if_pos ⟨hmark, hnil⟩, ← length_utf8]
        simp
    · have hnot : ¬ (mark = 'e' ∨ mark = 'E') := by simpa [isMark] using hmark
      rw [if_neg hmark, takeExponent, if_neg fun h => hnot h.1]
      simp

/-! ## What the cursors find -/

/-- The first byte tells a minus. -/
theorem minus_utf8 (cs : List Char) : ascii? (utf8 cs) 0 = some '-' ↔ (takeSign cs).1 = some '-' := by
  have hat : ascii? (utf8 cs) 0 = some '-' ↔ cs.head? = some '-' :=
    ascii?_eq_some_iff (by decide) [] cs
  rw [hat]
  cases hsign : (takeSign cs).1 with
  | none => exact iff_of_false (fun hc => ((head?_takeSign hsign).2 '-' hc).2 rfl) nofun
  | some c =>
    have htext := takeSign_text cs
    rw [hsign] at htext
    rw [← htext]
    rfl

/-- The cursors pass over the text that is scanned, and count its digits before the exponent. -/
theorem scan_utf8 (cs : List Char) :
    let found := fractionEnd (utf8 cs) (utf8 (takeSign cs).1.toList).length
    exponentEnd (utf8 cs) found.1 = (utf8 (Numeral.scan cs).1.text).length ∧
      (found.2 = 0 ↔ ¬ (Numeral.scan cs).1.hasDigits = true) := by
  let whole := takeDigits (takeSign cs).2
  let fraction := takeFraction whole.2
  let mantissa := (takeSign cs).1.toList ++ (whole.1 ++ fraction.1.elim [] ('.' :: ·))
  have htext : mantissa ++ fraction.2 = cs := by
    rw [List.append_assoc, List.append_assoc, takeFraction_text, takeDigits_text, takeSign_text]
  have hfraction := fractionEnd_utf8 (takeSign cs).1.toList (takeSign cs).2
  have hexponent := exponentEnd_utf8 mantissa fraction.2
  rw [takeSign_text] at hfraction
  rw [htext] at hexponent
  intro found
  constructor
  · rw [show found.1 = (utf8 mantissa).length from congrArg Prod.fst hfraction, hexponent]
    simp [Numeral.text, Numeral.scan, mantissa, whole, fraction]
  · rw [show found.2 = _ from congrArg Prod.snd hfraction, ← length_utf8, length_utf8_eq_zero]
    simp [Numeral.scan, Numeral.hasDigits, Numeral.digits]

/-- **The cursors cut out what is scanned.** No cut falls into a character. -/
theorem leading_eq (cs : List Char) : leading cs =
    if infinityWord.isPrefixOf (takeSign cs).2 then .infinite ((takeSign cs).1 == some '-')
    else if (Numeral.scan cs).1.hasDigits then .numeral (Numeral.scan cs).1.text
    else .noNumber := by
  have hsign : signEnd (utf8 cs) 0 = (utf8 (takeSign cs).1.toList).length := signEnd_utf8 [] cs
  have hunsigned := cut?_utf8 (takeSign cs).1.toList (takeSign cs).2
  have hnumeral := cut?_utf8 (Numeral.scan cs).1.text (Numeral.scan cs).2
  have hminus : (ascii? (utf8 cs) 0 == some '-') = ((takeSign cs).1 == some '-') :=
    Bool.eq_iff_iff.mpr (by rw [beq_iff_eq, beq_iff_eq, minus_utf8])
  obtain ⟨hend, hcount⟩ := scan_utf8 cs
  rw [takeSign_text] at hunsigned
  rw [Numeral.scan_text] at hnumeral
  rw [leading]
  dsimp only
  rw [hsign, hunsigned, hminus, hend, hnumeral]
  dsimp only
  simp only [hcount]
  split
  · rfl
  · by_cases hdigits : (Numeral.scan cs).1.hasDigits = true
    · rw [if_neg (not_not_intro hdigits), if_pos hdigits]
    · rw [if_pos hdigits, if_neg hdigits]

/-- **What has been cut out is read**, whatever the text. -/
theorem read?_eq (text : List Char) : read? text =
    some ((leadingDouble? text).elim (.error .noDigits) fun x => .ok (.number x)) := by
  rw [read?, leading_eq, leadingDouble?]
  dsimp only
  by_cases hinfinite : infinityWord.isPrefixOf (takeSign (text.dropWhile Text.isBlank)).2
  · rw [if_pos hinfinite, if_pos hinfinite]
    rfl
  · rw [if_neg hinfinite, if_neg hinfinite]
    by_cases hdigits : (Numeral.scan (text.dropWhile Text.isBlank)).1.hasDigits
    · rw [if_pos hdigits, if_pos hdigits]
      dsimp only
      rw [parseDouble?_numeral (Numeral.scan_mem hdigits), Numeral.scan_scanned]
      rfl
    · rw [if_neg hdigits, if_neg hdigits]
      rfl

end Cursor

/-! ## The whole law -/

variable {sg p cs blanks rest : List Char}

/-- Behind a sign, the word for an infinite number is found. -/
theorem takeSign_of_infinity (hsg : sg ∈ optional sign) (h : sg ++ infinityWord <+: cs) :
    (takeSign cs).1 = sg.head? ∧ infinityWord <+: (takeSign cs).2 := by
  obtain ⟨rest, rfl⟩ := h
  have hhead : sg = [] → ∀ c ∈ (infinityWord ++ rest).head?, c ≠ '+' ∧ c ≠ '-' := by
    rintro - c ⟨⟩
    decide
  rw [List.append_assoc, takeSign_append hsg hhead]
  exact ⟨rfl, List.prefix_append _ _⟩

theorem isPrefixOf_takeSign (cs : List Char) :
    infinityWord.isPrefixOf (takeSign cs).2 = true ↔ ∃ h ∈ infinities, h <+: cs := by
  rw [List.isPrefixOf_iff_prefix]
  constructor
  · rintro ⟨rest, hrest⟩
    refine ⟨_, ⟨_, takeSign_mem cs, infinityWord, rfl, rfl⟩, rest, ?_⟩
    rw [List.append_assoc, hrest]
    exact takeSign_text cs
  · rintro ⟨_, ⟨sg, hsg, _, rfl, rfl⟩, h⟩
    exact (takeSign_of_infinity hsg h).2

theorem exists_head_iff (cs : List Char) : (∃ h ∈ heads, h <+: cs) ↔
    (∃ h ∈ infinities, h <+: cs) ∨ ∃ h ∈ shortest, h <+: cs := by
  simp only [heads, Language.mem_add, or_and_right, exists_or]

/-- There is a number when a text starts with one, behind white space. -/
theorem leadingDouble?_isSome (text : List Char) :
    (leadingDouble? text).isSome = true ↔ ∃ h ∈ heads, h <+: text.dropWhile Text.isBlank := by
  rw [exists_head_iff, ← isPrefixOf_takeSign, ← Numeral.hasDigits_scan, leadingDouble?]
  dsimp only
  split
  · next hinfinite => exact iff_of_true rfl (.inl hinfinite)
  · next hinfinite =>
    split
    · next hdigits => exact iff_of_true rfl (.inr hdigits)
    · next hdigits => exact iff_of_false Bool.false_ne_true fun h => h.elim hinfinite hdigits

/-- Signs, digits and the point are no white space. -/
theorem head?_shortest (h : p ∈ shortest) : ∃ c ∈ p.head?, Text.isBlank c = false := by
  have hdigit : ∀ d : Char, d.isDigit = true → Text.isBlank d = false := by
    intro d hd
    have hrange : 48 ≤ d.toNat ∧ d.toNat ≤ 57 := Char.isDigit_iff_toNat.mp hd
    simp [Text.isBlank, Text.blankRanges]
    omega
  obtain ⟨sg, hsg, _, ⟨d, hd, rfl⟩ | hfraction, rfl⟩ := h
  · rcases mem_sign.mp hsg with rfl | rfl | rfl
    · exact ⟨d, rfl, hdigit d hd⟩
    · exact ⟨'+', rfl, by decide⟩
    · exact ⟨'-', rfl, by decide⟩
  · obtain ⟨_, -, rfl⟩ := mem_point_mul.mp hfraction
    rcases mem_sign.mp hsg with rfl | rfl | rfl
    · exact ⟨'.', rfl, by decide⟩
    · exact ⟨'+', rfl, by decide⟩
    · exact ⟨'-', rfl, by decide⟩

/-- **Only the longest numeral counts**, not the white space before it, nor what follows it. -/
theorem leadingDouble?_of_longest (hblanks : ∀ c ∈ blanks, Text.isBlank c = true)
    (h : IsLongestPrefix numerals p (p ++ rest)) :
    leadingDouble? (blanks ++ (p ++ rest)) =
      some (Binary64.ofDecimal (Numeral.scan p).1.negative (Numeral.scan p).1.significand
        (Numeral.scan p).1.scale) := by
  obtain ⟨short, hshort, hprefix⟩ := Numeral.exists_shortest h.mem
  have hprefix := hprefix.trans h.isPrefix
  have hstart : (blanks ++ (p ++ rest)).dropWhile Text.isBlank = p ++ rest := by
    obtain ⟨c, hc, hblank⟩ := head?_shortest hshort
    obtain ⟨more, hmore⟩ := hprefix
    rw [List.dropWhile_append_of_pos hblanks, ← hmore]
    cases short with
    | nil => cases hc
    | cons d short =>
      cases hc
      exact List.dropWhile_cons_of_neg (Bool.not_eq_true _ ▸ hblank)
  have hfinite : ¬ infinityWord.isPrefixOf (takeSign (p ++ rest)).2 = true := by
    intro hinfinite
    obtain ⟨more, hmore⟩ := List.isPrefixOf_iff_prefix.mp hinfinite
    obtain ⟨d, more, hd, hunsigned | hunsigned⟩ := Numeral.takeSign_of_shortest ⟨short, hshort, hprefix⟩
    · rw [hunsigned] at hmore
      obtain rfl : 'I' = d := (List.cons.inj hmore).1
      cases hd
    · rw [hunsigned] at hmore
      exact absurd (List.cons.inj hmore).1 (by decide)
  obtain ⟨hdigits, -, hscan⟩ := h.scan_eq
  rw [leadingDouble?, hstart]
  dsimp only
  rw [if_neg hfinite, if_pos hdigits, hscan]

/-- **A text has a number at its head** when, behind white space, it starts with a sign or none, and then
with the word `Infinity`, a digit, or the point and a digit. The word makes the number infinite, with the
sign. Otherwise the cursors cut out the longest numeral: this never takes a character apart, and the
numeral is always a text of a double, which is the number. Neither the white space nor what follows the
numeral has a say, as long as the numeral stays the longest one. -/
theorem number_at_head (text : List Char) :
    let s := text.dropWhile Text.isBlank
    Cursor.read? text =
      some ((leadingDouble? text).elim (.error .noDigits) fun x => .ok (.number x)) ∧
    ((leadingDouble? text).isSome = true ↔ ∃ h ∈ heads, h <+: s) ∧
    (∀ sg ∈ optional sign, sg ++ infinityWord <+: s →
      leadingDouble? text = some (.infinite (sg = ['-']))) ∧
    ((leadingDouble? text).isSome = true → (¬ ∃ h ∈ infinities, h <+: s) →
      ∃ p x, IsLongestPrefix numerals p s ∧ Cursor.leading s = .numeral p ∧
        p ∈ doubles ∧ parseDouble? p = some (.number x) ∧ leadingDouble? text = some x ∧
        ∀ blanks rest, (∀ c ∈ blanks, Text.isBlank c = true) →
          IsLongestPrefix numerals p (p ++ rest) → leadingDouble? (blanks ++ (p ++ rest)) = some x) := by
  intro s
  refine ⟨Cursor.read?_eq text, leadingDouble?_isSome text, fun sg hsg h => ?_, fun h hfinite => ?_⟩
  · obtain ⟨hsign, hinfinite⟩ := takeSign_of_infinity hsg h
    rw [leadingDouble?]
    dsimp only
    rw [if_pos (List.isPrefixOf_iff_prefix.mpr hinfinite), hsign]
    rcases mem_sign.mp hsg with rfl | rfl | rfl <;> rfl
  · have hshort := ((exists_head_iff s).mp ((leadingDouble?_isSome text).mp h)).resolve_left hfinite
    have hdigits := Numeral.hasDigits_scan.mpr hshort
    obtain ⟨p, hlongest, hleading⟩ :
        ∃ p, IsLongestPrefix numerals p s ∧ Cursor.leading s = .numeral p := by
      refine ⟨_, Numeral.scan_longest hdigits, ?_⟩
      rw [Cursor.leading_eq, if_neg (mt (isPrefixOf_takeSign s).mp hfinite), if_pos hdigits]
    have hnumber := parseDouble?_numeral hlongest.mem
    refine ⟨p, _, hlongest, hleading, ?_, hnumber, ?_,
      fun blanks rest hblanks h => leadingDouble?_of_longest hblanks h⟩
    · exact (parseDouble?_isSome p).mp (by rw [hnumber]; rfl)
    · have hblanks : ∀ c ∈ text.takeWhile Text.isBlank, Text.isBlank c = true :=
        fun c hc => List.all_eq_true.mp List.all_takeWhile c hc
      obtain ⟨rest, hrest⟩ := hlongest.isPrefix
      rw [← hrest] at hlongest
      have hfound := leadingDouble?_of_longest hblanks hlongest
      rw [hrest, List.takeWhile_append_dropWhile] at hfound
      exact hfound

/-- An exponent without digits is given back, and so is one that is followed by a point. -/
theorem number_at_head_givenBack :
    leadingDouble? " -1.50e+px€".toList = some (.finite true 6755399441055744 (-52)) ∧
    Cursor.leading "-1.50e+px€".toList = .numeral "-1.50".toList ∧
    leadingDouble? "\t\n-1.50e-.5".toList = some (.finite true 6755399441055744 (-52)) ∧
    leadingDouble? " -Infinity5".toList = some (.infinite true) := by
  have hhalf : leadingDouble? " -1.50e+px€".toList = some (.finite true 6755399441055744 (-52)) := by
    decide +kernel
  have hlongest : IsLongestPrefix numerals "-1.50".toList "-1.50e+px€".toList :=
    Numeral.scan_longest (show (Numeral.scan "-1.50e+px€".toList).1.hasDigits = true by decide)
  have hreplaced : IsLongestPrefix numerals "-1.50".toList ("-1.50".toList ++ "e-.5".toList) :=
    Numeral.scan_longest (show (Numeral.scan "-1.50e-.5".toList).1.hasDigits = true by decide)
  have hfinite : ¬ ∃ h ∈ infinities, h <+: "-1.50e+px€".toList :=
    mt (isPrefixOf_takeSign _).mpr (by decide)
  obtain ⟨p, x, hp, hleading, -, -, hx, hunchanged⟩ :=
    (number_at_head " -1.50e+px€".toList).2.2.2 (by rw [hhalf]; rfl) hfinite
  obtain rfl : p = "-1.50".toList := hp.eq hlongest
  obtain rfl : x = .finite true 6755399441055744 (-52) := Option.some.inj (hx.symm.trans hhalf)
  have hblanks : ∀ c ∈ ['\t', '\n'], Text.isBlank c = true := List.all_eq_true.mp rfl
  refine ⟨hhalf, hleading, hunchanged ['\t', '\n'] "e-.5".toList hblanks hreplaced, ?_⟩
  have hminus : ['-'] ∈ optional sign := mem_sign.mpr (.inr (.inr rfl))
  exact (number_at_head " -Infinity5".toList).2.2.1 ['-'] hminus (by decide)

end Wiring.Decimal
