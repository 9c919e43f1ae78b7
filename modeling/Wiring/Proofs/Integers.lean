import Mathlib.Algebra.Ring.Int.Defs
import Wiring.Decimal.Bounded
import Wiring.Primitive
import Wiring.Proofs.Numerals

/-!
# The decimal forms of integers

An integer has one decimal form, which is what it prints as.

- `Grammar.mem_integers`: the decimal forms are the texts of the grammar.
- `readInteger_toString`: an integer is read from its decimal form.
- `Bounded.read?_eq_some_iff`: reading within 64 bits loses no integer that has 64 bits itself.
-/

namespace Wiring.Decimal

open scoped Computability
open Grammar

variable {cs ds w : List Char} {c : Char} {i n : Int} {k m : Nat}

/-! ## Digits of a natural number -/

/-- A digit is the digit of its value. -/
theorem digitChar_of_isDigit (h : c.isDigit = true) :
    c.toNat - '0'.toNat < 10 ∧ Nat.digitChar (c.toNat - '0'.toNat) = c := by
  obtain ⟨hge, hle⟩ := Char.isDigit_iff_toNat.mp h
  have hlt : c.toNat - '0'.toNat < 10 := by
    have hten : '9'.toNat = '0'.toNat + 9 := rfl
    omega
  refine ⟨hlt, Char.toNat_inj.mp ?_⟩
  rw [Nat.toNat_digitChar_of_lt_ten hlt]
  exact Nat.add_sub_cancel' hge

/-- Digits behind a number make it no smaller. -/
theorem le_ofDigitChars (m : Nat) (ds : List Char) : m ≤ Nat.ofDigitChars 10 ds m := by
  rw [Nat.ofDigitChars_eq_ofDigitChars_zero]
  exact Nat.le_add_right_of_le (Nat.le_mul_of_pos_left m (Nat.pow_pos (by decide)))

/-- Digits behind a positive number continue its decimal form. -/
theorem toDigits_append (hm : 0 < m) (hds : ∀ c ∈ ds, c.isDigit = true) :
    Nat.toDigits 10 m ++ ds = Nat.toDigits 10 (Nat.ofDigitChars 10 ds m) := by
  induction ds generalizing m with
  | nil => simp
  | cons c ds ih =>
    obtain ⟨hlt, hchar⟩ := digitChar_of_isDigit (hds c List.mem_cons_self)
    have hc : Nat.toDigits 10 m ++ [c] = Nat.toDigits 10 (10 * m + (c.toNat - '0'.toNat)) := by
      rw [← Nat.toDigits_append_toDigits (by decide) hm hlt, Nat.toDigits_of_lt_base hlt, hchar]
    rw [List.append_cons, hc, Nat.ofDigitChars_cons]
    exact ih (by omega) fun d hd => hds d (List.mem_cons_of_mem _ hd)

namespace Grammar

theorem mem_unpadded : w ∈ unpadded ↔
    ∃ c, ('1' ≤ c ∧ c ≤ '9') ∧ ∃ ds, (∀ d ∈ ds, d.isDigit = true) ∧ w = c :: ds := by
  constructor
  · rintro ⟨_, ⟨c, hc, rfl⟩, ds, hds, rfl⟩
    exact ⟨c, hc, ds, mem_kstar_one.mp hds, rfl⟩
  · rintro ⟨c, hc, ds, hds, rfl⟩
    exact ⟨[c], ⟨c, hc, rfl⟩, ds, mem_kstar_one.mpr hds, rfl⟩

theorem mem_minus : w ∈ optional (one (· = '-')) ↔ w = [] ∨ w = ['-'] := by
  rw [mem_optional]
  exact or_congr_right ⟨fun ⟨_, hc, h⟩ => hc ▸ h, fun h => ⟨'-', rfl, h⟩⟩

/-- The digits from one to nine are those of positive values. -/
theorem nonzero_iff : '1' ≤ c ∧ c ≤ '9' ↔ c.isDigit = true ∧ 0 < c.toNat - '0'.toNat := by
  rw [Char.isDigit_iff_toNat, Char.le_def, Char.le_def, UInt32.le_iff_toNat_le, UInt32.le_iff_toNat_le]
  have hzero : '0'.toNat = 48 := rfl
  have hone : '1'.val.toNat = 49 := rfl
  have hnine : '9'.val.toNat = '9'.toNat := rfl
  have hc : c.val.toNat = c.toNat := rfl
  omega

theorem digitChar_nonzero (hk : 0 < k) (hlt : k < 10) :
    '1' ≤ k.digitChar ∧ k.digitChar ≤ '9' := by
  rw [nonzero_iff, Nat.isDigit_digitChar, Nat.toNat_digitChar_of_lt_ten hlt]
  exact ⟨decide_eq_true hlt, Nat.lt_sub_of_add_lt (Nat.add_lt_add_left hk _)⟩

/-- The decimal form of a positive number does not start with a zero. -/
theorem toDigits_mem (hk : 0 < k) : Nat.toDigits 10 k ∈ unpadded := by
  induction k using Nat.strongRecOn with
  | ind k ih =>
    by_cases hlt : k < 10
    · rw [Nat.toDigits_of_lt_base hlt]
      exact mem_unpadded.mpr ⟨_, digitChar_nonzero hk hlt, [], by simp, rfl⟩
    · rw [Nat.toDigits_of_base_le (by decide) (by omega)]
      obtain ⟨c, hc, ds, hds, heq⟩ := mem_unpadded.mp (ih (k / 10) (by omega) (by omega))
      rw [heq]
      refine mem_unpadded.mpr ⟨c, hc, ds ++ [(k % 10).digitChar], fun d hd => ?_, rfl⟩
      rcases List.mem_append.mp hd with hd | hd
      · exact hds d hd
      · rw [List.mem_singleton.mp hd, Nat.isDigit_digitChar]
        exact decide_eq_true (Nat.mod_lt k (by decide))

/-- **Without leading zeros**, digits are the decimal form of a positive number. -/
theorem mem_unpadded_iff_toDigits : w ∈ unpadded ↔ ∃ k, 0 < k ∧ w = Nat.toDigits 10 k := by
  constructor
  · intro h
    obtain ⟨c, hc, ds, hds, rfl⟩ := mem_unpadded.mp h
    obtain ⟨hdigit, hpos⟩ := nonzero_iff.mp hc
    obtain ⟨hlt, hchar⟩ := digitChar_of_isDigit hdigit
    have happend := toDigits_append hpos hds
    rw [Nat.toDigits_of_lt_base hlt, hchar] at happend
    exact ⟨_, Nat.lt_of_lt_of_le hpos (le_ofDigitChars _ ds), happend⟩
  · rintro ⟨k, hk, rfl⟩
    exact toDigits_mem hk

end Grammar

/-! ## Decimal forms -/

/-- An integer prints as the digits of its size, behind a minus if it is negative. -/
theorem toList_toString (i : Int) :
    (toString i).toList = (if i < 0 then ['-'] else []) ++ Nat.toDigits 10 i.natAbs := by
  rw [Int.toString_eq_repr, Int.repr_eq_if]
  by_cases h : i < 0
  · rw [if_neg (by omega), if_pos h, String.toList_append, Nat.toList_repr,
      show (-i).toNat = i.natAbs by omega]
    rfl
  · rw [if_pos (by omega), if_neg h, Nat.toList_repr, show i.toNat = i.natAbs by omega]
    rfl

theorem isDigit_of_mem_toDigits (h : c ∈ Nat.toDigits 10 k) : c.isDigit = true :=
  Nat.isDigit_of_mem_toDigits (by decide) (by decide) h

theorem toDigits_mem_digits (k : Nat) : Nat.toDigits 10 k ∈ digits :=
  mem_digits.mpr ⟨Nat.toDigits_ne_nil, fun _ => isDigit_of_mem_toDigits⟩

/-- **The decimal forms are the texts of the grammar.** -/
theorem Grammar.mem_integers : w ∈ integers ↔ ∃ i : Int, w = (toString i).toList := by
  constructor
  · rintro (⟨_, rfl, rfl⟩ | ⟨sg, hsg, ds, hds, rfl⟩)
    · exact ⟨0, rfl⟩
    · obtain ⟨k, hk, rfl⟩ := mem_unpadded_iff_toDigits.mp hds
      rcases mem_minus.mp hsg with rfl | rfl
      · refine ⟨(k : Int), ?_⟩
        rw [toList_toString, if_neg (by omega)]
        rfl
      · refine ⟨-(k : Int), ?_⟩
        rw [toList_toString, if_pos (by omega), Int.natAbs_neg]
        rfl
  · rintro ⟨i, rfl⟩
    by_cases hzero : i = 0
    · subst hzero
      exact .inl ⟨'0', rfl, rfl⟩
    · have hsize : Nat.toDigits 10 i.natAbs ∈ unpadded := toDigits_mem (by omega)
      have hsign : (if i < 0 then ['-'] else []) ∈ optional (one (· = '-')) := by
        rw [mem_minus]
        split
        · exact .inr rfl
        · exact .inl rfl
      exact .inr ⟨_, hsign, _, hsize, (toList_toString i).symm⟩

/-- **An integer is read from its decimal form.** -/
theorem readInteger_toString (i : Int) : readInteger (toString i).toList = i := by
  rw [toList_toString]
  by_cases h : i < 0
  · rw [if_pos h]
    show -((Nat.ofDigitChars 10 (Nat.toDigits 10 i.natAbs) 0 : Nat) : Int) = i
    rw [Nat.ofDigitChars_ten_toDigits]
    omega
  · rw [if_neg h, List.nil_append]
    unfold readInteger
    split
    · next ds heq =>
      have hdigit : '-'.isDigit = true := isDigit_of_mem_toDigits (heq ▸ List.mem_cons_self)
      cases hdigit
    · rw [Nat.ofDigitChars_ten_toDigits]
      omega

theorem fitsInt64_iff : fitsInt64 i = true ↔ -2 ^ 63 ≤ i ∧ i < 2 ^ 63 := by
  rw [fitsInt64, Bool.and_eq_true, decide_eq_true_iff, decide_eq_true_iff]
  omega

theorem canonicalInt64?_eq_some_iff {s : String} :
    canonicalInt64? s = some i ↔ fitsInt64 i = true ∧ toString i = s := by
  rw [canonicalInt64?]
  constructor
  · intro h
    split at h
    · next hcanonical =>
      cases h
      exact hcanonical
    · cases h
  · rintro ⟨hfits, rfl⟩
    rw [readInteger_toString, if_pos ⟨hfits, rfl⟩]

/-! ## Reading within 64 bits -/

namespace Bounded

/-- The integer of a sign and a size. -/
def signed : Bool → Nat → Int
  | true, size => -(size : Int)
  | false, size => size

@[simp] theorem signed_zero (negative : Bool) : signed negative 0 = 0 := by
  cases negative <;> rfl

theorem check_eq_some_iff : check n = some i ↔ n = i ∧ fitsInt64 i = true := by
  rw [check]
  split
  · next h => rw [Option.some_inj, and_iff_left_of_imp (fun heq => heq ▸ h)]
  · next h => exact iff_of_false nofun fun ⟨heq, hfits⟩ => h (heq ▸ hfits)

/-- An integer that has 64 bits still has them closer to zero. -/
theorem fits_of_le {negative : Bool} (hle : k ≤ m) (h : fitsInt64 (signed negative m) = true) :
    fitsInt64 (signed negative k) = true := by
  rw [fitsInt64_iff] at h ⊢
  cases negative with
  | true =>
    simp only [signed] at h ⊢
    omega
  | false =>
    simp only [signed] at h ⊢
    omega

/-- **One more digit** is refused only when the integer with it is beyond 64 bits. -/
theorem push_signed {negative : Bool} (hc : c.isDigit = true) :
    push negative (signed negative m) c =
      check (signed negative (10 * m + (c.toNat - '0'.toNat))) := by
  have htens : signed negative m * 10 = signed negative (10 * m) := by
    cases negative <;> simp only [signed] <;> omega
  have hdigit : ∀ digit : Nat, (if negative = true then signed negative (10 * m) - (digit : Int)
      else signed negative (10 * m) + digit) = signed negative (10 * m + digit) := by
    intro digit
    cases negative with
    | true =>
      rw [if_pos rfl]
      simp only [signed]
      omega
    | false =>
      rw [if_neg Bool.false_ne_true]
      rfl
  rw [push, if_pos hc, htens]
  simp only [check]
  by_cases hfits : fitsInt64 (signed negative (10 * m)) = true
  · rw [if_pos hfits, Option.bind_some, hdigit]
  · rw [if_neg hfits, if_neg (mt (fits_of_le (Nat.le_add_right _ _)) hfits)]
    rfl

/-- **Digits in turn** give the integer of all of them, unless it is beyond 64 bits. -/
theorem foldlM_push {negative : Bool} (hds : ∀ c ∈ ds, c.isDigit = true)
    (hfits : fitsInt64 (signed negative m) = true) :
    ds.foldlM (push negative) (signed negative m) =
      check (signed negative (Nat.ofDigitChars 10 ds m)) := by
  induction ds generalizing m with
  | nil => exact (if_pos hfits).symm
  | cons c ds ih =>
    rw [List.foldlM_cons, push_signed (hds c List.mem_cons_self), Nat.ofDigitChars_cons]
    generalize 10 * m + (c.toNat - '0'.toNat) = next
    by_cases hnext : fitsInt64 (signed negative next) = true
    · rw [check, if_pos hnext]
      exact ih (fun d hd => hds d (List.mem_cons_of_mem _ hd)) hnext
    -- The digits that follow cannot bring the integer back.
    · rw [check, if_neg hnext, check, if_neg (mt (fits_of_le (le_ofDigitChars next ds)) hnext)]
      rfl

theorem foldlM_push_zero {negative : Bool} (hds : ∀ c ∈ ds, c.isDigit = true) :
    ds.foldlM (push negative) 0 = check (signed negative (Nat.ofDigitChars 10 ds 0)) := by
  have hzero : fitsInt64 (signed negative 0) = true := by
    rw [signed_zero]
    rfl
  rw [← foldlM_push hds hzero, signed_zero]

/-- Nothing but digits is taken. -/
theorem isDigit_of_foldlM {negative : Bool} (h : ds.foldlM (push negative) n = some i) :
    ∀ c ∈ ds, c.isDigit = true := by
  induction ds generalizing n with
  | nil => exact fun c hc => absurd hc List.not_mem_nil
  | cons c ds ih =>
    obtain ⟨next, hnext, hrest⟩ := Option.bind_eq_some_iff.mp h
    intro d hd
    rcases List.mem_cons.mp hd with rfl | hd
    · by_contra hnot
      rw [push, if_neg hnot] at hnext
      cases hnext
    · exact ih hrest d hd

/-- **Reading within 64 bits** gives the integers of 64 bits: a sign or none, and digits. -/
theorem read?_eq_some_iff : read? cs = some i ↔
    ∃ sg ∈ optional sign, ∃ ds ∈ digits, cs = sg ++ ds ∧
      signed (sg.head? == some '-') (Nat.ofDigitChars 10 ds 0) = i ∧ fitsInt64 i = true := by
  constructor
  · intro h
    rw [read?] at h
    split at h
    · cases h
    · next hne =>
      have hds := isDigit_of_foldlM h
      rw [foldlM_push_zero hds] at h
      refine ⟨_, takeSign_mem cs, _, mem_digits.mpr ⟨hne, hds⟩, (takeSign_text cs).symm, ?_⟩
      rw [Option.head?_toList]
      exact check_eq_some_iff.mp h
  · rintro ⟨sg, hsg, ds, hds, rfl, hvalue⟩
    obtain ⟨hne, hds⟩ := mem_digits.mp hds
    have hsigned : takeSign (sg ++ ds) = (sg.head?, ds) :=
      takeSign_append hsg fun _ c hc => not_sign_of_isDigit (hds c (List.mem_of_mem_head? hc))
    rw [read?, hsigned]
    dsimp only
    rw [if_neg hne, foldlM_push_zero hds]
    exact check_eq_some_iff.mpr hvalue

theorem read?_toString (h : fitsInt64 i = true) : read? (toString i).toList = some i := by
  refine read?_eq_some_iff.mpr ⟨_, ?_, _, toDigits_mem_digits i.natAbs, toList_toString i, ?_, h⟩
  · rw [mem_sign]
    split
    · exact .inr (.inr rfl)
    · exact .inl rfl
  · rw [Nat.ofDigitChars_ten_toDigits]
    split
    · show -(i.natAbs : Int) = i
      omega
    · show (i.natAbs : Int) = i
      omega

/-- Reading within 64 bits and printing again finds the canonical integers. -/
theorem canonical?_eq (s : String) : canonical? s = canonicalInt64? s := by
  refine Option.ext fun i => ?_
  rw [canonical?, Option.filter_eq_some_iff, canonicalInt64?_eq_some_iff, decide_eq_true_iff]
  constructor
  · rintro ⟨hread, hprint⟩
    obtain ⟨-, -, -, -, -, -, hfits⟩ := read?_eq_some_iff.mp hread
    exact ⟨hfits, hprint⟩
  · rintro ⟨hfits, rfl⟩
    exact ⟨read?_toString hfits, rfl⟩

end Bounded

/-- **The canonical integers are the decimal forms of the integers of 64 bits.** A text stands for an
integer when it is the integer's decimal form and the integer is one from `-2 ^ 63` to `2 ^ 63 - 1`, both
included. All other texts are refused. So a text is accepted when it is a zero alone, or a minus or none
and digits that do not start with a zero, and its value has 64 bits. Reading digit by digit, with every
step kept within the 64 bits, has the same outcome. -/
theorem canonical_iff_decimal (s : String) :
    Bounded.canonical? s = canonicalInt64? s ∧
    (∀ i : Int, canonicalInt64? s = some i ↔ (-2 ^ 63 ≤ i ∧ i < 2 ^ 63) ∧ s = toString i) ∧
    ((canonicalInt64? s).isSome = true ↔ s.toList ∈ integers ∧
      -2 ^ 63 ≤ readInteger s.toList ∧ readInteger s.toList < 2 ^ 63) ∧
    (∀ v, Primitive.integer.coerce s = some v ↔
      ∃ i : Int, v = some (.integer i) ∧ (-2 ^ 63 ≤ i ∧ i < 2 ^ 63) ∧ s = toString i) := by
  have hdecimal : ∀ i : Int,
      canonicalInt64? s = some i ↔ (-2 ^ 63 ≤ i ∧ i < 2 ^ 63) ∧ s = toString i := by
    intro i
    rw [canonicalInt64?_eq_some_iff, fitsInt64_iff, eq_comm (a := s)]
  refine ⟨Bounded.canonical?_eq s, hdecimal, ?_, fun v => ?_⟩
  · rw [Option.isSome_iff_exists, mem_integers]
    constructor
    · rintro ⟨i, hi⟩
      obtain ⟨hfits, rfl⟩ := (hdecimal i).mp hi
      rw [readInteger_toString]
      exact ⟨⟨i, rfl⟩, hfits⟩
    · rintro ⟨⟨i, hi⟩, hfits⟩
      obtain rfl : s = toString i := String.toList_inj.mp hi
      rw [readInteger_toString] at hfits
      exact ⟨i, (hdecimal i).mpr ⟨hfits, rfl⟩⟩
  · rw [Primitive.coerce, Option.map_eq_some_iff]
    exact exists_congr fun i => by rw [hdecimal, and_comm, eq_comm]

/-- Only the lower bound is taken in. A plus sign and leading zeros are read, but do not print again. -/
example : Bounded.canonical? "-9223372036854775808" = some (-9223372036854775808) ∧
    Bounded.read? "9223372036854775808".toList = none ∧
    Bounded.read? "+007".toList = some 7 ∧ Bounded.canonical? "+007" = none := by
  decide +kernel

end Wiring.Decimal
