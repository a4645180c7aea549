import Mathlib.Algebra.Group.Nat.Defs
import Mathlib.Tactic.Common
import TypedNotation.Double.Notation
import TypedNotation.Double.Reader

/-!
# Numbers read back

The text of an integer and the text of a finite double are read back as the number itself.

For a double the argument has two halves. **Digits**: `fewestDigits` returns a decimal only after it
was read back, or else stops at the exact decimal expansion, since with 801 digits the grid is finer
than the last binary digit of the magnitude (`steps_mul_eq`); and a magnitude is the nearest one to
the number that it stands for (`nearest_units`). **Layout**: a point or a power of ten moves zeros
between the digits and the exponent, and `nearestDecimal` does not see that
(`nearestDecimal_mul_tenTo`).
-/

namespace TypedNotation

open List Numeral

/-- A run of characters ends where the first other character stands. -/
theorem Text.takeWhile_append_of_stop {p : Char → Bool} {run rest : List Char}
    (hrun : ∀ c ∈ run, p c = true) (hrest : ∀ c ∈ rest.head?, p c = false) :
    (run ++ rest).takeWhile p = run ∧ (run ++ rest).dropWhile p = rest := by
  have hstop : rest.takeWhile p = [] ∧ rest.dropWhile p = rest := by
    cases rest with
    | nil => exact ⟨rfl, rfl⟩
    | cons c cs =>
      have hc := hrest c rfl
      exact ⟨takeWhile_cons_of_neg (by simp [hc]), dropWhile_cons_of_neg (by simp [hc])⟩
  rw [takeWhile_append_of_pos hrun, dropWhile_append_of_pos hrun, hstop.1, hstop.2,
    append_nil]
  exact ⟨rfl, rfl⟩

/-! ### Numerals -/

namespace Numeral

theorem tenTo_pos (n : Nat) : 0 < tenTo n :=
  Nat.pow_pos (by decide)

/-- The value of digits, by the function of the library. -/
theorem value_eq_ofDigitChars {cs : List Char} (h : ∀ c ∈ cs, c.isDigit = true) :
    value cs = Nat.ofDigitChars 10 cs 0 := by
  suffices key : ∀ n : Nat, cs.foldl (fun n c => 10 * n + digitValue c) n =
      Nat.ofDigitChars 10 cs n from key 0
  induction cs with
  | nil => exact fun n => rfl
  | cons c cs ih =>
    intro n
    have hc : digitValue c = c.toNat - '0'.toNat := by simp [digitValue, h c]
    rw [foldl_cons, hc, Nat.ofDigitChars_cons, ih fun d hd => h d (mem_cons_of_mem c hd)]

theorem isDigit_of_mem_toDigits {n : Nat} {c : Char} (h : c ∈ Nat.toDigits 10 n) :
    c.isDigit = true :=
  Nat.isDigit_of_mem_toDigits (by decide) (by decide) h

/-- The digits of a number have its value. -/
@[simp] theorem value_toDigits (n : Nat) : value (Nat.toDigits 10 n) = n := by
  rw [value_eq_ofDigitChars fun c => isDigit_of_mem_toDigits, Nat.ofDigitChars_ten_toDigits]

@[simp] theorem value_replicate_zero (n : Nat) : value (List.replicate n '0') = 0 := by
  rw [value_eq_ofDigitChars fun c hc => by rw [eq_of_mem_replicate hc]; decide]
  simp

/-- The digits of a number are digits, at least one. -/
theorem isDigits_toDigits (n : Nat) : isDigits (Nat.toDigits 10 n) = true := by
  simp only [isDigits, Bool.and_eq_true, Bool.not_eq_true', isEmpty_eq_false_iff,
    all_eq_true]
  exact ⟨Nat.toDigits_ne_nil, fun c => isDigit_of_mem_toDigits⟩

/-- The digits of a number start with a digit, which is not a sign. -/
theorem exists_toDigits_eq_cons (n : Nat) :
    ∃ c cs, Nat.toDigits 10 n = c :: cs ∧ c.isDigit = true := by
  cases h : Nat.toDigits 10 n with
  | nil => exact absurd h Nat.toDigits_ne_nil
  | cons c cs => exact ⟨c, cs, rfl, isDigit_of_mem_toDigits (by rw [h]; simp)⟩

/-- Without a sign, the value is that of the digits. -/
theorem signedValue?_of_isDigit {c : Char} {cs : List Char} (hc : c.isDigit = true) :
    signedValue? (c :: cs) = if isDigits (c :: cs) then some (value (c :: cs) : Int) else none := by
  rw [signedValue?]
  -- the first character is neither sign
  all_goals
    intro ds heq
    rw [(List.cons.inj heq).1] at hc
    exact absurd hc (by decide)

/-- A number is read back from its digits. -/
theorem signedValue?_toDigits (n : Nat) : signedValue? (Nat.toDigits 10 n) = some (n : Int) := by
  obtain ⟨c, cs, h, hc⟩ := exists_toDigits_eq_cons n
  rw [h, signedValue?_of_isDigit hc, ← h, isDigits_toDigits, value_toDigits]
  rfl

/-- A negative number is read back as well. -/
theorem signedValue?_neg_toDigits (n : Nat) :
    signedValue? ('-' :: Nat.toDigits 10 n) = some (-(n : Int)) := by
  rw [signedValue?, isDigits_toDigits, value_toDigits]
  rfl

/-- The text of an integer is its digits, behind a sign if it is negative. -/
theorem toList_toString_int (v : Int) :
    (toString v).toList =
      if v < 0 then '-' :: Nat.toDigits 10 v.natAbs else Nat.toDigits 10 v.natAbs := by
  rw [Int.toString_eq_repr, Int.repr_eq_if]
  by_cases h : v < 0
  · have hn : (-v).toNat = v.natAbs := by omega
    rw [if_neg (by omega), if_pos h, String.toList_append, Nat.toList_repr, hn]
    rfl
  · have hn : v.toNat = v.natAbs := by omega
    rw [if_pos (by omega), if_neg h, Nat.toList_repr, hn]

/-- **Integers read back.** -/
theorem signedValue?_toString (v : Int) : signedValue? (toString v).toList = some v := by
  rw [toList_toString_int]
  split
  next h =>
    rw [signedValue?_neg_toDigits]
    exact congrArg some (by omega)
  next h =>
    rw [signedValue?_toDigits]
    exact congrArg some (by omega)

end Numeral

/-! ### Rounding -/

namespace Double

variable {m : Nat} {a b : Nat}

theorem twoTo_zero : twoTo 0 = 1 := rfl

theorem twoTo_add (a b : Nat) : twoTo (a + b) = twoTo a * twoTo b :=
  Nat.pow_add 2 a b

theorem twoTo_pos (n : Nat) : 0 < twoTo n :=
  Nat.pow_pos (by decide)

/-- Rounding looks at the quotient alone. -/
theorem roundHalfEven_mul_right (num den : Nat) {c : Nat} (hc : 0 < c) :
    roundHalfEven (num * c) (den * c) = roundHalfEven num den := by
  have hlt : 2 * (num % den * c) < den * c ↔ 2 * (num % den) < den := by
    rw [← Nat.mul_assoc, Nat.mul_lt_mul_right hc]
  have hgt : den * c < 2 * (num % den * c) ↔ den < 2 * (num % den) := by
    rw [← Nat.mul_assoc, Nat.mul_lt_mul_right hc]
  simp only [roundHalfEven, Nat.mul_div_mul_right _ _ hc, Nat.mul_mod_mul_right, hlt, hgt]

/-- The nearest double of a fraction does not depend on how it is written. -/
theorem nearest_mul_right (num den : Nat) {c : Nat} (hc : 0 < c) :
    nearest (num * c) (den * c) = nearest num den := by
  have hn : num * c * twoTo 1074 = num * twoTo 1074 * c := Nat.mul_right_comm ..
  have hd : ∀ k, den * c * twoTo k = den * twoTo k * c := fun k => Nat.mul_right_comm ..
  simp only [nearest, hn, Nat.mul_div_mul_right _ _ hc, hd, roundHalfEven_mul_right _ _ hc]

/-- An exact quotient is not rounded. -/
theorem roundHalfEven_of_mul (q : Nat) {den : Nat} (hden : 0 < den) :
    roundHalfEven (q * den) den = q := by
  simp [roundHalfEven, Nat.mul_div_cancel _ hden, hden]

/-- A magnitude below `2 ^ 52` is its own significand; above, it has a leading one and a scale. -/
theorem magnitude_cases (m : Nat) :
    (m < twoTo 52 ∧ significand m = m ∧ scale m = 0) ∨
    (∃ e f, m = (e + 1) * twoTo 52 + f ∧ f < twoTo 52 ∧ significand m = f + twoTo 52 ∧
      scale m = e) := by
  have hpos : 0 < twoTo 52 := twoTo_pos 52
  unfold significand scale
  by_cases h : m < twoTo 52
  · exact .inl ⟨h, if_pos h, by rw [Nat.div_eq_of_lt h]⟩
  · have hdiv : 1 ≤ m / twoTo 52 := (Nat.one_le_div_iff hpos).2 (Nat.le_of_not_lt h)
    refine .inr ⟨m / twoTo 52 - 1, m % twoTo 52, ?_, Nat.mod_lt _ hpos, if_neg h, rfl⟩
    rw [Nat.sub_add_cancel hdiv, Nat.div_add_mod']

/-- Only zero has no units. -/
theorem units_pos (h : m ≠ 0) : 0 < units m := by
  refine Nat.mul_pos ?_ (twoTo_pos _)
  have hpos : 0 < twoTo 52 := twoTo_pos 52
  rcases magnitude_cases m with ⟨-, hs, -⟩ | ⟨e, f, -, -, hs, -⟩ <;> omega

/-- A magnitude has 53 bits at its scale. -/
theorem units_lt (m : Nat) : units m < twoTo 53 * twoTo (scale m) := by
  refine Nat.mul_lt_mul_of_pos_right ?_ (twoTo_pos _)
  have h53 : twoTo 53 = twoTo 52 * 2 := rfl
  rcases magnitude_cases m with ⟨hm, hs, -⟩ | ⟨e, f, -, hf, hs, -⟩ <;> omega

theorem log2_eq {n k : Nat} (hle : twoTo k ≤ n) (hlt : n < twoTo (k + 1)) : n.log2 = k :=
  (Nat.log2_eq_iff (Nat.ne_of_gt (Nat.lt_of_lt_of_le (twoTo_pos k) hle))).2 ⟨hle, hlt⟩

/-- **A magnitude is the nearest one to the number it stands for.** -/
theorem nearest_units {m num den : Nat} (hm : m < infinity) (hden : 0 < den)
    (h : num * twoTo 1074 = units m * den) : nearest num den = m := by
  suffices hcount : ((units m).log2 - 52) * twoTo 52 +
      roundHalfEven (units m * den) (den * twoTo ((units m).log2 - 52)) = m by
    rw [nearest]
    simp only [h, Nat.mul_div_cancel _ hden]
    rw [hcount]
    exact Nat.min_eq_left (Nat.le_of_lt hm)
  clear h hm
  rcases magnitude_cases m with ⟨hlt, hsig, hscale⟩ | ⟨e, f, rfl, hf, hsig, hscale⟩
  · -- without a leading one the units are counted directly
    have hu : units m = m := by rw [units, hsig, hscale, twoTo_zero, Nat.mul_one]
    have hlog : m.log2 - 52 = 0 := by
      by_cases h0 : m = 0
      · rw [h0]
        rfl
      · exact Nat.sub_eq_zero_of_le (Nat.le_of_lt ((Nat.log2_lt h0).2 hlt))
    rw [hu, hlog, twoTo_zero, Nat.mul_one, roundHalfEven_of_mul m hden, Nat.zero_mul, Nat.zero_add]
  · have hu : units ((e + 1) * twoTo 52 + f) = (f + twoTo 52) * twoTo e := by
      rw [units, hsig, hscale]
    have hlog : ((f + twoTo 52) * twoTo e).log2 = 52 + e := by
      refine log2_eq ?_ ?_
      · rw [twoTo_add]
        exact Nat.mul_le_mul_right _ (Nat.le_add_left ..)
      · rw [Nat.add_right_comm, twoTo_add]
        refine Nat.mul_lt_mul_of_pos_right ?_ (twoTo_pos e)
        have h53 : twoTo (52 + 1) = twoTo 52 * 2 := rfl
        omega
    have hr : roundHalfEven ((f + twoTo 52) * twoTo e * den) (den * twoTo e) = f + twoTo 52 := by
      rw [Nat.mul_assoc, Nat.mul_comm (twoTo e) den]
      exact roundHalfEven_of_mul _ (Nat.mul_pos hden (twoTo_pos e))
    rw [hu, hlog, Nat.add_sub_cancel_left, hr, Nat.succ_mul]
    omega

/-! ### Decimals -/

/-- The value and the exponent share the zeros of a decimal. -/
theorem nearestDecimal_mul_ten (d : Nat) (e : Int) :
    nearestDecimal (d * 10) (e - 1) = nearestDecimal d e := by
  by_cases hd : d = 0
  · simp [nearestDecimal, hd]
  · have hlen : ((Nat.toDigits 10 (d * 10)).length : Int) + (e - 1) =
        (Nat.toDigits 10 d).length + e := by
      have := Nat.toDigits_append_toDigits (b := 10) (n := d) (d := 0) (by decide) (by omega)
        (by decide)
      rw [Nat.mul_comm, ← Nat.add_zero (10 * d), ← this]
      simp only [length_append, Nat.toDigits_zero, length_singleton]
      omega
    have hzero : d * 10 = 0 ↔ d = 0 := by omega
    simp only [nearestDecimal, hlen, hzero]
    congr 2
    by_cases he : 0 ≤ e
    · by_cases he1 : 0 ≤ e - 1
      · obtain ⟨n, rfl⟩ : ∃ n : Nat, e = n + 1 := ⟨(e - 1).toNat, by omega⟩
        rw [if_pos he, if_pos he1, show ((n : Int) + 1 - 1).toNat = n by omega,
          show ((n : Int) + 1).toNat = n + 1 by omega, tenTo_succ,
          Nat.mul_comm (tenTo n) 10, Nat.mul_assoc]
      · obtain rfl : e = 0 := by omega
        have h10 : tenTo (-((0 : Int) - 1)).toNat = 1 * 10 := rfl
        have h1 : d * tenTo (0 : Int).toNat = d := Nat.mul_one d
        rw [if_neg (by decide), if_pos (by decide), h10, h1, nearest_mul_right d 1 (by decide)]
    · obtain ⟨n, rfl⟩ : ∃ n : Nat, e = -n := ⟨(-e).toNat, by omega⟩
      rw [if_neg he, if_neg (by omega), show (-(-(n : Int) - 1)).toNat = n + 1 by omega,
        show (-(-(n : Int))).toNat = n by omega, tenTo_succ]
      exact nearest_mul_right d (tenTo n) (by decide)

/-- Zeros at the end of a decimal can be moved to its exponent. -/
theorem nearestDecimal_mul_tenTo (d : Nat) (e : Int) (k : Nat) :
    nearestDecimal (d * tenTo k) (e - k) = nearestDecimal d e := by
  induction k with
  | zero => simp [tenTo]
  | succ k ih =>
    rw [tenTo_succ, ← Nat.mul_assoc, ← ih, show e - ((k + 1 : Nat) : Int) =
      e - k - 1 by omega]
    exact nearestDecimal_mul_ten _ _

/-- Dropping zeros at the end keeps the nearest double. -/
theorem nearestDecimal_trim (fuel : Nat) (d : Decimal) :
    nearestDecimal (d.trim fuel).digits (d.trim fuel).exponent =
      nearestDecimal d.digits d.exponent := by
  induction fuel generalizing d with
  | zero => rfl
  | succ fuel ih =>
    rw [Decimal.trim]
    split
    next h =>
      rw [ih, ← nearestDecimal_mul_ten, Nat.div_mul_cancel (Nat.dvd_of_mod_eq_zero h.2),
        Int.add_sub_cancel]
    next => rfl

/-- What has some digits was read back. -/
theorem nearestDecimal_of_withDigits? {tie : Tie} {m k : Nat} {power : Int} {d : Decimal}
    (h : withDigits? tie m power k = some d) : nearestDecimal d.digits d.exponent = m := by
  unfold withDigits? at h
  dsimp only at h
  split at h
  next hb =>
    obtain rfl := Option.some.inj h
    simp only [Bool.and_eq_true, beq_iff_eq] at hb
    exact hb.1
  next =>
    split at h
    next ha =>
      obtain rfl := Option.some.inj h
      simpa using ha
    next => cases h

/-! ### The exact expansion -/

theorem tenTo_eq_five_mul (n : Nat) : tenTo n = 5 ^ n * twoTo n :=
  Nat.mul_pow 5 2 n

theorem twoTo_le_twoTo (h : a ≤ b) : twoTo a ≤ twoTo b :=
  Nat.pow_le_pow_right (by decide) h

theorem twoTo_dvd_twoTo (h : a ≤ b) : twoTo a ∣ twoTo b :=
  Nat.pow_dvd_pow 2 h

theorem tenTo_le_tenTo (h : a ≤ b) : tenTo a ≤ tenTo b :=
  Nat.pow_le_pow_right (by decide) h

theorem tenTo_add (a b : Nat) : tenTo (a + b) = tenTo a * tenTo b :=
  Nat.pow_add 10 a b

/-- A number is below the power of its length. -/
theorem lt_tenTo_length (n : Nat) : n < tenTo (Nat.toDigits 10 n).length :=
  (Nat.length_toDigits_le_iff (by decide) Nat.length_toDigits_pos).1 (Nat.le_refl _)

/-- It is not below the power before that. -/
theorem tenTo_length_le {n : Nat} (hn : 0 < n) : tenTo ((Nat.toDigits 10 n).length - 1) ≤ n := by
  by_contra hlt
  by_cases hone : (Nat.toDigits 10 n).length - 1 = 0
  · rw [hone] at hlt
    exact hlt hn
  · have := (Nat.length_toDigits_le_iff (b := 10) (by decide) (Nat.pos_of_ne_zero hone)).2
      (Nat.lt_of_not_le hlt)
    omega

/-- The scale of a finite magnitude is bounded. -/
theorem scale_le (hm : m < infinity) : scale m ≤ 2045 := by
  have h : m / twoTo 52 < 2047 := (Nat.div_lt_iff_lt_mul (twoTo_pos 52)).2 hm
  unfold scale
  omega

/-- The leading digit of a magnitude lies below `10 ^ 309`. -/
theorem lt_of_tenTo_mul_le {m a b : Nat} (hm : m < infinity)
    (h : tenTo a * twoTo 1074 ≤ units m * tenTo b) : a < 309 + b := by
  by_contra hge
  have hlt : twoTo 1024 * tenTo b * twoTo 1074 < twoTo 1024 * tenTo b * twoTo 1074 :=
    calc twoTo 1024 * tenTo b * twoTo 1074
        ≤ tenTo 309 * tenTo b * twoTo 1074 := by
          refine Nat.mul_le_mul_right _ (Nat.mul_le_mul_right _ ?_)
          exact (by decide +kernel : twoTo 1024 ≤ tenTo 309)
      _ ≤ tenTo a * twoTo 1074 := by
          rw [← tenTo_add]
          exact Nat.mul_le_mul_right _ (tenTo_le_tenTo (by omega))
      _ ≤ units m * tenTo b := h
      _ < twoTo 53 * twoTo (scale m) * tenTo b :=
          Nat.mul_lt_mul_of_pos_right (units_lt m) (tenTo_pos b)
      _ ≤ twoTo (53 + 2045) * tenTo b := by
          rw [← twoTo_add]
          exact Nat.mul_le_mul_right _ (twoTo_le_twoTo (by have := scale_le hm; omega))
      _ = twoTo 1024 * tenTo b * twoTo 1074 := by
          rw [show 53 + 2045 = 1024 + 1074 by rfl, twoTo_add, Nat.mul_right_comm]
  exact absurd hlt (Nat.lt_irrefl _)

/-- A bound for small powers of ten by powers of two. -/
theorem tenTo_le_twoTo {t : Nat} (ht : t ≤ 273) : tenTo t ≤ twoTo (748 + t) := by
  obtain ⟨r, hr⟩ : ∃ r, t + r = 273 := ⟨273 - t, by omega⟩
  have hmul : tenTo t * tenTo r ≤ twoTo (748 + t) * tenTo r :=
    calc tenTo t * tenTo r
        = tenTo 273 := by rw [← tenTo_add, hr]
      _ ≤ twoTo (748 + 273) := by decide +kernel
      _ = twoTo (748 + t) * twoTo r := by rw [← twoTo_add, Nat.add_assoc, hr]
      _ ≤ twoTo (748 + t) * tenTo r :=
          Nat.mul_le_mul_left _ (Nat.pow_le_pow_left (by decide) r)
  exact Nat.le_of_mul_le_mul_right hmul (tenTo_pos r)

/-- The leading digit of a magnitude is bounded by its leading bit. With 801 digits, those behind
the point therefore reach down to its last binary digit. -/
theorem lt_scale_add {m p : Nat} (hp : tenTo p * twoTo 1074 ≤ units m * tenTo 400) :
    p < scale m + 127 := by
  by_contra hgt
  have hlt : tenTo (scale m + 127) * twoTo 1074 < twoTo 53 * twoTo (scale m) * tenTo 400 :=
    calc tenTo (scale m + 127) * twoTo 1074
        ≤ tenTo p * twoTo 1074 := Nat.mul_le_mul_right _ (tenTo_le_tenTo (by omega))
      _ ≤ units m * tenTo 400 := hp
      _ < twoTo 53 * twoTo (scale m) * tenTo 400 :=
        Nat.mul_lt_mul_of_pos_right (units_lt m) (tenTo_pos 400)
  generalize scale m = s at hlt
  by_cases hs : 273 ≤ s
  · obtain ⟨t, rfl⟩ : ∃ t, s = 273 + t := ⟨s - 273, by omega⟩
    rw [show 273 + t + 127 = t + 400 by omega, tenTo_add, ← twoTo_add,
      Nat.mul_right_comm] at hlt
    have hlt' := Nat.lt_of_mul_lt_mul_right hlt
    have hle : twoTo (t + 1074) ≤ tenTo t * twoTo 1074 := by
      rw [twoTo_add]
      exact Nat.mul_le_mul_right _ (Nat.pow_le_pow_left (by decide) t)
    have hmono : twoTo (53 + (273 + t)) ≤ twoTo (t + 1074) := twoTo_le_twoTo (by omega)
    omega
  · obtain ⟨t, ht⟩ : ∃ t, s + t = 273 := ⟨273 - s, by omega⟩
    have heq : twoTo 53 * twoTo s * tenTo 400 = tenTo (s + 127) * (twoTo (53 + s) * tenTo t) := by
      rw [show 400 = s + 127 + t by omega, tenTo_add (s + 127) t, ← twoTo_add, Nat.mul_left_comm]
    rw [heq] at hlt
    have hlt' : twoTo 1074 < twoTo (53 + s) * tenTo t := Nat.lt_of_mul_lt_mul_left hlt
    have hle : twoTo (53 + s) * tenTo t ≤ twoTo 1074 :=
      calc twoTo (53 + s) * tenTo t
          ≤ twoTo (53 + s) * twoTo (748 + t) := Nat.mul_le_mul_left _ (tenTo_le_twoTo (by omega))
        _ = twoTo 1074 := by rw [← twoTo_add, show 53 + s + (748 + t) = 1074 by omega]
    omega

/-- The leading power of ten is that of the units, and the grid of 801 digits lies behind the
point. -/
theorem exists_leadingPower_eq (h0 : m ≠ 0) (hm : m < infinity) :
    ∃ n : Nat, leadingPower m + 1 - (801 : Nat) = -(n : Int) ∧ 1074 ≤ scale m + n ∧ 0 < n := by
  have hu := units_pos h0
  have hq : 0 < units m * tenTo 400 / twoTo 1074 := by
    refine Nat.div_pos ?_ (twoTo_pos 1074)
    exact Nat.le_trans (by decide +kernel : twoTo 1074 ≤ tenTo 400) (Nat.le_mul_of_pos_left _ hu)
  have hlen := Nat.length_toDigits_pos (b := 10) (n := units m * tenTo 400 / twoTo 1074)
  have hle := Nat.le_trans (Nat.mul_le_mul_right (twoTo 1074) (tenTo_length_le hq))
    (Nat.div_mul_le_self _ _)
  have hbound := lt_scale_add hle
  have hhigh := lt_of_tenTo_mul_le hm hle
  unfold leadingPower
  generalize (Nat.toDigits 10 (units m * tenTo 400 / twoTo 1074)).length = l at hlen hbound hhigh ⊢
  exact ⟨1201 - l, by omega, by omega, by omega⟩

/-- Behind the last binary digit a magnitude is a whole number of steps. -/
theorem steps_mul_eq {m n : Nat} (hn : 1074 ≤ scale m + n) (hpos : 0 < n) :
    steps m (-(n : Int)) * twoTo 1074 = units m * tenTo n := by
  have hdvd : twoTo 1074 ∣ units m * tenTo n := by
    refine Nat.dvd_trans (twoTo_dvd_twoTo hn) ⟨significand m * 5 ^ n, ?_⟩
    rw [units, tenTo_eq_five_mul, twoTo_add]
    ac_rfl
  rw [steps, if_neg (by omega), show (-(-(n : Int))).toNat = n by omega]
  exact Nat.div_mul_cancel hdvd

/-- **The exact expansion reads back.** -/
theorem nearestDecimal_steps {m n : Nat} (h0 : m ≠ 0) (hm : m < infinity)
    (hn : 1074 ≤ scale m + n) (hpos : 0 < n) :
    nearestDecimal (steps m (-(n : Int))) (-(n : Int)) = m := by
  have heq := steps_mul_eq hn hpos
  generalize steps m (-(n : Int)) = d at heq
  have hu := units_pos h0
  have hd : 0 < d := by
    rcases Nat.eq_zero_or_pos d with rfl | hd
    · rw [Nat.zero_mul] at heq
      exact absurd heq.symm (Nat.ne_of_gt (Nat.mul_pos hu (tenTo_pos n)))
    · exact hd
  -- the leading digit lies in the range of doubles
  have hhigh : (Nat.toDigits 10 d).length - 1 < 309 + n := by
    refine lt_of_tenTo_mul_le hm (Nat.le_trans ?_ (Nat.le_of_eq heq))
    exact Nat.mul_le_mul_right _ (tenTo_length_le hd)
  have hlow : n < (Nat.toDigits 10 d).length + 324 := by
    by_contra hge
    have hlt : tenTo n < tenTo n :=
      calc tenTo n ≤ units m * tenTo n := Nat.le_mul_of_pos_left _ hu
        _ = d * twoTo 1074 := heq.symm
        _ < tenTo (Nat.toDigits 10 d).length * twoTo 1074 :=
            Nat.mul_lt_mul_of_pos_right (lt_tenTo_length d) (twoTo_pos 1074)
        _ ≤ tenTo (Nat.toDigits 10 d).length * tenTo 324 := by
            exact Nat.mul_le_mul_left _ (by decide +kernel : twoTo 1074 ≤ tenTo 324)
        _ = tenTo ((Nat.toDigits 10 d).length + 324) := (tenTo_add _ _).symm
        _ ≤ tenTo n := tenTo_le_tenTo (by omega)
    exact absurd hlt (Nat.lt_irrefl _)
  have hlow' : ¬(((Nat.toDigits 10 d).length : Int) + -(n : Int) < -330) := by omega
  have hhigh' : ¬(320 < ((Nat.toDigits 10 d).length : Int) + -(n : Int)) := by omega
  rw [nearestDecimal, if_neg (by simp only [Bool.or_eq_true, decide_eq_true_eq]; omega),
    if_neg hhigh', if_neg (by omega), show (-(-(n : Int))).toNat = n by omega]
  exact nearest_units hm (tenTo_pos n) heq

/-- **The shortest decimal reads back.** -/
theorem nearestDecimal_shortest (tie : Tie) (h0 : m ≠ 0) (hm : m < infinity) :
    nearestDecimal (shortest tie m).digits (shortest tie m).exponent = m := by
  suffices key : ∀ fuel k, k + fuel = 801 →
      nearestDecimal (fewestDigits tie m (leadingPower m) fuel k).digits
        (fewestDigits tie m (leadingPower m) fuel k).exponent = m by
    rw [shortest, nearestDecimal_trim]
    exact key 800 1 rfl
  intro fuel
  induction fuel with
  | zero =>
    intro k hk
    obtain ⟨n, hn, hscale, hpos⟩ := exists_leadingPower_eq h0 hm
    obtain rfl : k = 801 := hk
    rw [fewestDigits, hn]
    exact nearestDecimal_steps h0 hm hscale hpos
  | succ fuel ih =>
    intro k hk
    rw [fewestDigits]
    cases hw : withDigits? tie m (leadingPower m) k with
    | some d => exact nearestDecimal_of_withDigits? hw
    | none => exact ih (k + 1) (by omega)

/-! ### Layout -/

/-- The parts of a written decimal. Without places there is no point either. -/
structure Parts where
  whole : List Char
  places : List Char
  /-- The mark of a power of ten and what follows it. -/
  power : List Char

namespace Parts

/-- The text of the parts. -/
def chars (p : Parts) : List Char :=
  p.whole ++ (if p.places.isEmpty then [] else '.' :: p.places) ++ p.power

/-- Digits stand where digits belong, and something tells the decimal from an integer. -/
structure WellFormed (p : Parts) : Prop where
  whole_ne_nil : p.whole ≠ []
  whole_digits : ∀ c ∈ p.whole, c.isDigit = true
  places_digits : ∀ c ∈ p.places, c.isDigit = true
  power_eq : p.power = [] ∨ ∃ sign digits, p.power = 'e' :: (sign ++ digits) ∧
    (sign = [] ∨ sign = ['+'] ∨ sign = ['-']) ∧ digits ≠ [] ∧ ∀ c ∈ digits, c.isDigit = true
  isFloat : p.places ≠ [] ∨ p.power ≠ []

/-- The characters that a decimal is made of. -/
theorem WellFormed.mem_chars {p : Parts} (h : p.WellFormed) {c : Char} (hc : c ∈ p.chars) :
    c.isDigit = true ∨ c ∈ ['.', 'e', '+', '-'] := by
  simp only [chars, mem_append] at hc
  rcases hc with (hc | hc) | hc
  · exact .inl (h.whole_digits c hc)
  · split at hc
    next => cases hc
    next =>
      rcases mem_cons.1 hc with rfl | hc
      · exact .inr (by decide)
      · exact .inl (h.places_digits c hc)
  · rcases h.power_eq with hnil | ⟨sign, digits, heq, hsign, -, hdigits⟩
    · rw [hnil] at hc
      cases hc
    · rw [heq, mem_cons, mem_append] at hc
      rcases hc with rfl | hc | hc
      · exact .inr (by decide)
      · rcases hsign with rfl | rfl | rfl
        · cases hc
        · rw [mem_singleton.1 hc]
          exact .inr (by decide)
        · rw [mem_singleton.1 hc]
          exact .inr (by decide)
      · exact .inl (hdigits c hc)

/-- Reading takes the text apart again. -/
theorem unsigned?_chars {p : Parts} (h : p.WellFormed) :
    unsigned? p.chars = (exponent? p.power).map fun e =>
      nearestDecimal (value (p.whole ++ p.places)) (e - p.places.length) := by
  have hpower : ∀ c ∈ p.power.head?, c.isDigit = false ∧ c ≠ '.' := by
    intro c hc
    rcases h.power_eq with hnil | ⟨sign, digits, heq, -⟩
    · simp [hnil] at hc
    · rw [heq] at hc
      obtain rfl : 'e' = c := Option.some.inj hc
      decide
  have hne : p.whole.isEmpty = false := by simpa using h.whole_ne_nil
  unfold unsigned? chars
  by_cases hpl : p.places = []
  · obtain ⟨ht, hd⟩ := Text.takeWhile_append_of_stop h.whole_digits fun c hc => (hpower c hc).1
    simp only [hpl, isEmpty_nil, if_true, append_nil, ht, hd]
    split
    next rest heq =>
      exact absurd rfl (hpower '.' (by rw [heq]; rfl)).2
    next => simp [hne]
  · have hemp : p.places.isEmpty = false := by simpa using hpl
    have hpoint : ∀ c ∈ ('.' :: (p.places ++ p.power)).head?, c.isDigit = false := by
      intro c hc
      obtain rfl : '.' = c := Option.some.inj hc
      decide
    obtain ⟨ht, hd⟩ := Text.takeWhile_append_of_stop h.whole_digits hpoint
    obtain ⟨ht', hd'⟩ := Text.takeWhile_append_of_stop h.places_digits fun c hc => (hpower c hc).1
    have hassoc : p.whole ++ '.' :: p.places ++ p.power =
        p.whole ++ '.' :: (p.places ++ p.power) := by
      simp
    simp only [hemp, Bool.false_eq_true, if_false, hassoc, ht, hd, ht', hd', hne, Bool.and_false]

/-- The exponent that parts are read with. -/
def Denotes (p : Parts) (m : Nat) : Prop :=
  ∃ e, exponent? p.power = some e ∧
    nearestDecimal (value (p.whole ++ p.places)) (e - p.places.length) = m

section Positional

variable {ds : List Char} {d m : Nat} {e : Int} {n : Nat}

theorem isDigit_of_mem_zeros {c : Char} (hc : c ∈ List.replicate n '0') : c.isDigit = true := by
  rw [eq_of_mem_replicate hc]
  decide

theorem isDigit_of_mem_append {xs ys : List Char} (hx : ∀ c ∈ xs, c.isDigit = true)
    (hy : ∀ c ∈ ys, c.isDigit = true) : ∀ c ∈ xs ++ ys, c.isDigit = true := by
  intro c hc
  rcases mem_append.1 hc with hc | hc
  · exact hx c hc
  · exact hy c hc

/-- All digits stand behind the point. -/
theorem exists_positional_of_neg (hdigits : ∀ c ∈ ds, c.isDigit = true)
    (hval : value ds = d) (hne : ds ≠ []) (hm : nearestDecimal d e = m)
    (hneg : e + ds.length - 1 < 0) :
    ∃ p : Parts, p.WellFormed ∧ p.Denotes m ∧ p.chars = positional ds (e + ds.length - 1) := by
  obtain ⟨n, hn⟩ : ∃ n : Nat, n = (-(e + ds.length - 1) - 1).toNat := ⟨_, rfl⟩
  refine ⟨⟨['0'], List.replicate n '0' ++ ds, []⟩,
    ⟨by simp, fun c => isDigit_of_mem_zeros (n := 1),
      isDigit_of_mem_append (fun c => isDigit_of_mem_zeros) hdigits, .inl rfl,
      .inl (by simp [hne])⟩, ⟨0, rfl, ?_⟩, ?_⟩
  · have hexp : (0 : Int) - ((List.replicate n '0' ++ ds).length : Nat) = e := by
      simp only [length_append, length_replicate]
      omega
    have hvalue : value (['0'] ++ (List.replicate n '0' ++ ds)) = d := by
      rw [value_append, value_append, hval, value_replicate_zero]
      simp [value, digitValue]
    rw [hexp, hvalue, hm]
  · rw [positional, if_pos hneg, ← hn]
    simp [chars, hne]

/-- The digits end before the point, and zeros fill up. -/
theorem exists_positional_of_le (hdigits : ∀ c ∈ ds, c.isDigit = true) (hval : value ds = d)
    (hne : ds ≠ []) (hm : nearestDecimal d e = m) (hn : e + ds.length - 1 = n)
    (hle : ds.length ≤ n + 1) :
    ∃ p : Parts, p.WellFormed ∧ p.Denotes m ∧ p.chars = positional ds n := by
  have htake : ds.take (n + 1) = ds := take_of_length_le hle
  have hdrop : ds.drop (n + 1) = [] := drop_of_length_le hle
  refine ⟨⟨ds ++ List.replicate (n + 1 - ds.length) '0', ['0'], []⟩,
    ⟨by simp [hne], isDigit_of_mem_append hdigits fun c => isDigit_of_mem_zeros,
      fun c => isDigit_of_mem_zeros (n := 1), .inl rfl, .inl (by simp)⟩, ⟨0, rfl, ?_⟩, ?_⟩
  · have hvalue : value (ds ++ List.replicate (n + 1 - ds.length) '0' ++ ['0']) =
        d * tenTo (n + 1 - ds.length + 1) := by
      rw [value_append, value_append, hval, value_replicate_zero,
        tenTo_succ, length_replicate]
      simp [value, digitValue, tenTo, Nat.mul_assoc]
    rw [hvalue, ← hm, ← nearestDecimal_mul_tenTo d e (n + 1 - ds.length + 1)]
    congr 1
    simp only [length_singleton]
    omega
  · have hneg : ¬((n : Int) < 0) := by omega
    simp [chars, positional, hneg, htake, hdrop]

/-- The point stands among the digits. -/
theorem exists_positional_of_lt (hdigits : ∀ c ∈ ds, c.isDigit = true) (hval : value ds = d)
    (hm : nearestDecimal d e = m) (hn : e + ds.length - 1 = n) (hlt : n + 1 < ds.length) :
    ∃ p : Parts, p.WellFormed ∧ p.Denotes m ∧ p.chars = positional ds n := by
  have hdrop : ds.drop (n + 1) ≠ [] := by
    rw [← length_pos_iff, length_drop]
    omega
  have htake : ds.take (n + 1) ≠ [] := by
    rw [← length_pos_iff, length_take]
    omega
  refine ⟨⟨ds.take (n + 1), ds.drop (n + 1), []⟩,
    ⟨htake, fun c hc => hdigits c (mem_of_mem_take hc),
      fun c hc => hdigits c (mem_of_mem_drop hc), .inl rfl, .inl hdrop⟩, ⟨0, rfl, ?_⟩, ?_⟩
  · rw [take_append_drop, hval, ← hm]
    congr 1
    rw [length_drop]
    omega
  · have hneg : ¬((n : Int) < 0) := by omega
    have hemp : (ds.drop (n + 1)).isEmpty = false := by simpa using hdrop
    have hzero : n + 1 - min (n + 1) ds.length = 0 := by omega
    simp [chars, positional, hneg, hemp, hzero]

/-- The positional form denotes the magnitude. -/
theorem exists_positional (hm : nearestDecimal d e = m) :
    ∃ p : Parts, p.WellFormed ∧ p.Denotes m ∧
      p.chars = positional (Nat.toDigits 10 d) (e + (Nat.toDigits 10 d).length - 1) := by
  have hdigits : ∀ c ∈ Nat.toDigits 10 d, c.isDigit = true := fun c =>
    isDigit_of_mem_toDigits
  have hval := value_toDigits d
  have hne : Nat.toDigits 10 d ≠ [] := Nat.toDigits_ne_nil
  generalize Nat.toDigits 10 d = ds at hdigits hval hne ⊢
  by_cases hneg : e + ds.length - 1 < 0
  · exact exists_positional_of_neg hdigits hval hne hm hneg
  · obtain ⟨n, hn⟩ : ∃ n : Nat, e + ds.length - 1 = n := ⟨(e + ds.length - 1).toNat, by omega⟩
    rw [hn]
    by_cases hle : ds.length ≤ n + 1
    · exact exists_positional_of_le hdigits hval hne hm hn hle
    · exact exists_positional_of_lt hdigits hval hm hn (Nat.lt_of_not_le hle)

end Positional

/-- The scientific form denotes the magnitude. -/
theorem exists_scientific (plusSign : Bool) {d m : Nat} {e : Int} (hm : nearestDecimal d e = m) :
    ∃ p : Parts, p.WellFormed ∧ p.Denotes m ∧
      p.chars = scientific plusSign (Nat.toDigits 10 d) (e + (Nat.toDigits 10 d).length - 1) := by
  have hdigits : ∀ c ∈ Nat.toDigits 10 d, c.isDigit = true := fun c =>
    isDigit_of_mem_toDigits
  have hlen := Nat.length_toDigits_pos (b := 10) (n := d)
  have hval := value_toDigits d
  generalize Nat.toDigits 10 d = ds at hdigits hlen hval ⊢
  obtain ⟨k, hk⟩ : ∃ k : Int, k = e + ds.length - 1 := ⟨_, rfl⟩
  rw [← hk]
  let sign : List Char := if k < 0 then ['-'] else if plusSign then ['+'] else []
  have hpower : exponent? ('e' :: (sign ++ Nat.toDigits 10 k.natAbs)) = some k := by
    have hstep : exponent? ('e' :: (sign ++ Nat.toDigits 10 k.natAbs)) =
        signedValue? (sign ++ Nat.toDigits 10 k.natAbs) := by simp [exponent?]
    rw [hstep]
    by_cases hneg : k < 0
    · have hsign : sign = ['-'] := if_pos hneg
      rw [hsign]
      exact (signedValue?_neg_toDigits _).trans (congrArg some (by omega))
    · by_cases hplus : plusSign = true
      · have hsign : sign = ['+'] := (if_neg hneg).trans (if_pos hplus)
        have hread : signedValue? ('+' :: Nat.toDigits 10 k.natAbs) =
            some (k.natAbs : Int) := by
          rw [signedValue?, isDigits_toDigits, value_toDigits]
          rfl
        rw [hsign]
        exact hread.trans (congrArg some (by omega))
      · have hsign : sign = [] := (if_neg hneg).trans (if_neg hplus)
        rw [hsign, nil_append, signedValue?_toDigits]
        exact congrArg some (by omega)
  -- the point is behind the first digit, so `k` is the power of that digit
  refine ⟨⟨ds.take 1, ds.drop 1, 'e' :: (sign ++ Nat.toDigits 10 k.natAbs)⟩,
    ⟨?_, fun c hc => hdigits c (mem_of_mem_take hc),
      fun c hc => hdigits c (mem_of_mem_drop hc), .inr ⟨sign, _, rfl, ?_, Nat.toDigits_ne_nil,
        fun c => isDigit_of_mem_toDigits⟩, .inr (by simp)⟩, ⟨k, hpower, ?_⟩, ?_⟩
  · intro hnil
    have := congrArg List.length hnil
    rw [length_take, length_nil] at this
    omega
  · by_cases hneg : k < 0
    · exact .inr (.inr (if_pos hneg))
    · cases plusSign
      · exact .inl (if_neg hneg)
      · exact .inr (.inl (if_neg hneg))
  · rw [take_append_drop, hval, ← hm]
    congr 1
    rw [length_drop]
    omega
  · simp [chars, scientific, sign]

/-- The text of a finite magnitude has parts that denote it. -/
theorem exists_magnitudeText (style : DoubleNotation) {m : Nat} (hm : m < infinity) :
    ∃ p : Parts, p.WellFormed ∧ p.Denotes m ∧ p.chars = magnitudeText style m := by
  rw [magnitudeText]
  split
  next h0 =>
    refine ⟨⟨['0'], ['0'], []⟩, ⟨by simp, by simp, by simp, .inl rfl, .inl (by simp)⟩,
      ⟨0, rfl, ?_⟩, rfl⟩
    rw [h0]
    rfl
  next h0 =>
    have hread := nearestDecimal_shortest style.tie h0 hm
    dsimp only
    split
    · exact exists_positional hread
    · exact exists_scientific style.plusSign hread

end Parts

/-- The text of a finite double is the text of its magnitude, behind a sign if it is negative. -/
theorem toList_text (style : DoubleNotation) {x : Double} (h : x.isFinite = true) :
    (x.text style).toList =
      if x.isNegative then '-' :: magnitudeText style x.magnitude
      else magnitudeText style x.magnitude := by
  have hnan : x.isNaN = false := by
    simp only [isFinite, decide_eq_true_eq] at h
    simp only [isNaN, decide_eq_false_iff_not]
    omega
  simp [text, hnan, h]

/-- A double is its sign and its magnitude. -/
theorem ofMagnitude_magnitude (x : Double) : ofMagnitude x.isNegative x.magnitude = x := by
  obtain ⟨bits⟩ := x
  have h63 : twoTo 63 = 9223372036854775808 := rfl
  have hlt : bits.toNat < 18446744073709551616 := bits.toNat_lt
  have hnat : (if isNegative ⟨bits⟩ then twoTo 63 + magnitude ⟨bits⟩ else magnitude ⟨bits⟩) =
      bits.toNat := by
    simp only [isNegative, magnitude, h63, decide_eq_true_eq]
    split <;> omega
  rw [ofMagnitude, hnat, UInt64.ofNat_toNat]

/-- The text of a finite magnitude starts with a digit. -/
theorem exists_magnitudeText_eq_cons (style : DoubleNotation) (hm : m < infinity) :
    ∃ c cs, magnitudeText style m = c :: cs ∧ c.isDigit = true := by
  obtain ⟨p, hp, -, hchars⟩ := Parts.exists_magnitudeText style hm
  cases hw : p.whole with
  | nil => exact absurd hw hp.whole_ne_nil
  | cons c cs =>
    rw [← hchars, Parts.chars, hw, append_assoc, cons_append]
    exact ⟨c, _, rfl, hp.whole_digits c (by rw [hw]; simp)⟩

/-- A magnitude is read back from its text. -/
theorem unsigned?_magnitudeText (style : DoubleNotation) (hm : m < infinity) :
    unsigned? (magnitudeText style m) = some m := by
  obtain ⟨p, hp, ⟨e, he, hread⟩, hchars⟩ := Parts.exists_magnitudeText style hm
  rw [← hchars, Parts.unsigned?_chars hp, he, Option.map_some, hread]

/-- **Doubles read back.** -/
theorem read?_text (style : DoubleNotation) {x : Double} (h : x.isFinite = true) :
    read? (x.text style).toList = some x := by
  have hm : x.magnitude < infinity := by simpa [isFinite] using h
  have hread := unsigned?_magnitudeText style hm
  obtain ⟨c, cs, hcs, hc⟩ := exists_magnitudeText_eq_cons style hm
  have hx := ofMagnitude_magnitude x
  rw [toList_text style h]
  cases hneg : x.isNegative with
  | true =>
    rw [hneg] at hx
    simp only [if_true, read?, hread]
    exact congrArg some hx
  | false =>
    rw [hneg] at hx
    simp only [Bool.false_eq_true, if_false]
    rw [hcs] at hread ⊢
    -- a digit is no sign
    have hbody : ∀ rest, c :: cs ≠ '-' :: rest ∧ c :: cs ≠ '+' :: rest := by
      refine fun rest => ⟨fun heq => ?_, fun heq => ?_⟩ <;>
        · rw [(List.cons.inj heq).1] at hc
          exact absurd hc (by decide)
    unfold read?
    split
    rename_i negative body heq
    split at heq
    next rest hsign => exact absurd hsign (hbody rest).1
    next rest hsign => exact absurd hsign (hbody rest).2
    next =>
      obtain ⟨rfl, rfl⟩ := Prod.mk.inj heq
      rw [hread]
      exact congrArg some hx

end Double

end TypedNotation
