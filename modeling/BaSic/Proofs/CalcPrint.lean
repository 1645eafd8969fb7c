import BaSic.Kernel.CmdCalc
import BaSic.Kprintf
import BaSic.Lib.Decimal
import BaSic.Proofs.CalcGrammar

namespace BaSic.Proofs.CalcPrint
open Kernel CalcGrammar Lib.Decimal

/-- The text is the decimal numeral of the value: zero comes first in 0 only, and a minus
before negative values only. -/
def Writes (text : List UInt8) (x : Int) : Prop :=
  ∃ ds, Numeral ds ∧ (ds.head? = some 48 → ds = [48]) ∧
    (0 ≤ x ∧ text = ds ∧ x = numeralFrom 0 ds ∨ x < 0 ∧ text = 45 :: ds ∧ x = -(numeralFrom 0 ds : Int))

/-- The loop of `cmd_calc` and `%d` print one text, which is the numeral of the value. -/
def PrintsAlike (v : Int32) : Prop :=
  ∃ text, calcText v = .ok text ∧ kbufInt v = .ok text ∧ Writes text v.toInt

/-- The character of a digit. -/
def digitByte (d : Nat) : UInt8 := UInt8.ofNat (48 + d)

def numeralText (n : Nat) : List UInt8 := (written 10 n).map digitByte

variable {n d : Nat} {text : List UInt8}

theorem digit_byte_toNat (h : d < 10) : (digitByte d).toNat = 48 + d := by
  apply UInt8.toNat_ofNat_of_lt'
  simp only [UInt8.size]
  omega

theorem digit_byte_digit (h : d < 10) : isDigit (digitByte d) = true := by
  have hval := digit_byte_toNat h
  have hbounds : 48 ≤ digitByte d ∧ digitByte d ≤ 57 := by
    have hlow : (48 : UInt8).toNat = 48 := rfl
    have hhigh : (57 : UInt8).toNat = 57 := rfl
    simp only [UInt8.le_iff_toNat_le, hval, hlow, hhigh]
    omega
  simp [isDigit, hbounds]

theorem digit_byte_zero (h : d < 10) : digitByte d = 48 ↔ d = 0 := by
  have hval := digit_byte_toNat h
  have hzero : (48 : UInt8).toNat = 48 := rfl
  rw [← UInt8.toNat_inj, hval, hzero]
  omega

/-- What the characters of digits say is what the digits say. -/
theorem numeral_from_digits {ds : List Nat} (h : ∀ d ∈ ds, d < 10) (m : Nat) :
    numeralFrom m (ds.map digitByte) = ds.foldl (fun m d => m * 10 + d) m := by
  induction ds generalizing m with
  | nil => rfl
  | cons d ds ih =>
    simp only [List.forall_mem_cons] at h
    have hstep : numeralFrom m ((d :: ds).map digitByte) = numeralFrom (m * 10 + d) (ds.map digitByte) := by
      simp only [numeralFrom, List.map_cons, List.foldl_cons, digit_byte_toNat h.1, Nat.add_sub_cancel_left]
    rw [hstep]
    apply ih h.2

theorem numeral_text_value (n : Nat) : numeralFrom 0 (numeralText n) = n :=
  (numeral_from_digits (fun _ hd => written_lt (by decide) hd) 0).trans (foldl_written 10 n)

theorem numeral_text_numeral (n : Nat) : Numeral (numeralText n) := by
  constructor
  · simpa [numeralText] using written_ne_nil 10 n
  · intro c hc
    obtain ⟨d, hd, rfl⟩ := List.mem_map.mp hc
    exact digit_byte_digit (written_lt (by decide) hd)

/-- No zeros lead a numeral. -/
theorem numeral_text_head (h : (numeralText n).head? = some 48) : numeralText n = [48] := by
  simp only [numeralText, List.head?_map, Option.map_eq_some_iff] at h ⊢
  obtain ⟨d, hd, hzero⟩ := h
  have hlt : d < 10 := written_lt (by decide) (List.mem_of_mem_head? hd)
  rw [(digit_byte_zero hlt).mp hzero] at hd
  rw [written_head hd]
  rfl

/-- The numeral of a number that is not 0 has one more digit than the one of its tenth. -/
theorem leading_text_step (hn : 0 < n) :
    (leading 10 n).map digitByte = (leading 10 (n / 10)).map digitByte ++ [digitByte (n % 10)] := by
  simp only [leading_step (show 1 < 10 by decide) hn, List.map_append, List.map_cons, List.map_nil]

theorem tenth_lt {k : Nat} (h : n < 10 ^ (k + 1)) : n / 10 < 10 ^ k := by
  apply Nat.div_lt_of_lt_mul
  rwa [pow_succ, Nat.mul_comm] at h

theorem digits_get : ∀ d < 10, digits.getD d 0 = digitByte d := by decide

/-- The loop of `kbuf_uint` puts the digits in front of what it has. -/
theorem uint_loop_text (pos : Nat) (hn : n < 4294967296) (hfit : n < 10 ^ pos) (text : List UInt8) :
    uintLoop 10 pos (UInt32.ofNat n) text = .ok ((leading 10 n).map digitByte ++ text) := by
  have hval : (UInt32.ofNat n).toNat = n := UInt32.toNat_ofNat_of_lt' hn
  induction pos generalizing n text with
  | zero =>
    obtain rfl : n = 0 := Nat.lt_one_iff.mp hfit
    simp [uintLoop, leading_zero]
  | succ pos ih =>
    by_cases hzero : n = 0
    · simp [hzero, uintLoop, leading_zero]
    have hne : ¬ UInt32.ofNat n = 0 := by
      simpa [← UInt32.toNat_inj, hval] using hzero
    have hdiv : UInt32.ofNat n / 10 = UInt32.ofNat (n / 10) := by
      simp [← UInt32.toNat_inj, hval, UInt32.toNat_ofNat_of_lt' (show n / 10 < 4294967296 by omega)]
    have hmod : (UInt32.ofNat n % 10).toNat = n % 10 := by
      simp [hval]
    have hrest := ih (by omega) (tenth_lt hfit) (digitByte (n % 10) :: text)
      (UInt32.toNat_ofNat_of_lt' (show n / 10 < 4294967296 by omega))
    simp only [uintLoop, if_neg hne, hdiv, hmod, digits_get _ (Nat.mod_lt n (by decide)), hrest,
      leading_text_step (Nat.pos_of_ne_zero hzero), List.append_assoc, List.singleton_append]

theorem kbuf_uint_text (hn : n < 4294967296) : kbufUint (UInt32.ofNat n) 10 = .ok (numeralText n) := by
  have hval : (UInt32.ofNat n).toNat = n := UInt32.toNat_ofNat_of_lt' hn
  have hrun := uint_loop_text 31 hn (hn.trans (by decide)) []
  simp only [kbufUint, numeralText, written, ← UInt32.toNat_inj, hval, UInt32.toNat_zero]
  split
  · rfl
  · simpa using hrun

/-- The character of a last digit, by `i32` arithmetic. -/
theorem last_digit : ∀ d < 10, (48 + Int32.ofNat d).toInt8.toUInt8 = digitByte d := by decide

theorem of_nat_zero_iff (hn : n < 2147483648) : Int32.ofNat n = 0 ↔ n = 0 := by
  rw [← Int32.toInt_inj, Int32.toInt_ofNat_of_lt hn, Int32.toInt_zero]
  exact Int.natCast_eq_zero

/-- The loop of `cmd_calc` does the same with a value that is not negative. -/
theorem calc_loop_text (left : Nat) (hn : n < 2147483648) (hfit : n < 10 ^ left) (text : List UInt8) :
    calcLoop left (Int32.ofNat n) text = .ok ((leading 10 n).map digitByte ++ text) := by
  induction left generalizing n text with
  | zero =>
    obtain rfl : n = 0 := Nat.lt_one_iff.mp hfit
    simp [calcLoop, leading_zero]
  | succ left ih =>
    by_cases hzero : n = 0
    · simp [hzero, calcLoop, leading_zero]
    have hlt : n / 10 < 2147483648 := by omega
    have hval : (Int32.ofNat n).toInt = n := Int32.toInt_ofNat_of_lt hn
    have hten : (10 : Int32).toInt = ((10 : Nat) : Int) := by decide
    have hdiv : Int32.ofNat n / 10 = Int32.ofNat (n / 10) := by
      rw [← Int32.toInt_inj, Int32.toInt_div, hval, hten, Int32.toInt_ofNat_of_lt hlt, ← Int.ofNat_tdiv,
        wrap_of_fits]
      constructor
      · omega
      · omega
    have hmod : Int32.ofNat n % 10 = Int32.ofNat (n % 10) := by
      rw [← Int32.toInt_inj, Int32.toInt_mod, hval, hten, Int32.toInt_ofNat_of_lt (by omega), ← Int.ofNat_tmod]
    have hrest := ih hlt (tenth_lt hfit) (digitByte (n % 10) :: text)
    simp only [calcLoop, of_nat_zero_iff hn, if_neg hzero, hdiv, hmod, last_digit _ (Nat.mod_lt n (by decide)), hrest,
      leading_text_step (Nat.pos_of_ne_zero hzero), List.append_assoc, List.singleton_append]

theorem calc_digits_text (hn : n < 2147483648) : calcDigits (Int32.ofNat n) = .ok (numeralText n) := by
  have hrun := calc_loop_text 11 hn (hn.trans (by decide)) []
  simp only [calcDigits, numeralText, written, of_nat_zero_iff hn]
  split
  · rfl
  · simpa using hrun

theorem writes_nat (n : Nat) : Writes (numeralText n) n :=
  ⟨_, numeral_text_numeral n, numeral_text_head, Or.inl ⟨Int.natCast_nonneg n, rfl, by rw [numeral_text_value]⟩⟩

theorem writes_neg (hn : 0 < n) : Writes (45 :: numeralText n) (-(n : Int)) :=
  ⟨_, numeral_text_numeral n, numeral_text_head, Or.inr ⟨by omega, rfl, by rw [numeral_text_value]⟩⟩

/-- An `i32` is a number, one with a minus, or the least. -/
theorem i32_cases (v : Int32) : (∃ n, n < 2147483648 ∧ v = Int32.ofNat n) ∨
    (∃ n, 0 < n ∧ n < 2147483648 ∧ v = -Int32.ofNat n) ∨ v = Int32.minValue := by
  have hlow := v.le_toInt
  have hhigh := v.toInt_lt
  rcases Int.lt_or_le v.toInt 0 with hneg | hpos
  · by_cases hmin : v = Int32.minValue
    · exact Or.inr (Or.inr hmin)
    · have hne : v.toInt ≠ -2147483648 := fun h => hmin (Int32.toInt_inj.mp h)
      refine Or.inr (Or.inl ⟨(-v.toInt).toNat, by omega, by omega, ?_⟩)
      rw [← Int32.toInt_inj, Int32.toInt_neg, Int32.toInt_ofNat_of_lt (by omega), Int.toNat_of_nonneg (by omega),
        Int.neg_neg, wrap_of_fits ⟨hlow, hhigh⟩]
  · refine Or.inl ⟨v.toInt.toNat, by omega, ?_⟩
    rw [← Int32.toInt_inj, Int32.toInt_ofNat_of_lt (by omega), Int.toNat_of_nonneg hpos]

theorem not_negative (hn : n < 2147483648) : ¬ Int32.ofNat n < 0 := by
  rw [Int32.lt_iff_toInt_lt, Int32.toInt_ofNat_of_lt hn, Int32.toInt_zero]
  omega

/-- What `%d` prints of a number that is not negative. -/
theorem kbuf_int_nat (hn : n < 2147483648) : kbufInt (Int32.ofNat n) = .ok (numeralText n) := by
  simp only [kbufInt, if_neg (not_negative hn), Int32.toUInt32_ofNat']
  apply kbuf_uint_text
  omega

theorem prints_nat (hn : n < 2147483648) : PrintsAlike (Int32.ofNat n) := by
  have hval : (Int32.ofNat n).toInt = n := Int32.toInt_ofNat_of_lt hn
  refine ⟨numeralText n, ?_, kbuf_int_nat hn, hval ▸ writes_nat n⟩
  simp only [calcText, if_neg (not_negative hn), calc_digits_text hn]

theorem neg_value (hn : n < 2147483648) : (-Int32.ofNat n).toInt = -(n : Int) := by
  rw [Int32.toInt_neg, Int32.toInt_ofNat_of_lt hn, wrap_of_fits]
  constructor
  · omega
  · omega

theorem prints_neg (hpos : 0 < n) (hn : n < 2147483648) : PrintsAlike (-Int32.ofNat n) := by
  have hval := neg_value hn
  have hneg : -Int32.ofNat n < 0 := by
    rw [Int32.lt_iff_toInt_lt, hval, Int32.toInt_zero]
    omega
  have hback : (-(-Int32.ofNat n + 1)).toUInt32 + 1 = UInt32.ofNat n := by
    have hone : (1 : Int32).toUInt32 = 1 := rfl
    simp only [Int32.toUInt32_neg, Int32.toUInt32_add, Int32.toUInt32_ofNat', hone]
    grind
  refine ⟨45 :: numeralText n, ?_, ?_, hval ▸ writes_neg hpos⟩
  · simp only [calcText, if_pos hneg, Int32.neg_neg, calc_digits_text hn, ok_bind]
  · have hdigits := kbuf_uint_text (n := n) (by omega)
    simp only [kbufInt, if_pos hneg, hback, hdigits, ok_bind]

/-- The least value has no positive counterpart: its remainders are negative, and what is
printed is not digits. -/
theorem least_prints_otherwise : calcText Int32.minValue = .ok (45 :: [46, 47, 44, 41, 44, 40, 45, 42, 44, 40]) ∧
    kbufInt Int32.minValue = .ok (45 :: [50, 49, 52, 55, 52, 56, 51, 54, 52, 56]) ∧
      ¬ PrintsAlike Int32.minValue := by
  have hcalc : calcText Int32.minValue = .ok (45 :: [46, 47, 44, 41, 44, 40, 45, 42, 44, 40]) := by
    decide
  have hkprintf : kbufInt Int32.minValue = .ok (45 :: [50, 49, 52, 55, 52, 56, 51, 54, 52, 56]) := by
    decide
  refine ⟨hcalc, hkprintf, ?_⟩
  rintro ⟨text, hone, htwo, -⟩
  rw [hcalc] at hone
  rw [hkprintf, ← hone] at htwo
  exact absurd (Except.ok.inj htwo) (by decide)

/-- The two agree, on the numeral of the value, on every value but the least. -/
theorem prints_alike_iff (v : Int32) : PrintsAlike v ↔ v ≠ Int32.minValue := by
  have hleast : Int32.minValue.toInt = -2147483648 := rfl
  rcases i32_cases v with ⟨n, hn, rfl⟩ | ⟨n, hpos, hn, rfl⟩ | rfl
  · refine iff_of_true (prints_nat hn) (fun h => ?_)
    rw [← Int32.toInt_inj, Int32.toInt_ofNat_of_lt hn, hleast] at h
    omega
  · refine iff_of_true (prints_neg hpos hn) (fun h => ?_)
    rw [← Int32.toInt_inj, neg_value hn, hleast] at h
    omega
  · exact iff_of_false least_prints_otherwise.2.2 (fun h => h rfl)

end BaSic.Proofs.CalcPrint
