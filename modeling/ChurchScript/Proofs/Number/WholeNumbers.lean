import Mathlib.Algebra.Order.Ring.Int
import Mathlib.Data.List.TakeWhile
import ChurchScript.Number.Decimal

/-!
# Whole numbers as floating-point numbers

A whole number of magnitude below `2^53` is a floating-point number. It is read back from its
decimal text without rounding (`read_toString`), it rounds to itself (`toInt_ofInt`), and two
of them lie less than one apart only if they are the same (`near_ofInt`).
-/
namespace ChurchScript

theorem pow2_pos (n : Nat) : 0 < pow2 n := Nat.pow_pos Nat.two_pos

theorem pow2_add (m n : Nat) : pow2 (m + n) = pow2 m * pow2 n := Nat.pow_add 2 m n

theorem pow2_le_pow2 {m n : Nat} (le : m ≤ n) : pow2 m ≤ pow2 n :=
  Nat.pow_le_pow_right Nat.two_pos le

namespace Binary64

theorem one_pos : 0 < one := pow2_pos 1074

theorem roundMagnitude_mul_one (n : Nat) : roundMagnitude (n * one) = n := by
  have half : one / 2 < one := Nat.div_lt_self one_pos Nat.one_lt_two
  unfold roundMagnitude
  generalize one = unit at half ⊢
  rw [Nat.add_comm, Nat.add_mul_div_right _ _ (by omega), Nat.div_eq_of_lt half, Nat.zero_add]

/-- The floating-point number of a whole number, without a check of its range. -/
def ofInt (n : Int) : Binary64 :=
  finite (decide (n < 0)) (n.natAbs * one)

section Rounding

theorem divNearest_mul (q : Nat) {d : Nat} (positive : 0 < d) : divNearest (q * d) d = q := by
  simp [divNearest, positive]

theorem div_le_divNearest (num den : Nat) : num / den ≤ divNearest num den := by
  unfold divNearest
  dsimp only
  split
  · exact Nat.le_refl _
  · exact Nat.le_succ _

/-- Up to 53 significant bits nothing is rounded away. -/
theorem roundUnits_whole {n : Nat} (small : n < 2 ^ 53) (k : Nat) :
    roundUnits (n * pow2 k) 1 = n * pow2 k := by
  have bits : (n * pow2 k).log2 - 52 ≤ k := by
    by_cases zero : n * pow2 k = 0
    · simp [zero]
    · have below : n * pow2 k < 2 ^ (53 + k) := by
        rw [Nat.pow_add]
        exact Nat.mul_lt_mul_of_pos_right small (pow2_pos k)
      have := (Nat.log2_lt zero).mpr below
      omega
  obtain ⟨q, split⟩ : pow2 ((n * pow2 k).log2 - 52) ∣ n * pow2 k :=
    Nat.dvd_mul_left_of_dvd (Nat.pow_dvd_pow 2 bits) n
  have unit := pow2_pos ((n * pow2 k).log2 - 52)
  simp only [roundUnits, Nat.div_one, Nat.one_mul]
  generalize pow2 ((n * pow2 k).log2 - 52) = d at split unit ⊢
  rw [split, Nat.mul_comm d q, divNearest_mul q unit]

/-- Rounding does not lead below a power of two. -/
theorem pow2_le_roundUnits {num k : Nat} (large : pow2 k ≤ num) : pow2 k ≤ roundUnits num 1 := by
  have positive : num ≠ 0 := Nat.ne_of_gt (Nat.lt_of_lt_of_le (pow2_pos k) large)
  have bits : k ≤ num.log2 := (Nat.le_log2 positive).mpr large
  simp only [roundUnits, Nat.div_one, Nat.one_mul]
  calc pow2 k ≤ pow2 num.log2 := pow2_le_pow2 bits
    _ = pow2 num.log2 / pow2 (num.log2 - 52) * pow2 (num.log2 - 52) :=
      (Nat.div_mul_cancel (Nat.pow_dvd_pow 2 (Nat.sub_le _ _))).symm
    _ ≤ num / pow2 (num.log2 - 52) * pow2 (num.log2 - 52) :=
      Nat.mul_le_mul_right _ (Nat.div_le_div_right (Nat.log2_self_le positive))
    _ ≤ divNearest num (pow2 (num.log2 - 52)) * pow2 (num.log2 - 52) :=
      Nat.mul_le_mul_right _ (div_le_divNearest _ _)

/-- A difference of at least one stays at least one. -/
theorem roundUnits_lt_one_iff (n : Nat) : roundUnits (n * one) 1 < one ↔ n = 0 := by
  constructor
  · intro below
    by_contra positive
    have large : pow2 1074 ≤ n * one := Nat.le_mul_of_pos_left one (Nat.pos_of_ne_zero positive)
    exact Nat.lt_irrefl _ (Nat.lt_of_lt_of_le below (pow2_le_roundUnits large))
  · intro zero
    rw [zero, one, roundUnits_whole (Nat.two_pow_pos 53), Nat.zero_mul]
    exact pow2_pos 1074

theorem ofRatio_whole (negative : Bool) {n : Nat} (small : n < 2 ^ 53) :
    ofRatio negative n 1 = finite negative (n * one) := by
  have inRange : n * one < limit := by
    have below : n < pow2 1024 := Nat.lt_of_lt_of_le small (pow2_le_pow2 (m := 53) (by decide))
    rw [limit, pow2_add, ← one]
    exact Nat.mul_lt_mul_of_pos_right below one_pos
  have kept : roundUnits (n * one) 1 = n * one := roundUnits_whole small 1074
  simp only [ofRatio, kept, if_pos inRange]

end Rounding

/-- Two whole numbers lie less than one apart only if they are the same. -/
theorem near_ofInt (m n : Int) : near (ofInt m) (ofInt n) = decide (m = n) := by
  have gap : (if decide (m < 0) == decide (n < 0) then
      max (m.natAbs * one) (n.natAbs * one) - min (m.natAbs * one) (n.natAbs * one)
      else m.natAbs * one + n.natAbs * one) = (m - n).natAbs * one := by
    have signs : (decide (m < 0) == decide (n < 0)) = decide (m < 0 ↔ n < 0) := by
      by_cases m < 0 <;> by_cases n < 0 <;> simp_all
    rw [signs]
    by_cases same : m < 0 ↔ n < 0
    · rw [if_pos (decide_eq_true same), Nat.mul_max_mul_right, Nat.mul_min_mul_right, ← Nat.sub_mul]
      congr 1
      omega
    · rw [if_neg (by simpa using same), ← Nat.add_mul]
      congr 1
      omega
  simp only [near, ofInt, gap]
  rw [decide_eq_decide, roundUnits_lt_one_iff]
  omega

theorem toInt_ofInt {n : Int} (small : n.natAbs < 2 ^ 53) : (ofInt n).toInt? = some n := by
  by_cases negative : n < 0
  · simp only [ofInt, negative, decide_true, toInt?, roundMagnitude_mul_one, minInt]
    congr
    omega
  · simp only [ofInt, negative, decide_false, toInt?, roundMagnitude_mul_one, maxInt]
    congr
    omega

end Binary64

namespace Digits

theorem value_append (digits : List Char) (c : Char) :
    value (digits ++ [c]) = 10 * value digits + digit c := by
  simp [value]

theorem digit_digitChar {d : Nat} (small : d < 10) : digit (Nat.digitChar d) = d := by
  rw [digit, Nat.toNat_digitChar_of_lt_ten small]
  omega

/-- The decimal text of a number spells it. -/
theorem value_toDigits (n : Nat) : value (Nat.toDigits 10 n) = n := by
  induction n using Nat.strong_induction_on with
  | _ n ih =>
    by_cases single : n < 10
    · rw [Nat.toDigits_of_lt_base single]
      simp [value, digit_digitChar single]
    · rw [Nat.toDigits_of_base_le (by decide) (by omega), value_append, ih (n / 10) (by omega),
        digit_digitChar (Nat.mod_lt n (by decide))]
      omega

theorem length_toDigits_le {n k : Nat} (small : n < 10 ^ (k + 1)) :
    (Nat.toDigits 10 n).length ≤ k + 1 := by
  induction k generalizing n with
  | zero =>
    rw [Nat.toDigits_of_lt_base (by omega)]
    exact Nat.le_refl _
  | succ k ih =>
    by_cases single : n < 10
    · simp [Nat.toDigits_of_lt_base single]
    · have shorter := @ih (n / 10) (by rw [Nat.pow_succ] at small; omega)
      rw [Nat.toDigits_of_base_le (by decide) (by omega)]
      simpa using shorter

theorem isNumber_toDigits (n : Nat) : isNumber (Nat.toDigits 10 n) = true := by
  simp only [isNumber, Bool.and_eq_true, Bool.not_eq_eq_eq_not, Bool.not_true, List.all_eq_true]
  exact ⟨by simp, fun c member => Nat.isDigit_of_mem_toDigits (by decide) (by decide) member⟩

end Digits

namespace Decimal

/-- Leading zeros do not change what digits spell. -/
theorem value_dropWhile (digits : List Char) :
    Digits.value (digits.dropWhile (· == '0')) = Digits.value digits := by
  induction digits with
  | nil => rfl
  | cons c rest ih =>
    by_cases zero : c = '0'
    · have nothing : Digits.digit '0' = 0 := by decide
      rw [zero]
      simpa [Digits.value, nothing] using ih
    · simp [zero]

theorem nearest_whole (negative : Bool) {digits : List Char} (short : digits.length ≤ 400)
    (small : Digits.value digits < 2 ^ 53) :
    nearest negative digits 0 = .finite negative (Digits.value digits * Binary64.one) := by
  have significant := value_dropWhile digits
  have shorter := (List.dropWhile_suffix (· == '0') (l := digits)).length_le
  unfold nearest
  generalize digits.dropWhile (· == '0') = rest at significant shorter ⊢
  by_cases empty : rest = []
  · rw [← significant, empty]
    simp [Digits.value]
  · have notSmall : ¬ ((rest.length : Int) + 0 < -400) := by omega
    have notLarge : ¬ ((rest.length : Int) + 0 > 400) := by omega
    have filled : rest.isEmpty = false := by simpa using empty
    simp only [filled, notSmall, notLarge, decide_false, Bool.or_self, Bool.false_eq_true,
      if_false, significant]
    rw [show pow10 (0 : Int).toNat = 1 from rfl, show pow10 (-(0 : Int)).toNat = 1 from rfl,
      Nat.mul_one, Binary64.ofRatio_whole negative small]

theorem unsigned_of_isNumber (negative : Bool) {digits : List Char}
    (number : Digits.isNumber digits = true) :
    unsigned? negative digits = some (nearest negative digits 0) := by
  simp only [Digits.isNumber, Bool.and_eq_true, List.all_eq_true] at number
  have whole : digits.takeWhile Char.isDigit = digits := by
    rw [List.takeWhile_eq_self_iff]
    exact number.2
  have rest : digits.dropWhile Char.isDigit = [] := by
    rw [List.dropWhile_eq_nil_iff]
    exact number.2
  have filled : digits.isEmpty = false := by simpa using number.1
  simp [unsigned?, whole, rest, filled, Digits.exponent?]

theorem toLower_of_isDigit {c : Char} (digit : c.isDigit = true) : c.toLower = c := by
  simp only [Char.isDigit, Bool.and_eq_true, decide_eq_true_eq] at digit
  refine dif_neg fun upper => ?_
  exact absurd (UInt32.le_trans upper.1 digit.2) (by decide)

/-- Digits are no word that has a letter. -/
theorem ofList_ne_word {digits : List Char} (number : Digits.isNumber digits = true)
    {word : String} (letters : word.toList.all Char.isDigit = false) :
    (String.ofList (digits.map Char.toLower) == word) = false := by
  simp only [Digits.isNumber, Bool.and_eq_true] at number
  have lower : digits.map Char.toLower = digits :=
    List.map_congr_left (fun c member => toLower_of_isDigit (List.all_eq_true.mp number.2 c member))
      |>.trans (List.map_id digits)
  refine beq_false_of_ne fun same => ?_
  rw [lower] at same
  rw [← same, String.toList_ofList, number.2] at letters
  cases letters

theorem read_of_takeSign {cs digits : List Char} {negative : Bool}
    (sign : Digits.takeSign cs = (negative, digits)) (number : Digits.isNumber digits = true) :
    read? cs = some (nearest negative digits 0) := by
  have word (w : String) (letters : w.toList.all Char.isDigit = false) :=
    ofList_ne_word number letters
  simp only [read?, sign, word "inf" (by decide), word "infinity" (by decide),
    word "nan" (by decide), Bool.or_self, Bool.false_eq_true, if_false]
  exact unsigned_of_isNumber negative number

theorem takeSign_of_isNumber {digits : List Char} (number : Digits.isNumber digits = true) :
    Digits.takeSign digits = (false, digits) := by
  unfold Digits.takeSign
  split
  · simp [Digits.isNumber] at number
  · simp [Digits.isNumber] at number
  · rfl

theorem isDigit_of_mem_toString {n : Nat} {c : Char} (member : c ∈ (toString n).toList) :
    c.isDigit = true := by
  rw [Nat.toString_eq_repr, Nat.toList_repr] at member
  exact Nat.isDigit_of_mem_toDigits (by decide) (by decide) member

/-- The decimal text of a whole number has a minus sign and digits only. -/
theorem minus_or_isDigit_of_mem_toString {n : Int} {c : Char} (member : c ∈ (toString n).toList) :
    c = '-' ∨ c.isDigit = true := by
  rw [Int.toString_eq_repr, Int.repr_eq_if] at member
  split at member
  · exact .inr (isDigit_of_mem_toString member)
  · rw [String.toList_append] at member
    rcases List.mem_append.mp member with sign | digit
    · exact .inl (List.mem_singleton.mp sign)
    · exact .inr (isDigit_of_mem_toString digit)

/-- A whole number is read back from its decimal text. -/
theorem read_toString {n : Int} (small : n.natAbs < 2 ^ 53) :
    read? (toString n).toList = some (.ofInt n) := by
  have short : (Nat.toDigits 10 n.natAbs).length ≤ 400 :=
    Nat.le_trans (Digits.length_toDigits_le (k := 15) (by omega)) (by decide)
  have whole (negative : Bool) := nearest_whole negative short
    (by rw [Digits.value_toDigits]; exact small)
  have number := Digits.isNumber_toDigits n.natAbs
  rw [Int.toString_eq_repr, Int.repr_eq_if]
  by_cases negative : n < 0
  · have magnitude : (-n).toNat = n.natAbs := by omega
    have sign : Digits.takeSign ("-".toList ++ Nat.toDigits 10 n.natAbs) =
        (true, Nat.toDigits 10 n.natAbs) := rfl
    rw [if_neg (by omega), String.toList_append, Nat.toList_repr, magnitude,
      read_of_takeSign sign number, whole true, Digits.value_toDigits]
    simp [Binary64.ofInt, negative]
  · have magnitude : n.toNat = n.natAbs := by omega
    rw [if_pos (by omega), Nat.toList_repr, magnitude,
      read_of_takeSign (takeSign_of_isNumber number) number, whole false, Digits.value_toDigits]
    simp [Binary64.ofInt, negative]

end Decimal
end ChurchScript
