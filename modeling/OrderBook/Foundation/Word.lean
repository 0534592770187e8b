import Mathlib.Data.Int.Notation

/-!
# What a signed 64 bit variable keeps

Arithmetic on `int64_t` is exact as long as its results are 64 bit integers. A result
that is not is kept modulo `2 ^ 64`, with the sign that the top bit gives it: the language
leaves such an overflow undefined, and this is what a two's complement machine makes of it.
-/

namespace OrderBook.Word

/-- A 64 bit integer. -/
def Fits (value : Int) : Prop := -9223372036854775808 ≤ value ∧ value < 9223372036854775808

instance (value : Int) : Decidable (Fits value) := inferInstanceAs (Decidable (_ ∧ _))

/-- The 64 bit integer with the same low 64 bits. -/
def wrap (value : Int) : Int := value.bmod 18446744073709551616

variable {value : Int}

theorem fits_wrap (value : Int) : Fits (wrap value) := by
  have least := Int.le_bmod (x := value) (m := 18446744073709551616) (by decide)
  have most := Int.bmod_lt (x := value) (m := 18446744073709551616) (by decide)
  exact ⟨least, most⟩

theorem wrap_of_fits (fits : Fits value) : wrap value = value :=
  Int.bmod_eq_of_le fits.1 fits.2

/-- A number that is not negative fits if it is small enough. -/
theorem fits_of_nonneg (nonneg : 0 ≤ value) (small : value < 9223372036854775808) : Fits value :=
  ⟨Int.le_trans (by decide) nonneg, small⟩

/-- The sum of a 64 bit integer that is not negative with any other is kept as a positive
number only if it is one and fits. -/
theorem wrap_add_pos_iff {a b : Int} (nonneg : 0 ≤ a) (fits : Fits a) (fits' : Fits b) :
    0 < wrap (a + b) ↔ 0 < a + b ∧ Fits (a + b) := by
  obtain ⟨_, a_lt⟩ := fits
  obtain ⟨le_b, b_lt⟩ := fits'
  by_cases kept : Fits (a + b)
  · rw [wrap_of_fits kept]
    exact (and_iff_left kept).symm
  · have large : 9223372036854775808 ≤ a + b :=
      Int.not_lt.mp fun small => kept ⟨by omega, small⟩
    -- Twice the range is more than the sum, so taking it off once leaves a negative number.
    have negative : wrap (a + b) = a + b - 18446744073709551616 := by
      have same : wrap (a + b) = wrap (a + b - 18446744073709551616) :=
        (Int.sub_bmod_right (a + b) 18446744073709551616).symm
      rw [same]
      exact wrap_of_fits ⟨by omega, by omega⟩
    rw [negative]
    exact ⟨fun pos => by omega, fun both => absurd both.2 kept⟩

end OrderBook.Word
