import Mathlib.Data.Nat.Digits.Lemmas
import Mathlib.Data.Nat.Size
import Mathlib.Tactic.Linarith
import Mathlib.Tactic.Ring

/-!
# Rounding to a number of digits

Rounding to 53 binary digits and rounding to six decimal digits are one function at two units. A number of
few decimal digits is its own rounding to binary digits as long as it is not too large.
-/

namespace EZLanguage

/-- The multiple of `unit` nearest to `n`, an even multiple when two are as near. -/
def roundEven (n unit : Nat) : Nat :=
  if 2 * (n % unit) < unit ∨ 2 * (n % unit) = unit ∧ n / unit % 2 = 0 then n / unit * unit
  else (n / unit + 1) * unit

/-- The double nearest to a natural number. -/
def nearestDouble (n : Nat) : Nat := roundEven n (2 ^ (n.size - 53))

/-- A number rounded to six decimal digits. -/
def sixDigits (n : Nat) : Nat := roundEven n (10 ^ ((Nat.digits 10 n).length - 6))

/-- A number has at most six decimal digits before its trailing zeros. -/
def FewDigits (n : Nat) : Prop := ∃ m k, n = m * 10 ^ k ∧ m < 10 ^ 6

theorem roundEven_eq (n unit : Nat) :
    roundEven n unit = n / unit * unit ∨ roundEven n unit = (n / unit + 1) * unit := by
  rw [roundEven]
  split
  · exact Or.inl rfl
  · exact Or.inr rfl

theorem roundEven_of_dvd {n unit : Nat} (hunit : 0 < unit) (hdvd : unit ∣ n) :
    roundEven n unit = n := by
  have hmod : n % unit = 0 := Nat.mod_eq_zero_of_dvd hdvd
  rw [roundEven, if_pos (Or.inl (by omega))]
  exact Nat.div_mul_cancel hdvd

theorem roundEven_le (n unit : Nat) : roundEven n unit ≤ n + unit := by
  have hle : n / unit * unit ≤ n := Nat.div_mul_le_self n unit
  obtain heq | heq := roundEven_eq n unit
  · omega
  · rw [heq, Nat.add_mul]
    omega

theorem le_roundEven {n unit : Nat} (hunit : 0 < unit) (hle : unit ≤ n) :
    unit ≤ roundEven n unit := by
  have hone : 1 ≤ n / unit := Nat.div_pos hle hunit
  have hmul : 1 * unit ≤ n / unit * unit := Nat.mul_le_mul_right unit hone
  obtain heq | heq := roundEven_eq n unit
  · omega
  · rw [heq, Nat.add_mul]
    omega

theorem roundEven_pos {n unit : Nat} (hunit : 0 < unit) (hle : unit ≤ n) :
    0 < roundEven n unit :=
  Nat.lt_of_lt_of_le hunit (le_roundEven hunit hle)

/-! ### Binary digits -/

theorem binaryUnit_le {n : Nat} (hn : 0 < n) : 2 ^ (n.size - 53) ≤ n := by
  have hsize : 0 < n.size := Nat.size_pos.mpr hn
  have hlt : n.size - 53 < n.size := by omega
  exact Nat.lt_size.mp hlt

theorem nearestDouble_pos {n : Nat} (hn : 0 < n) : 0 < nearestDouble n :=
  roundEven_pos (Nat.two_pow_pos _) (binaryUnit_le hn)

theorem nearestDouble_of_lt {n : Nat} (hn : n < 2 ^ 53) : nearestDouble n = n := by
  have hsize : n.size ≤ 53 := Nat.size_le.mpr hn
  have hzero : n.size - 53 = 0 := by omega
  rw [nearestDouble, hzero]
  exact roundEven_of_dvd Nat.one_pos (Nat.one_dvd n)

theorem nearestDouble_le {n : Nat} (hn : n ≤ 2 ^ 63) : nearestDouble n ≤ 2 ^ 63 + 2 ^ 11 := by
  have hsize : n.size ≤ 64 := Nat.size_le.mpr (by omega)
  have hunit : 2 ^ (n.size - 53) ≤ 2 ^ 11 := Nat.pow_le_pow_right (by omega) (by omega)
  have hle := roundEven_le n (2 ^ (n.size - 53))
  rw [nearestDouble]
  omega

theorem le_nearestDouble {n c : Nat} (hc : c ≤ 2 ^ 52) (hn : c ≤ n) : c ≤ nearestDouble n := by
  by_cases hlt : n < 2 ^ 53
  · rw [nearestDouble_of_lt hlt]
    exact hn
  · have hsize : 53 < n.size := Nat.lt_size.mpr (by omega)
    have hunit : 0 < 2 ^ (n.size - 53) := Nat.two_pow_pos _
    have hpow : 2 ^ 52 * 2 ^ (n.size - 53) ≤ n := by
      rw [← Nat.pow_add]
      exact Nat.lt_size.mp (by omega)
    have hquot : 2 ^ 52 ≤ n / 2 ^ (n.size - 53) := (Nat.le_div_iff_mul_le hunit).mpr hpow
    have hmul : 2 ^ 52 * 1 ≤ n / 2 ^ (n.size - 53) * 2 ^ (n.size - 53) :=
      Nat.mul_le_mul hquot hunit
    rw [nearestDouble]
    obtain heq | heq := roundEven_eq n (2 ^ (n.size - 53))
    · omega
    · rw [heq, Nat.add_mul]
      omega

/-- A number of few decimal digits has enough factors two for its size. -/
theorem nearestDouble_of_fewDigits {n : Nat} (hn : n < 2 ^ 64) (hfew : FewDigits n) :
    nearestDouble n = n := by
  by_cases hsmall : n < 2 ^ 53
  · exact nearestDouble_of_lt hsmall
  obtain ⟨m, k, rfl, hm⟩ := hfew
  have hsize : 53 < (m * 10 ^ k).size := Nat.lt_size.mpr (by omega)
  have hsize' : (m * 10 ^ k).size ≤ 64 := Nat.size_le.mpr hn
  generalize he : (m * 10 ^ k).size - 53 = e at *
  have hlow : 2 ^ (e + 52) ≤ m * 10 ^ k := Nat.lt_size.mp (by omega)
  have hhigh : m * 10 ^ k < 2 ^ 20 * 2 ^ (4 * k) := by
    have hten : 10 ^ k ≤ 2 ^ (4 * k) := by
      rw [Nat.pow_mul]
      exact Nat.pow_le_pow_left (by omega) k
    have hm' : m < 2 ^ 20 := by omega
    calc m * 10 ^ k ≤ m * 2 ^ (4 * k) := Nat.mul_le_mul_left m hten
      _ < 2 ^ 20 * 2 ^ (4 * k) := Nat.mul_lt_mul_of_pos_right hm' (Nat.two_pow_pos _)
  rw [← Nat.pow_add] at hhigh
  have hexp : e + 52 < 20 + 4 * k :=
    (Nat.pow_lt_pow_iff_right (by omega)).mp (Nat.lt_of_le_of_lt hlow hhigh)
  have hdvd : 2 ^ e ∣ m * 10 ^ k := by
    have hle : e ≤ k := by omega
    have hten : (10 : Nat) ^ k = 2 ^ k * 5 ^ k := by
      rw [← Nat.mul_pow]
    rw [hten]
    exact ((Nat.pow_dvd_pow 2 hle).trans (Nat.dvd_mul_right _ _)).trans (Nat.dvd_mul_left _ _)
  rw [nearestDouble, he]
  exact roundEven_of_dvd (Nat.two_pow_pos _) hdvd

/-! ### Decimal digits -/

theorem digits_length_le {n k : Nat} (hn : n < 10 ^ k) : (Nat.digits 10 n).length ≤ k :=
  (Nat.digits_length_le_iff (by omega) n).mpr hn

theorem sixDigits_of_fewDigits {n : Nat} (hfew : FewDigits n) : sixDigits n = n := by
  obtain ⟨m, k, rfl, hm⟩ := hfew
  have hlt : m * 10 ^ k < 10 ^ (k + 6) := by
    rw [Nat.pow_add, Nat.mul_comm]
    exact Nat.mul_lt_mul_of_pos_left hm (Nat.pow_pos (by omega))
  have hlength := digits_length_le hlt
  have hdvd : 10 ^ ((Nat.digits 10 (m * 10 ^ k)).length - 6) ∣ m * 10 ^ k :=
    (Nat.pow_dvd_pow 10 (by omega)).trans (Nat.dvd_mul_left _ _)
  exact roundEven_of_dvd (Nat.pow_pos (by omega)) hdvd

theorem fewDigits_sixDigits (n : Nat) : FewDigits (sixDigits n) := by
  rw [sixDigits]
  generalize hk : (Nat.digits 10 n).length - 6 = k
  have hlt : n < 10 ^ (6 + k) := by
    have := Nat.lt_base_pow_length_digits (show 1 < 10 by omega) (m := n)
    exact Nat.lt_of_lt_of_le this (Nat.pow_le_pow_right (by omega) (by omega))
  have hquot : n / 10 ^ k < 10 ^ 6 := by
    rw [Nat.div_lt_iff_lt_mul (Nat.pow_pos (by omega)), ← Nat.pow_add]
    exact hlt
  obtain heq | heq := roundEven_eq n (10 ^ k)
  · exact ⟨_, k, heq, hquot⟩
  · rcases Nat.lt_or_eq_of_le hquot with hsucc | hsucc
    · exact ⟨_, k, heq, hsucc⟩
    · refine ⟨1, 6 + k, ?_, by omega⟩
      rw [heq, show n / 10 ^ k + 1 = 10 ^ 6 from hsucc, Nat.one_mul, Nat.pow_add]

theorem sixDigits_le {n : Nat} (hn : n < 10 ^ 19) : sixDigits n ≤ n + 10 ^ 13 := by
  have hlength := digits_length_le hn
  have hunit : 10 ^ ((Nat.digits 10 n).length - 6) ≤ 10 ^ 13 :=
    Nat.pow_le_pow_right (by omega) (by omega)
  have hle := roundEven_le n (10 ^ ((Nat.digits 10 n).length - 6))
  rw [sixDigits]
  omega

theorem sixDigits_pos {n : Nat} (hn : 0 < n) : 0 < sixDigits n := by
  apply roundEven_pos (Nat.pow_pos (by omega))
  have hlength : 0 < (Nat.digits 10 n).length :=
    List.length_pos_of_ne_nil (Nat.digits_ne_nil_iff_ne_zero.mpr (by omega))
  by_contra hlt
  have hle : (Nat.digits 10 n).length ≤ (Nat.digits 10 n).length - 6 :=
    digits_length_le (by omega)
  omega

/-- Printed with six digits and read again, a number comes back when it has few digits. -/
theorem reread_iff {n : Nat} (hn : n ≤ 2 ^ 63) :
    nearestDouble (sixDigits (nearestDouble n)) = n ↔ FewDigits n := by
  have hbound := nearestDouble_le hn
  have hsix := sixDigits_le (n := nearestDouble n) (by omega)
  constructor
  · intro heq
    have hfew := fewDigits_sixDigits (nearestDouble n)
    rw [nearestDouble_of_fewDigits (by omega) hfew] at heq
    rwa [heq] at hfew
  · intro hfew
    have hself := nearestDouble_of_fewDigits (by omega) hfew
    rw [hself, sixDigits_of_fewDigits hfew, hself]

end EZLanguage
