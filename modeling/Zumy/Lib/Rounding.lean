/-
  Zumy.Lib.Rounding — rounding to a number of binary digits, as floating point does it
  while the exponent is in range: to the nearest number, and of two to the even one.

  The numbers are integers, in units of a power of two that the user chooses.

  - `roundTo_close`: the error is at most half a unit in the last place.
  - `roundTo_eq_of_near`: so a number with few digits that is closer than that is the result.
  - `roundTo_mul_pow`: a number with that many digits is kept.
-/
import Mathlib.Algebra.Order.Ring.Nat
import Mathlib.Data.Nat.Log

namespace Zumy.Lib

variable {p n v : Nat}

/-- The unit in the last of `p` binary digits. -/
def lastPlace (p n : Nat) : Nat := 2 ^ (n.log2 + 1 - p)

def roundTo (p n : Nat) : Nat :=
  let u := lastPlace p n
  if u < 2 * (n % u) ∨ (2 * (n % u) = u ∧ n / u % 2 = 1) then (n / u + 1) * u else n / u * u

def roundSigned (p : Nat) (x : Int) : Int := x.sign * roundTo p x.natAbs

theorem lastPlace_pos : 0 < lastPlace p n := Nat.two_pow_pos _

theorem lastPlace_le {k : Nat} (hp : 0 < p) (h : n < 2 ^ (p + k)) : lastPlace p n ≤ 2 ^ k := by
  apply Nat.pow_le_pow_right (by decide)
  rcases Nat.eq_zero_or_pos n with rfl | hn
  · rw [Nat.log2_zero]
    omega
  · have hlog := (Nat.log2_lt hn.ne').2 h
    omega

theorem lastPlace_dvd {k : Nat} (hp : 0 < p) (h : n < 2 ^ (p + k)) : lastPlace p n ∣ 2 ^ k :=
  (Nat.pow_dvd_pow_iff_le_right (by decide)).2 ((Nat.pow_le_pow_iff_right (by decide)).1 (lastPlace_le hp h))

theorem le_lastPlace {k : Nat} (hp : 0 < p) (h : 2 ^ (p + k - 1) ≤ n) : 2 ^ k ≤ lastPlace p n := by
  apply Nat.pow_le_pow_right (by decide)
  have hn : n ≠ 0 := (Nat.two_pow_pos _).trans_le h |>.ne'
  have hlog := (Nat.le_log2 hn).2 h
  omega

theorem lastPlace_dvd_roundTo : lastPlace p n ∣ roundTo p n := by
  unfold roundTo
  dsimp only
  split
  · exact Nat.dvd_mul_left _ _
  · exact Nat.dvd_mul_left _ _

theorem roundTo_close : 2 * roundTo p n ≤ 2 * n + lastPlace p n ∧ 2 * n ≤ 2 * roundTo p n + lastPlace p n := by
  have hdiv := Nat.div_add_mod n (lastPlace p n)
  have hmod := Nat.mod_lt n (lastPlace_pos (p := p) (n := n))
  unfold roundTo
  dsimp only
  generalize lastPlace p n = u at hdiv hmod
  rw [Nat.mul_comm u] at hdiv
  split
  next hup =>
    rw [Nat.add_mul, Nat.one_mul]
    omega
  next hdown => omega

theorem roundTo_eq_of_near (hdvd : lastPlace p n ∣ v) (hbelow : 2 * v < 2 * n + lastPlace p n)
    (habove : 2 * n < 2 * v + lastPlace p n) : roundTo p n = v := by
  obtain ⟨hle, hge⟩ := roundTo_close (p := p) (n := n)
  obtain ⟨a, ha⟩ := lastPlace_dvd_roundTo (p := p) (n := n)
  obtain ⟨b, hb⟩ := hdvd
  have hpos := lastPlace_pos (p := p) (n := n)
  rw [ha] at hle hge ⊢
  rw [hb] at hbelow habove ⊢
  generalize lastPlace p n = u at *
  have hab : a < b + 1 := by
    by_contra hlt
    have hmul := Nat.mul_le_mul_left u (not_lt.1 hlt)
    rw [Nat.mul_add, Nat.mul_one] at hmul
    omega
  have hba : b < a + 1 := by
    by_contra hlt
    have hmul := Nat.mul_le_mul_left u (not_lt.1 hlt)
    rw [Nat.mul_add, Nat.mul_one] at hmul
    omega
  have heq : a = b := by omega
  rw [heq]

theorem roundTo_mul_pow {t k : Nat} (hp : 0 < p) (h : t < 2 ^ p) : roundTo p (t * 2 ^ k) = t * 2 ^ k := by
  have hlt : t * 2 ^ k < 2 ^ (p + k) := by
    rw [Nat.pow_add]
    exact Nat.mul_lt_mul_of_pos_right h (Nat.two_pow_pos k)
  have hpos := lastPlace_pos (p := p) (n := t * 2 ^ k)
  exact roundTo_eq_of_near (Nat.dvd_mul_left_of_dvd (lastPlace_dvd hp hlt) t) (by omega) (by omega)

theorem roundSigned_natCast (p n : Nat) : roundSigned p (n : Int) = (roundTo p n : Nat) := by
  unfold roundSigned
  rcases Nat.eq_zero_or_pos n with rfl | hn
  · simp [roundTo]
  · rw [Int.sign_eq_one_of_pos (by omega), Int.one_mul, Int.natAbs_natCast]

end Zumy.Lib
