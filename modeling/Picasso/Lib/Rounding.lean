import Mathlib.Algebra.Order.Ring.Int

namespace Picasso.Lib.Rounding

variable {p : Nat}

/-- The nearest number with at most `p` significant bits, and of two equally
near ones the even one. -/
def roundNat (p n : Nat) : Nat :=
  let e := n.log2 + 1 - p
  let q := n / 2 ^ e
  let r := n % 2 ^ e
  if 2 ^ e < 2 * r ∨ 2 * r = 2 ^ e ∧ q % 2 = 1 then (q + 1) * 2 ^ e else q * 2 ^ e

def round (p : Nat) (z : Int) : Int := z.sign * roundNat p z.natAbs

def Representable (p : Nat) (z : Int) : Prop := ∃ m e, m < 2 ^ p ∧ z.natAbs = m * 2 ^ e

theorem roundNat_of_dvd {n : Nat} (h : 2 ^ (n.log2 + 1 - p) ∣ n) : roundNat p n = n := by
  have hr : n % 2 ^ (n.log2 + 1 - p) = 0 := Nat.mod_eq_zero_of_dvd h
  have hpos : 0 < 2 ^ (n.log2 + 1 - p) := Nat.two_pow_pos _
  rw [roundNat, hr, if_neg (by omega), Nat.div_mul_cancel h]

theorem roundNat_mul {m e : Nat} (h : m < 2 ^ p) : roundNat p (m * 2 ^ e) = m * 2 ^ e := by
  obtain rfl | hm := Nat.eq_zero_or_pos m
  · simp [roundNat]
  apply roundNat_of_dvd
  have hlog : (m * 2 ^ e).log2 < p + e := by
    rw [Nat.log2_lt (Nat.mul_pos hm (Nat.two_pow_pos e)).ne', pow_add]
    exact Nat.mul_lt_mul_of_pos_right h (Nat.two_pow_pos e)
  exact (Nat.pow_dvd_pow 2 (by omega)).trans (Nat.dvd_mul_left _ m)

theorem round_of_representable {z : Int} (h : Representable p z) : round p z = z := by
  obtain ⟨m, e, hm, hz⟩ := h
  rw [round, hz, roundNat_mul hm, ← hz, Int.sign_mul_natAbs]

theorem Representable.of_le {z : Int} {m e : Nat} (hm : m < 2 ^ p) (hd : 2 ^ e ∣ z.natAbs)
    (hle : z.natAbs ≤ m * 2 ^ e) : Representable p z := by
  obtain ⟨k, hk⟩ := hd
  refine ⟨k, e, ?_, by rw [hk, Nat.mul_comm]⟩
  rw [hk, Nat.mul_comm] at hle
  exact (Nat.le_of_mul_le_mul_right hle (Nat.two_pow_pos e)).trans_lt hm

theorem dvd_natAbs_tmod {a b : Int} {d : Nat} (ha : d ∣ a.natAbs) (hb : d ∣ b.natAbs) : d ∣ (a.tmod b).natAbs := by
  rw [Int.natAbs_tmod]
  exact (Nat.dvd_mod_iff hb).mpr ha

/-- A remainder is a multiple of the finer unit and below the number with that
unit, so that it is never rounded. -/
theorem Representable.tmod {a b : Int} (ha : Representable p a) (hb : Representable p b) (hne : b ≠ 0) :
    Representable p (a.tmod b) := by
  obtain ⟨m, i, hm, hi⟩ := ha
  obtain ⟨n, j, hn, hj⟩ := hb
  have hdi : 2 ^ i ∣ a.natAbs := hi ▸ Nat.dvd_mul_left _ m
  have hdj : 2 ^ j ∣ b.natAbs := hj ▸ Nat.dvd_mul_left _ n
  obtain hij | hij := le_total i j
  · apply Representable.of_le hm (dvd_natAbs_tmod hdi ((Nat.pow_dvd_pow 2 hij).trans hdj))
    rw [Int.natAbs_tmod, ← hi]
    exact Nat.mod_le _ _
  · apply Representable.of_le hn (dvd_natAbs_tmod ((Nat.pow_dvd_pow 2 hij).trans hdi) hdj)
    rw [Int.natAbs_tmod, ← hj]
    exact (Nat.mod_lt _ (Int.natAbs_pos.mpr hne)).le

end Picasso.Lib.Rounding
