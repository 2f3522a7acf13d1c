import Mathlib.Algebra.BigOperators.Group.Finset.Basic
import Mathlib.Algebra.Order.BigOperators.Group.Finset

namespace Picasso.Lib.Lock

variable {P : Type}

/-- Every party at a point that lies between an acquire and the matching
release is the recorded owner of the lock. -/
def Guarded (lock : Option P) (inside : P → Bool) : Prop := ∀ p, inside p = true → lock = some p

theorem Guarded.unique {lock : Option P} {inside : P → Bool} (h : Guarded lock inside) {p q : P}
    (hp : inside p = true) (hq : inside q = true) : p = q :=
  Option.some.inj ((h p hp).symm.trans (h q hq))

theorem Guarded.outside {lock : Option P} {inside : P → Bool} (h : Guarded lock inside) {p q : P}
    (hp : inside p = true) (hne : q ≠ p) : inside q = false := by
  cases hq : inside q with
  | false => rfl
  | true => exact absurd (h.unique hq hp) hne

inductive Effect (lock lock' : Option P) (inside inside' : P → Bool) (p : P) : Prop
  | keep (hl : lock' = lock) (hp : inside' p = inside p)
  | acquire (hf : lock = none) (hl : lock' = some p)
  | release (hp : inside p = true) (hp' : inside' p = false)

theorem Guarded.step {lock lock' : Option P} {inside inside' : P → Bool} {p : P}
    (h : Guarded lock inside) (he : Effect lock lock' inside inside' p)
    (hother : ∀ q, q ≠ p → inside' q = inside q) : Guarded lock' inside' := by
  intro q hq
  by_cases hqp : q = p
  · subst hqp
    cases he with
    | keep hl hp => rw [hl]; exact h q (hp ▸ hq)
    | acquire _ hl => exact hl
    | release _ hp' => simp [hp'] at hq
  · rw [hother q hqp] at hq
    have hlq := h q hq
    cases he with
    | keep hl _ => rw [hl, hlq]
    | acquire hf _ => simp [hf] at hlq
    | release hp _ => exact absurd (h.unique hq hp) hqp

end Picasso.Lib.Lock

namespace Picasso.Lib.Counting

open Finset

variable {T : Type} [Fintype T]

theorem sum_point [DecidableEq T] {f g : T → Nat} {t : T} (h : ∀ u, u ≠ t → g u = f u) :
    ∑ u, g u + f t = ∑ u, f u + g t := by
  have hrest : ∑ u ∈ Finset.univ.erase t, g u = ∑ u ∈ Finset.univ.erase t, f u :=
    sum_congr rfl fun u hu => h u (ne_of_mem_erase hu)
  have hg := add_sum_erase Finset.univ g (mem_univ t)
  have hf := add_sum_erase Finset.univ f (mem_univ t)
  omega

theorem share_le_sum (f : T → Nat) (t : T) : f t ≤ ∑ u, f u :=
  single_le_sum (fun _ _ => Nat.zero_le _) (mem_univ t)

theorem two_shares_le_sum {f : T → Nat} {t u : T} (h : t ≠ u) : f t + f u ≤ ∑ v, f v := by
  classical
  have hsub : ({t, u} : Finset T) ⊆ Finset.univ := subset_univ _
  calc f t + f u = ∑ v ∈ ({t, u} : Finset T), f v := (sum_pair h).symm
    _ ≤ ∑ v, f v := sum_le_sum_of_subset hsub

end Picasso.Lib.Counting
