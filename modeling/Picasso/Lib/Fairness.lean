import Picasso.Lib.Transition

namespace Picasso.Lib.Fairness

open Transition

variable {σ α : Type} {M : Machine σ α}

/-- One moment of a behaviour: a step of the machine, or a pause. -/
def Follows (M : Machine σ α) (s : σ) (a : Option α) (s' : σ) : Prop :=
  match a with
  | none => s' = s
  | some a => M.step s a = some s'

structure Behaviour (M : Machine σ α) where
  state : Nat → σ
  act : Nat → Option α
  next : ∀ n, Follows M (state n) (act n) (state (n + 1))

/-- One step, and then only pauses. -/
def Behaviour.single {s s' : σ} {a : α} (h : M.step s a = some s') : Behaviour M where
  state n := if n = 0 then s else s'
  act n := if n = 0 then some a else none
  next
    | 0 => h
    | _ + 1 => rfl

theorem Behaviour.step (b : Behaviour M) {n : Nat} {a : α} (ha : b.act n = some a) :
    M.step (b.state n) a = some (b.state (n + 1)) := by
  have := b.next n
  rwa [ha] at this

theorem Behaviour.reachable (b : Behaviour M) (h : Reachable M (b.state 0)) (n : Nat) : Reachable M (b.state n) := by
  induction n with
  | zero => exact h
  | succ n ih =>
    have hn := b.next n
    cases ha : b.act n with
    | none =>
      rw [ha] at hn
      rw [show b.state (n + 1) = b.state n from hn]
      exact ih
    | some a => exact ih.step (b.step ha)

theorem Behaviour.lasts (b : Behaviour M) {P : σ → Prop} {a : α} {n : Nat} (hP : P (b.state n))
    (hstay : ∀ s x s', P s → x ≠ a → M.step s x = some s' → P s') (hfair : ∃ m, n ≤ m ∧ b.act m = some a) :
    ∃ m, n ≤ m ∧ P (b.state m) ∧ b.act m = some a := by
  obtain ⟨m, hm, ha⟩ := hfair
  induction hd : m - n generalizing n with
  | zero =>
    obtain rfl : m = n := by omega
    exact ⟨m, hm, hP, ha⟩
  | succ d ih =>
    by_cases hn : b.act n = some a
    · exact ⟨n, Nat.le_refl n, hP, hn⟩
    · have hnext : P (b.state (n + 1)) := by
        have hs := b.next n
        cases hx : b.act n with
        | none =>
          rw [hx] at hs
          rw [show b.state (n + 1) = b.state n from hs]
          exact hP
        | some x =>
          rw [hx] at hs hn
          exact hstay _ x _ hP (fun h => hn (congrArg some h)) hs
      obtain ⟨k, hk, h⟩ := ih hnext (by omega) (by omega)
      exact ⟨k, by omega, h⟩

end Picasso.Lib.Fairness
