import Mathlib.Data.List.Basic

namespace Picasso.Lib.Stateful

variable {σ ε α β γ : Type} {I : σ → Prop} {m : StateT σ (Except ε) α} {f : α → StateT σ (Except ε) β}

section Runs

variable {s s' : σ}

theorem run_bind_ok {a : α} (h : m s = .ok (a, s')) : (m >>= f) s = f a s' := by
  change (m s >>= fun p => f p.1 p.2) = _
  rw [h]
  rfl

theorem run_bind_error {e : ε} (h : m s = .error e) : (m >>= f) s = .error e := by
  change (m s >>= fun p => f p.1 p.2) = _
  rw [h]
  rfl

theorem run_bind_eq_ok {b : β} (h : (m >>= f) s = .ok (b, s')) : ∃ a t, m s = .ok (a, t) ∧ f a t = .ok (b, s') := by
  cases hm : m s with
  | error e =>
    rw [run_bind_error hm] at h
    cases h
  | ok p =>
    rw [run_bind_ok hm] at h
    exact ⟨p.1, p.2, rfl, h⟩

end Runs

/-- A property of the state holds after the computation if it held before it. -/
def Keeps (I : σ → Prop) (m : StateT σ (Except ε) α) : Prop :=
  ∀ s a s', m s = .ok (a, s') → I s → I s'

section Ends

variable {stop : ε → Prop} {Q Q' : α → σ → Prop} {R : β → σ → Prop} {s : σ}

/-- A run returns with `Q`, or it stops for a reason that is allowed. -/
inductive Ends (stop : ε → Prop) (Q : α → σ → Prop) : Except ε (α × σ) → Prop
  | ok {a : α} {s : σ} (h : Q a s) : Ends stop Q (.ok (a, s))
  | error {e : ε} (h : stop e) : Ends stop Q (.error e)

theorem Ends.mono {r : Except ε (α × σ)} (h : Ends stop Q r) (hQ : ∀ a s, Q a s → Q' a s) : Ends stop Q' r := by
  cases h with
  | ok h => exact .ok (hQ _ _ h)
  | error h => exact .error h

theorem Ends.of_ok {a : α} (h : Ends stop Q (.ok (a, s))) : Q a s := by
  cases h with
  | ok h => exact h

theorem ends_bind
    (h : Ends stop (fun a s' => Ends stop R (f a s')) (m s)) : Ends stop R ((m >>= f) s) := by
  generalize hm : m s = r at h
  cases h with
  | ok h =>
    rw [run_bind_ok hm]
    exact h
  | error h =>
    rw [run_bind_error hm]
    exact .error h

def upto (body : Nat → StateT σ (Except ε) Unit) : Nat → StateT σ (Except ε) Unit
  | 0 => pure ()
  | n + 1 => do
      upto body n
      body n

theorem ends_upto {body : Nat → StateT σ (Except ε) Unit} (I : Nat → σ → Prop) (n : Nat) (hs : I 0 s)
    (hbody : ∀ i < n, ∀ t, I i t → Ends stop (fun _ => I (i + 1)) (body i t)) :
    Ends stop (fun _ => I n) (upto body n s) := by
  induction n with
  | zero => exact .ok hs
  | succ n ih =>
    apply ends_bind
    refine (ih fun i hi => hbody i (by omega)).mono ?_
    intro _ t ht
    exact hbody n (by omega) t ht

end Ends

end Picasso.Lib.Stateful
