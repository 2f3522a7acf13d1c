import Mathlib.Data.List.Count
import Mathlib.Logic.Function.Basic

namespace Picasso.Lib.Queues

variable {P α : Type} [DecidableEq P] [DecidableEq α]

def push (q : P → List α) (p : P) (a : α) : P → List α := Function.update q p (q p ++ [a])

def remove (q : P → List α) (p : P) (a : α) : P → List α := Function.update q p ((q p).erase a)

def tally (q : P → List α) (a : α) (p : P) : Nat := (q p).count a

def Nowhere (q : P → List α) (a : α) : Prop := ∀ p, tally q a p = 0

/-- Of all queues only the one at `p` holds `a`, and it holds it once. -/
structure OnlyAt (q : P → List α) (a : α) (p : P) : Prop where
  once : tally q a p = 1
  other : ∀ r, r ≠ p → tally q a r = 0

variable {q q' : P → List α} {a b : α} {p r : P}

omit [DecidableEq P] in
theorem tally_pos : 0 < tally q a p ↔ a ∈ q p := List.count_pos_iff

theorem tally_push (q : P → List α) (p r : P) (a b : α) :
    tally (push q p b) a r = tally q a r + if r = p ∧ a = b then 1 else 0 := by
  by_cases hr : r = p
  · subst hr
    by_cases hab : a = b
    · simp [tally, push, hab]
    · simp [tally, push, hab, Ne.symm hab]
  · simp [tally, push, hr]

theorem tally_remove (q : P → List α) (p r : P) (a b : α) :
    tally (remove q p b) a r = tally q a r - if r = p ∧ a = b then 1 else 0 := by
  by_cases hr : r = p
  · subst hr
    by_cases hab : a = b
    · simp [tally, remove, hab]
    · simp [tally, remove, hab, List.count_erase_of_ne hab]
  · simp [tally, remove, hr]

theorem tally_push_ne (q : P → List α) (p r : P) (hab : a ≠ b) : tally (push q p b) a r = tally q a r := by
  simp [tally_push, hab]

theorem tally_remove_ne (q : P → List α) (p r : P) (hab : a ≠ b) : tally (remove q p b) a r = tally q a r := by
  simp [tally_remove, hab]

theorem Nowhere.push (h : Nowhere q a) (p : P) : OnlyAt (push q p a) a p := by
  refine ⟨?_, ?_⟩
  · rw [tally_push, h p]
    simp
  · intro r hr
    rw [tally_push, h r]
    simp [hr]

theorem OnlyAt.remove (h : OnlyAt q a p) : Nowhere (remove q p a) a := by
  intro r
  rw [tally_remove]
  by_cases hr : r = p
  · rw [hr, h.once]
    simp
  · rw [h.other r hr]
    simp

section Tallies

omit [DecidableEq P]

theorem Nowhere.congr (h : Nowhere q a) (hc : ∀ p, tally q' a p = tally q a p) : Nowhere q' a := by
  intro p
  rw [hc, h p]

theorem OnlyAt.congr (h : OnlyAt q a p) (hc : ∀ r, tally q' a r = tally q a r) : OnlyAt q' a p := by
  refine ⟨?_, ?_⟩
  · rw [hc, h.once]
  · intro r hr
    rw [hc, h.other r hr]

theorem OnlyAt.place_eq (h : OnlyAt q a p) (hr : a ∈ q r) : p = r := by
  by_contra hne
  have hpos := tally_pos.mpr hr
  rw [h.other r (Ne.symm hne)] at hpos
  omega

theorem Nowhere.not_mem (h : Nowhere q a) (p : P) : a ∉ q p := by
  rw [← tally_pos, h p]
  omega

def Once (q : P → List α) (a : α) : Prop := Nowhere q a ∨ ∃ p, OnlyAt q a p

theorem Once.onlyAt (h : Once q a) (hm : a ∈ q p) : OnlyAt q a p := by
  obtain h | ⟨r, h⟩ := h
  · exact absurd hm (h.not_mem p)
  · exact h.place_eq hm ▸ h

theorem Once.congr (h : Once q a) (hc : ∀ p, tally q' a p = tally q a p) : Once q' a :=
  h.imp (fun h => h.congr hc) fun ⟨p, h⟩ => ⟨p, h.congr hc⟩

theorem once_iff : Once q a ↔ ∀ p r, tally q a p ≤ 1 ∧ (p ≠ r → tally q a p + tally q a r ≤ 1) := by
  constructor
  · rintro (h | ⟨x, h⟩) p r
    · simp [h p, h r]
    · have hx := h.once
      by_cases hp : p = x <;> by_cases hr : r = x
      · subst hp hr
        exact ⟨by omega, fun hne => absurd rfl hne⟩
      · subst hp
        simp [h.other r hr, hx]
      · subst hr
        simp [h.other p hp, hx]
      · simp [h.other p hp, h.other r hr]
  · intro h
    by_cases hx : ∃ x, tally q a x ≠ 0
    · obtain ⟨x, hx⟩ := hx
      refine .inr ⟨x, ?_, fun r hr => ?_⟩
      · have := (h x x).1
        omega
      · have := (h x r).2 (Ne.symm hr)
        omega
    · push Not at hx
      exact .inl hx

theorem Once.mono (h : Once q a) (hc : ∀ p, tally q' a p ≤ tally q a p) : Once q' a := by
  rw [once_iff] at h ⊢
  intro p r
  exact ⟨Nat.le_trans (hc p) (h p r).1, fun hne => Nat.le_trans (Nat.add_le_add (hc p) (hc r)) ((h p r).2 hne)⟩

theorem Once.shift (h : Once q a) (hne : p ≠ r) (hsum : tally q' a p + tally q' a r = tally q a p + tally q a r)
    (hother : ∀ x, x ≠ p → x ≠ r → tally q' a x = tally q a x) : Once q' a := by
  rw [once_iff] at h ⊢
  have hpr := (h p r).2 hne
  have hthird : ∀ x, x ≠ p → x ≠ r → tally q' a p + tally q' a r + tally q' a x ≤ 1 := by
    intro x hp hr
    have := (h x p).2 hp
    have := (h x r).2 hr
    rw [hother x hp hr]
    omega
  intro x y
  by_cases hx : x = p ∨ x = r <;> by_cases hy : y = p ∨ y = r
  · rcases hx with rfl | rfl <;> rcases hy with rfl | rfl <;> refine ⟨by omega, fun hxy => ?_⟩ <;>
      first | omega | exact absurd rfl hxy
  · have := hthird y (by tauto) (by tauto)
    rcases hx with rfl | rfl <;> exact ⟨by omega, fun _ => by omega⟩
  · have := hthird x (by tauto) (by tauto)
    rcases hy with rfl | rfl <;> exact ⟨by omega, fun _ => by omega⟩
  · rw [hother x (by tauto) (by tauto), hother y (by tauto) (by tauto)]
    exact h x y

end Tallies

theorem mem_push (h : a ∈ push q p b r) : a ∈ q r ∨ r = p ∧ a = b := by
  rw [← tally_pos, tally_push] at h
  split at h
  · next he => exact .inr he
  · exact .inl (tally_pos.mp h)

theorem mem_remove (h : a ∈ remove q p b r) : a ∈ q r := by
  rw [← tally_pos, tally_remove] at h
  exact tally_pos.mp (by omega)

theorem remove_head {l : List α} (h : q p = a :: l) : Function.update q p l = remove q p a := by
  rw [remove, h, List.erase_cons_head]

end Picasso.Lib.Queues
