import Picasso.Lib.Lists
import Mathlib.Data.List.Induction
import Mathlib.Tactic.Common

namespace Picasso.Lib.Precedence

open Chunks List

variable {α ω : Type}

/-- Ways to bracket a chain of operands `α` with operators `ω` between them. -/
inductive Tree (α ω : Type)
  | leaf (a : α)
  | node (l : Tree α ω) (o : ω) (r : Tree α ω)

namespace Tree

def first : Tree α ω → α
  | leaf a => a
  | node l _ _ => l.first

def rest : Tree α ω → List (ω × α)
  | leaf _ => []
  | node l o r => l.rest ++ (o, r.first) :: r.rest

def ops : Tree α ω → List ω
  | leaf _ => []
  | node l o r => l.ops ++ o :: r.ops

theorem ops_eq (t : Tree α ω) : t.ops = t.rest.map Prod.fst := by
  induction t with
  | leaf a => rfl
  | node l o r ihl ihr => simp [ops, rest, ihl, ihr]

/-- Every operator is related by `L` to those in its left operand and by `R`
to those in its right operand. -/
def Grouped (L R : ω → ω → Prop) : Tree α ω → Prop
  | leaf _ => True
  | node l o r => l.Grouped L R ∧ r.Grouped L R ∧ (∀ o' ∈ l.ops, L o o') ∧ ∀ o' ∈ r.ops, R o o'

/-- Higher powers bind tighter, and equal ones to the left. -/
def LeftGrouped (power : ω → Nat) (t : Tree α ω) : Prop :=
  t.Grouped (fun o o' => power o ≤ power o') fun o o' => power o < power o'

/-- Higher powers bind tighter, and equal ones to the right. -/
def RightGrouped (power : ω → Nat) (t : Tree α ω) : Prop :=
  t.Grouped (fun o o' => power o < power o') fun o o' => power o ≤ power o'

variable {power : ω → Nat}

def push (power : ω → Nat) : Tree α ω → ω → α → Tree α ω
  | leaf b, o, a => node (leaf b) o (leaf a)
  | node l o' r, o, a => if power o ≤ power o' then node (node l o' r) o (leaf a) else node l o' (r.push power o a)

theorem first_push (t : Tree α ω) (o : ω) (a : α) : (t.push power o a).first = t.first := by
  induction t with
  | leaf b => rfl
  | node l o' r ihl ihr =>
    rw [push]
    split <;> rfl

theorem rest_push (t : Tree α ω) (o : ω) (a : α) : (t.push power o a).rest = t.rest ++ [(o, a)] := by
  induction t with
  | leaf b => rfl
  | node l o' r ihl ihr =>
    rw [push]
    split
    · rfl
    · simp [rest, ihr, first_push]

theorem ops_push (t : Tree α ω) (o : ω) (a : α) : (t.push power o a).ops = t.ops ++ [o] := by
  simp [ops_eq, rest_push]

theorem push_grouped {t : Tree α ω} (o : ω) (a : α) (h : t.LeftGrouped power) :
    (t.push power o a).LeftGrouped power := by
  induction t with
  | leaf b => simp [LeftGrouped, push, Grouped, ops]
  | node l o' r ihl ihr =>
    obtain ⟨hl, hr, hlo, hro⟩ := id h
    rw [push]
    split
    · rename_i hle
      refine ⟨h, trivial, fun x hx => ?_, by simp [ops]⟩
      -- the root is the weakest operator of the tree
      simp only [ops, mem_append, mem_cons] at hx
      rcases hx with hx | rfl | hx
      · exact Nat.le_trans hle (hlo x hx)
      · exact hle
      · exact Nat.le_trans hle (Nat.le_of_lt (hro x hx))
    · rename_i hlt
      refine ⟨hl, ihr hr, hlo, fun x hx => ?_⟩
      rw [ops_push, mem_append, mem_singleton] at hx
      rcases hx with hx | rfl
      · exact hro x hx
      · exact Nat.lt_of_not_le hlt

theorem exists_leftGrouped (power : ω → Nat) (a : α) (cs : List (ω × α)) :
    ∃ t : Tree α ω, t.first = a ∧ t.rest = cs ∧ t.LeftGrouped power := by
  induction cs using List.reverseRecOn with
  | nil => exact ⟨leaf a, rfl, rfl, trivial⟩
  | append_singleton cs c ih =>
    obtain ⟨t, rfl, rfl, ht⟩ := ih
    exact ⟨t.push power c.1 c.2, first_push t _ _, rest_push t _ _, push_grouped _ _ ht⟩

theorem leftGrouped_unique {t t' : Tree α ω} (h : t.LeftGrouped power) (h' : t'.LeftGrouped power)
    (hf : t.first = t'.first) (hr : t.rest = t'.rest) : t = t' := by
  induction t generalizing t' with
  | leaf a =>
    cases t' with
    | leaf b => exact congrArg leaf hf
    | node l o r => simp [rest] at hr
  | node l o r ihl ihr =>
    cases t' with
    | leaf b => simp [rest] at hr
    | node l' o' r' =>
      obtain ⟨hl, hr1, hlo, hro⟩ := h
      obtain ⟨hl', hr1', hlo', hro'⟩ := h'
      rcases append_cons_cases hr with ⟨m, h1, h2⟩ | ⟨h1, h2, h3⟩ | ⟨m, h1, h2⟩
      · have := hlo o' (by simp [ops_eq, h1])
        have := hro' o (by simp [ops_eq, h2])
        omega
      · obtain ⟨rfl, hfr⟩ := Prod.mk.inj h2
        rw [ihl hl hl' hf h1, ihr hr1 hr1' hfr h3]
      · have := hlo' o (by simp [ops_eq, h1])
        have := hro o' (by simp [ops_eq, h2])
        omega

end Tree

/-- `a` stands before `b` in the list, with `mid` between them. -/
def Between (l : List ω) (a : ω) (mid : List ω) (b : ω) : Prop := ∃ pre post, l = pre ++ a :: (mid ++ b :: post)

variable {l r mid : List ω} {a b o : ω}

theorem Between.left (h : Between l a mid b) (r : List ω) : Between (l ++ r) a mid b := by
  obtain ⟨pre, post, rfl⟩ := h
  exact ⟨pre, post ++ r, by simp⟩

theorem Between.right (h : Between r a mid b) (l : List ω) : Between (l ++ r) a mid b := by
  obtain ⟨pre, post, rfl⟩ := h
  exact ⟨l ++ pre, post, by simp⟩

theorem Between.cons (h : Between l a mid b) (o : ω) : Between (o :: l) a mid b := h.right [o]

theorem Between.cases (h : Between (l ++ o :: r) a mid b) :
    Between l a mid b ∨ Between r a mid b ∨ (a ∈ l ∧ b = o) ∨ (a ∈ l ∧ o ∈ mid ∧ b ∈ r) ∨ (a = o ∧ b ∈ r) := by
  obtain ⟨pre, post, he⟩ := h
  rcases append_cons_cases he with ⟨m, rfl, hm⟩ | ⟨-, rfl, rfl⟩ | ⟨m, -, rfl⟩
  · have ha : a ∈ pre ++ a :: m := by simp
    rcases append_cons_cases hm with ⟨m', rfl, rfl⟩ | ⟨-, rfl, -⟩ | ⟨m', rfl, -⟩
    · exact .inr (.inr (.inr (.inl ⟨ha, by simp, by simp⟩)))
    · exact .inr (.inr (.inl ⟨ha, rfl⟩))
    · exact .inl ⟨pre, m', rfl⟩
  · exact .inr (.inr (.inr (.inr ⟨rfl, by simp⟩)))
  · exact .inr (.inl ⟨m, post, rfl⟩)

theorem Between.pair {p q : ω} (h : Between [p, q] a mid b) : a = p ∧ mid = [] ∧ b = q := by
  obtain ⟨pre, post, h⟩ := h
  have hlen := congrArg List.length h
  simp only [length_cons, length_append, length_nil] at hlen
  obtain rfl : pre = [] := length_eq_zero_iff.mp (by omega)
  obtain rfl : mid = [] := length_eq_zero_iff.mp (by omega)
  cases h
  exact ⟨rfl, rfl, rfl⟩

theorem exists_first {p : ω → Prop} (h : ∃ x ∈ l, p x) :
    ∃ pre x post, l = pre ++ x :: post ∧ p x ∧ ∀ y ∈ pre, ¬ p y := by
  induction l with
  | nil => simp at h
  | cons z l ih =>
    by_cases hz : p z
    · exact ⟨[], z, l, rfl, hz, by simp⟩
    · obtain ⟨x, hx, hp⟩ := h
      rcases mem_cons.mp hx with rfl | hx
      · exact absurd hp hz
      · obtain ⟨pre, y, post, rfl, hy, hpre⟩ := ih ⟨x, hx, hp⟩
        exact ⟨z :: pre, y, post, rfl, hy, forall_mem_cons.mpr ⟨hz, hpre⟩⟩

end Picasso.Lib.Precedence
