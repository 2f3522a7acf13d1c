import Mathlib.Data.Set.Insert
import Mathlib.Order.Interval.Set.Basic
import Mathlib.Logic.Function.Basic

namespace Picasso.Lib.ControlFlow

open Function List Set

variable {α β ρ σ : Type}

section Graph

inductive Terminator (β ρ : Type)
  | br (target : Nat)
  | condBr (cond : β) (onTrue onFalse : Nat)
  | ret (value : Option ρ)
  | unreachable
deriving DecidableEq

structure Block (α β ρ : Type) where
  insts : List α
  term : Option (Terminator β ρ)

/-- A control-flow graph under construction: the blocks below `size` exist, and
a block without terminator is open. -/
structure Func (α β ρ : Type) where
  size : Nat
  block : Nat → Block α β ρ

def Func.empty : Func α β ρ := ⟨0, fun _ => ⟨[], none⟩⟩

def Func.newBlock (F : Func α β ρ) : Func α β ρ := ⟨F.size + 1, update F.block F.size ⟨[], none⟩⟩

def Func.newBlocks (F : Func α β ρ) : Nat → Func α β ρ
  | 0 => F
  | n + 1 => (F.newBlocks n).newBlock

def Func.addInst (F : Func α β ρ) (l : Nat) (a : α) : Func α β ρ :=
  { F with block := update F.block l { F.block l with insts := (F.block l).insts ++ [a] } }

def Func.addInsts (F : Func α β ρ) (l : Nat) (as : List α) : Func α β ρ := as.foldl (fun F a => F.addInst l a) F

/-- A terminator that the block already has is lost. -/
def Func.setTerm (F : Func α β ρ) (l : Nat) (t : Terminator β ρ) : Func α β ρ :=
  { F with block := update F.block l { F.block l with term := some t } }

def Func.Terminated (F : Func α β ρ) : Prop := ∀ k < F.size, (F.block k).term ≠ none

def Func.All (p : α → Prop) (F : Func α β ρ) : Prop := ∀ k, ∀ a ∈ (F.block k).insts, p a

end Graph

open Func

section Instructions

variable {p : α → Prop} {F : Func α β ρ} {l : Nat} {a : α}

theorem Func.all_empty : (empty : Func α β ρ).All p := by simp [Func.All, empty]

theorem Func.All.update {b : Block α β ρ} {n : Nat} (h : F.All p) (hb : ∀ a ∈ b.insts, p a) :
    Func.All p ⟨n, update F.block l b⟩ := by
  intro k
  dsimp only
  by_cases hk : k = l
  · rw [hk, update_self]
    exact hb
  · rw [update_of_ne hk]
    exact h k

theorem Func.All.newBlock (h : F.All p) : F.newBlock.All p := h.update (by simp)

theorem Func.All.newBlocks (h : F.All p) (n : Nat) : (F.newBlocks n).All p := by
  induction n with
  | zero => exact h
  | succ n ih => exact ih.newBlock

theorem Func.All.addInst (h : F.All p) (ha : p a) : (F.addInst l a).All p := by
  refine h.update fun x hx => ?_
  rcases mem_append.mp hx with hx | hx
  · exact h l x hx
  · rwa [mem_singleton.mp hx]

theorem Func.All.addInsts {as : List α} (h : F.All p) (ha : ∀ a ∈ as, p a) : (F.addInsts l as).All p := by
  induction as generalizing F with
  | nil => exact h
  | cons a as ih =>
    exact ih (h.addInst (ha a mem_cons_self)) fun x hx => ha x (mem_cons_of_mem a hx)

theorem Func.All.setTerm (h : F.All p) (t : Terminator β ρ) : (F.setTerm l t).All p := h.update (h l)

end Instructions

section Runs

/-- What the instructions do to the state, and what the conditions say of it. -/
structure Semantics (α β σ : Type) where
  inst : α → σ → σ
  test : β → σ → Bool

inductive Config (ρ σ : Type)
  | run (label index : Nat) (s : σ)
  | returned (s : σ) (value : Option ρ)
  | aborted (s : σ)

variable (S : Semantics α β σ) (G : Func α β ρ)

def Terminator.goto : Terminator β ρ → σ → Config ρ σ
  | .br k, s => .run k 0 s
  | .condBr q t e, s => .run (if S.test q s then t else e) 0 s
  | .ret v, s => .returned s v
  | .unreachable, s => .aborted s

def step : Config ρ σ → Option (Config ρ σ)
  | .run l i s =>
    match (G.block l).insts[i]? with
    | some a => some (.run l (i + 1) (S.inst a s))
    | none => (G.block l).term.map (·.goto S s)
  | _ => none

inductive Steps : Nat → Config ρ σ → Config ρ σ → Prop
  | refl (c) : Steps 0 c c
  | head {n c d e} : step S G c = some d → Steps n d e → Steps (n + 1) c e

variable {S G} {m n : Nat} {c d e : Config ρ σ}

theorem Steps.trans (h : Steps S G m c d) (h' : Steps S G n d e) : Steps S G (m + n) c e := by
  induction h with
  | refl c => rwa [Nat.zero_add]
  | head hs _ ih =>
    rw [Nat.add_right_comm]
    exact .head hs (ih h')

theorem Steps.single (h : step S G c = some d) : Steps S G 1 c d := .head h (.refl d)

theorem Steps.rest (h : Steps S G n c d) (h' : Steps S G m c e) (he : step S G e = none) :
    ∃ k, m = n + k ∧ Steps S G k d e := by
  induction h generalizing m with
  | refl c => exact ⟨m, (Nat.zero_add m).symm, h'⟩
  | head hs _ ih =>
    cases h' with
    | refl =>
      rw [hs] at he
      contradiction
    | head hs' h' =>
      rw [hs] at hs'
      cases hs'
      obtain ⟨k, rfl, hk⟩ := ih h'
      exact ⟨k, by rw [Nat.add_right_comm], hk⟩

end Runs

section Growth

variable {S : Semantics α β σ} {F F' F'' G : Func α β ρ} {O P Q : Set Nat} {l k : Nat} {a : α}
  {t : Terminator β ρ} {s : σ}

/-- Blocks only grow, and those that are closed stay as they are. -/
structure Extends (F G : Func α β ρ) : Prop where
  size : F.size ≤ G.size
  insts : ∀ k < F.size, (F.block k).insts <+: (G.block k).insts
  closed : ∀ k < F.size, (F.block k).term ≠ none → G.block k = F.block k

theorem Extends.refl (F : Func α β ρ) : Extends F F where
  size := le_rfl
  insts _ _ := prefix_rfl
  closed _ _ _ := rfl

theorem Extends.trans (h : Extends F F') (h' : Extends F' F'') : Extends F F'' where
  size := h.size.trans h'.size
  insts k hk := (h.insts k hk).trans (h'.insts k (hk.trans_le h.size))
  closed k hk ht := by
    have he := h.closed k hk ht
    rw [h'.closed k (hk.trans_le h.size) (by rwa [he]), he]

def Opens (F : Func α β ρ) (O : Set Nat) : Prop := ∀ k, k ∈ O ↔ k < F.size ∧ (F.block k).term = none

theorem Opens.lt (h : Opens F O) (hk : k ∈ O) : k < F.size := ((h k).mp hk).1

theorem Opens.terminated (h : Opens F O) : F.Terminated ↔ O = ∅ := by
  rw [eq_empty_iff_forall_notMem]
  constructor
  · intro ht k hk
    obtain ⟨hlt, hn⟩ := (h k).mp hk
    exact ht k hlt hn
  · intro hO k hk hn
    exact hO k ((h k).mpr ⟨hk, hn⟩)

/-- The construction comes from `F` to `F'` and leaves the blocks of `O` alone. -/
structure Keeps (O : Set Nat) (F F' : Func α β ρ) : Prop where
  extend : Extends F F'
  kept : ∀ k ∈ O, F'.block k = F.block k

theorem Keeps.refl (O : Set Nat) (F : Func α β ρ) : Keeps O F F := ⟨.refl F, fun _ _ => rfl⟩

theorem Keeps.trans (h : Keeps O F F') (h' : Keeps O F' F'') : Keeps O F F'' where
  extend := h.extend.trans h'.extend
  kept k hk := by rw [h'.kept k hk, h.kept k hk]

theorem Keeps.mono (h : Keeps P F F') (hO : O ⊆ P) : Keeps O F F' := ⟨h.extend, fun k hk => h.kept k (hO hk)⟩

/-- The construction goes on in the open block `l`, and `O` are the other open
blocks. -/
structure Cursor (F : Func α β ρ) (l : Nat) (O : Set Nat) : Prop where
  opens : Opens F (insert l O)
  notMem : l ∉ O

theorem Cursor.lt (h : Cursor F l O) : l < F.size := h.opens.lt (mem_insert l O)

theorem Cursor.lt_of_mem (h : Cursor F l O) (hk : k ∈ O) : k < F.size := h.opens.lt (mem_insert_of_mem l hk)

theorem Cursor.newBlock (h : Cursor F l O) : Cursor F.newBlock l (insert F.size O) where
  opens k := by
    obtain rfl | hne := eq_or_ne k F.size
    · simp [Func.newBlock]
    · have hlt : k < F.size ↔ k < F.size + 1 := by omega
      rw [insert_comm, mem_insert_iff, or_iff_right hne, h.opens k, hlt]
      simp only [Func.newBlock, update_of_ne hne]
  notMem := by
    rw [mem_insert_iff, not_or]
    exact ⟨h.lt.ne, h.notMem⟩

theorem Cursor.keeps_newBlock (h : Cursor F l O) : Keeps (insert l O) F F.newBlock where
  extend := {
    size := Nat.le_succ _
    insts := fun k hk => by simp [Func.newBlock, update_of_ne hk.ne]
    closed := fun k hk _ => by simp [Func.newBlock, update_of_ne hk.ne] }
  kept _ hk := update_of_ne (h.opens.lt hk).ne _ _

theorem newBlocks_size (F : Func α β ρ) (n : Nat) : (F.newBlocks n).size = F.size + n := by
  induction n with
  | zero => rfl
  | succ n ih => exact congrArg (· + 1) ih

theorem Cursor.newBlocks (h : Cursor F l O) (n : Nat) : Cursor (F.newBlocks n) l (O ∪ Set.Ico F.size (F.size + n)) := by
  induction n with
  | zero => simpa [Func.newBlocks] using h
  | succ n ih =>
    have hset : O ∪ Set.Ico F.size (F.size + (n + 1)) =
        insert (F.newBlocks n).size (O ∪ Set.Ico F.size (F.size + n)) := by
      ext k
      rw [newBlocks_size]
      by_cases hk : k ∈ O <;> simp [hk]
      omega
    rw [hset]
    exact ih.newBlock

theorem Cursor.keeps_newBlocks (h : Cursor F l O) (n : Nat) : Keeps (insert l O) F (F.newBlocks n) := by
  induction n with
  | zero => exact .refl _ F
  | succ n ih =>
    exact ih.trans ((h.newBlocks n).keeps_newBlock.mono (insert_subset_insert subset_union_left))

theorem extends_update {b : Block α β ρ} (h : l ∈ O) (hO : Opens F O) (hb : (F.block l).insts <+: b.insts) :
    Extends F { F with block := update F.block l b } where
  size := le_rfl
  insts k _ := by
    obtain rfl | hne := eq_or_ne k l
    · simpa using hb
    · simp [update_of_ne hne]
  closed k _ ht := by
    have hne : k ≠ l := by
      rintro rfl
      exact ht ((hO k).mp h).2
    exact update_of_ne hne _ _

theorem Cursor.addInst (h : Cursor F l O) (a : α) : Cursor (F.addInst l a) l O where
  opens k := by
    rw [h.opens k]
    obtain rfl | hne := eq_or_ne k l
    · simp [Func.addInst]
    · simp [Func.addInst, update_of_ne hne]
  notMem := h.notMem

theorem Cursor.keeps_addInst (h : Cursor F l O) (a : α) : Keeps O F (F.addInst l a) where
  extend := extends_update (mem_insert l O) h.opens (prefix_append _ _)
  kept _ hk := update_of_ne (ne_of_mem_of_not_mem hk h.notMem) _ _

theorem Cursor.addInsts (h : Cursor F l O) (as : List α) :
    Cursor (F.addInsts l as) l O ∧ Keeps O F (F.addInsts l as) := by
  induction as generalizing F with
  | nil => exact ⟨h, .refl O F⟩
  | cons a as ih =>
    obtain ⟨hc, hk⟩ := ih (h.addInst a)
    exact ⟨hc, (h.keeps_addInst a).trans hk⟩

theorem Cursor.setTerm (h : Cursor F l O) (t : Terminator β ρ) : Opens (F.setTerm l t) O := by
  intro k
  have hk := h.opens k
  obtain rfl | hne := eq_or_ne k l
  · simp [Func.setTerm, h.notMem]
  · rw [mem_insert_iff, or_iff_right hne] at hk
    simp [hk, Func.setTerm, update_of_ne hne]

theorem Cursor.keeps_setTerm (h : Cursor F l O) (t : Terminator β ρ) : Keeps O F (F.setTerm l t) where
  extend := extends_update (mem_insert l O) h.opens prefix_rfl
  kept _ hk := update_of_ne (ne_of_mem_of_not_mem hk h.notMem) _ _

def Func.here (F : Func α β ρ) (l : Nat) (s : σ) : Config ρ σ := .run l (F.block l).insts.length s

theorem here_of_eq (h : F'.block l = F.block l) : F'.here l s = F.here l s := by rw [here, here, h]

theorem Keeps.here (h : Keeps O F F') (hk : k ∈ O) : F'.here k s = F.here k s := here_of_eq (h.kept k hk)

theorem here_newBlock : F.newBlock.here F.size s = .run F.size 0 s := by simp [here, newBlock]

theorem here_newBlock_of_lt (h : l < F.size) : F.newBlock.here l s = F.here l s :=
  here_of_eq (update_of_ne h.ne _ _)

theorem here_newBlocks {n i : Nat} (h : i < n) : (F.newBlocks n).here (F.size + i) s = .run (F.size + i) 0 s := by
  induction n with
  | zero => omega
  | succ n ih =>
    obtain rfl | hne := eq_or_ne i n
    · have hi := here_newBlock (F := F.newBlocks i) (s := s)
      rwa [newBlocks_size] at hi
    · have hlt : F.size + i < (F.newBlocks n).size := by
        rw [newBlocks_size]
        omega
      exact (here_newBlock_of_lt hlt).trans (ih (by omega))

theorem here_setTerm : (F.setTerm l t).here k s = F.here k s := by
  obtain rfl | hne := eq_or_ne k l
  · simp [here, setTerm]
  · simp [here, setTerm, update_of_ne hne]

theorem Extends.step_inst (h : Extends (F.addInst l a) G) (hl : l < F.size) :
    step S G (F.here l s) = some ((F.addInst l a).here l (S.inst a s)) := by
  obtain ⟨rest, hr⟩ := h.insts l hl
  have ha : (G.block l).insts[(F.block l).insts.length]? = some a := by
    rw [← hr]
    simp [addInst]
  simp [here, step, ha, addInst]

theorem Extends.step_term (h : Extends (F.setTerm l t) G) (hl : l < F.size) :
    step S G (F.here l s) = some (t.goto S s) := by
  have hb : G.block l = { F.block l with term := some t } := by
    rw [h.closed l hl (by simp [setTerm])]
    simp [setTerm]
  simp [here, step, hb]

theorem Cursor.step_newBlocks {n : Nat} (h : Cursor F l O) (hG : Extends ((F.newBlocks n).setTerm l t) G) :
    step S G (F.here l s) = some (t.goto S s) := by
  rw [← (h.keeps_newBlocks n).here (mem_insert l O)]
  exact hG.step_term (h.newBlocks n).lt

end Growth

end Picasso.Lib.ControlFlow
