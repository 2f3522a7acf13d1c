import Picasso.Codegen.Blocks

namespace Picasso.Codegen.Blocks

open Lib.ControlFlow Option Set

variable {α β ρ σ : Type} {F F' : Func α β ρ} {O Q : Set Nat} {l l' k : Nat} {ends : List Nat}
  {result : ρ → Option ρ}

section Shape

/-- The statements end, in their own list, with a `return` or a `break`. -/
def exits : Body α β ρ → Bool
  | .nil => false
  | .simple _ rest => exits rest
  | .atomic body rest => exits body || exits rest
  | .ifElse _ _ _ _ rest => exits rest
  | .foreach _ _ _ _ _ rest => exits rest
  | .whileLoop _ _ _ rest => exits rest
  | .breakLoop _ => true
  | .ret _ _ _ => true

mutual

/-- No statement follows an atomic block that ends with a `return` or a
`break`. -/
def Tidy : Body α β ρ → Prop
  | .nil => True
  | .simple _ rest => Tidy rest
  | .atomic body rest => Tidy body ∧ Tidy rest ∧ (exits body = true → rest = .nil)
  | .ifElse _ _ consequent alternate rest => Tidy consequent ∧ TidyAlternate alternate ∧ Tidy rest
  | .foreach _ _ _ body _ rest => Tidy body ∧ Tidy rest
  | .whileLoop _ _ body rest => Tidy body ∧ Tidy rest
  | .breakLoop _ => True
  | .ret _ _ _ => True

def TidyAlternate : Alternate α β ρ → Prop
  | .none => True
  | .block body => Tidy body
  | .elseIf _ _ consequent alternate => Tidy consequent ∧ TidyAlternate alternate

end

end Shape

section Growth

theorem cursor_setTerm (h : Cursor F l (insert k O)) (hk : k ∉ O) (t : Terminator β ρ) : Cursor (F.setTerm l t) k O :=
  ⟨h.setTerm t, hk⟩

theorem cursor_branch {P : Set Nat} (h : Cursor F l O) (n : Nat) (t : Terminator β ρ)
    (hP : ∀ k, k = F.size ∨ k ∈ P ↔ k ∈ O ∨ F.size ≤ k ∧ k < F.size + n) (hn : F.size ∉ P) :
    Cursor ((F.newBlocks n).setTerm l t) F.size P ∧ Keeps O F ((F.newBlocks n).setTerm l t) := by
  have hset : O ∪ Set.Ico F.size (F.size + n) = insert F.size P := by
    ext k
    exact (hP k).symm
  have hc := h.newBlocks n
  rw [hset] at hc
  have hk := hc.keeps_setTerm t
  rw [← hset] at hk
  exact ⟨cursor_setTerm hc hn t,
    ((h.keeps_newBlocks n).mono (subset_insert l O)).trans (hk.mono subset_union_left)⟩

theorem size_add_notMem (h : Cursor F l O) (i : Nat) : F.size + i ∉ O := fun hm => by
  have := h.lt_of_mem hm
  omega

theorem size_notMem (h : Cursor F l O) : F.size ∉ O := size_add_notMem h 0

theorem cursor_fork (h : Cursor F l O) (t : Terminator β ρ) :
    Cursor ((F.newBlocks 2).setTerm l t) F.size (insert (F.size + 1) O) ∧ Keeps O F ((F.newBlocks 2).setTerm l t) := by
  refine cursor_branch h 2 t ?_ (by simp [size_notMem h])
  intro k
  by_cases hk : k ∈ O <;> simp [hk]
  omega

theorem emitCode_cursor (c : Code α β) (h : Cursor F l O) :
    Cursor (emitCode c l F).2 (emitCode c l F).1 O ∧ Keeps O F (emitCode c l F).2 := by
  induction c generalizing F l O with
  | done => exact ⟨h, .refl O F⟩
  | inst a c ih =>
    obtain ⟨hc, hk⟩ := ih (h.addInst a)
    exact ⟨hc, (h.keeps_addInst a).trans hk⟩
  | check overflow raise c ih =>
    obtain ⟨hf, hk⟩ := cursor_fork h (.condBr overflow F.size (F.size + 1))
    have hs := cursor_setTerm (hf.addInst raise) (size_add_notMem h 1) .unreachable
    have hks := (hf.keeps_addInst raise).trans ((hf.addInst raise).keeps_setTerm .unreachable)
    obtain ⟨hc, hkc⟩ := ih hs
    exact ⟨hc, (hk.trans (hks.mono (subset_insert _ _))).trans hkc⟩
  | logical left onTrue rhs c ihr ih =>
    obtain ⟨hf, hk⟩ := cursor_fork h
      (if onTrue then .condBr left F.size (F.size + 1) else .condBr left (F.size + 1) F.size)
    obtain ⟨hr, hkr⟩ := ihr hf
    have hs := cursor_setTerm hr (size_add_notMem h 1) (.br (F.size + 1))
    have hks := hkr.trans (hr.keeps_setTerm (.br (F.size + 1)))
    obtain ⟨hc, hkc⟩ := ih hs
    exact ⟨hc, (hk.trans (hks.mono (subset_insert _ _))).trans hkc⟩

/-- What the emission of a block's statements leaves behind: the current block
is closed if they exit, and open otherwise. -/
def Leaves (exited : Bool) (O : Set Nat) (F : Func α β ρ) (l' : Nat) (F' : Func α β ρ) : Prop :=
  Keeps O F F' ∧ if exited then Opens F' O ∧ (F'.block l').term ≠ none else Cursor F' l' O

theorem Leaves.closeWith {exited : Bool} (h : Leaves exited O F l' F') (k : Nat) :
    Opens (closeWith F' l' k) O ∧ Keeps O F (closeWith F' l' k) := by
  obtain ⟨hk, h⟩ := h
  cases exited with
  | true =>
    obtain ⟨ho, ht⟩ := h
    rw [Blocks.closeWith, if_neg (by simpa using ht)]
    exact ⟨ho, hk⟩
  | false =>
    have hn : (F'.block l').term = none := ((Cursor.opens h l').mp (mem_insert l' O)).2
    rw [Blocks.closeWith, if_pos (by simp [hn])]
    exact ⟨Cursor.setTerm h _, hk.trans (Cursor.keeps_setTerm h _)⟩

theorem Leaves.trans {exited : Bool} {F'' : Func α β ρ} (h : Keeps O F F') (h' : Leaves exited O F' l' F'') :
    Leaves exited O F l' F'' := ⟨h.trans h'.1, h'.2⟩

end Growth

section Contents

variable {p : α → Prop}

def Code.All (p : α → Prop) : Code α β → Prop
  | .done => True
  | .inst a rest => p a ∧ rest.All p
  | .check _ raise rest => p raise ∧ rest.All p
  | .logical _ _ rhs rest => rhs.All p ∧ rest.All p

mutual

def Body.All (p : α → Prop) : Body α β ρ → Prop
  | .nil => True
  | .simple c rest => c.All p ∧ rest.All p
  | .atomic body rest => body.All p ∧ rest.All p
  | .ifElse c _ consequent alternate rest => c.All p ∧ consequent.All p ∧ alternate.All p ∧ rest.All p
  | .foreach bounds loads _ body increment rest =>
    bounds.All p ∧ (∀ a ∈ loads, p a) ∧ body.All p ∧ (∀ a ∈ increment, p a) ∧ rest.All p
  | .whileLoop c _ body rest => c.All p ∧ body.All p ∧ rest.All p
  | .breakLoop _ => True
  | .ret c _ _ => c.All p

def Alternate.All (p : α → Prop) : Alternate α β ρ → Prop
  | .none => True
  | .block body => body.All p
  | .elseIf c _ consequent alternate => c.All p ∧ consequent.All p ∧ alternate.All p

end

theorem emitCode_all (c : Code α β) (hc : c.All p) (hF : F.All p) : (emitCode c l F).2.All p := by
  induction c generalizing F l with
  | done => exact hF
  | inst a c ih => exact ih hc.2 (hF.addInst hc.1)
  | check overflow raise c ih => exact ih hc.2 ((((hF.newBlocks 2).setTerm _).addInst hc.1).setTerm _)
  | logical left onTrue rhs c ihr ih => exact ih hc.2 ((ihr hc.1 ((hF.newBlocks 2).setTerm _)).setTerm _)

theorem closeWith_all (hF : F.All p) : (closeWith F l k).All p := by
  unfold closeWith
  split_ifs
  · exact hF.setTerm _
  · exact hF

theorem processIfElseBlock_all {hasAlternate : Bool} {c : Code α β} {cond : β}
    {consequent : Nat → Func α β ρ → Option (Nat × Func α β ρ)}
    {alternate : Nat → Nat → Func α β ρ → Option (Func α β ρ)} {ifBlock endBlock : Nat}
    (hcons : ∀ {l F l' F'}, F.All p → consequent l F = some (l', F') → F'.All p)
    (halt : ∀ {e n F F'}, F.All p → alternate e n F = some F' → F'.All p) (hc : c.All p) (hF : F.All p)
    (h : processIfElseBlock hasAlternate c cond consequent alternate l ifBlock endBlock F = some F') : F'.All p := by
  obtain ⟨⟨b, F1⟩, h1, h2⟩ := bind_eq_some_iff.mp h
  have hbranch : (if hasAlternate then
      (emitCode c l F).2.newBlock.setTerm (emitCode c l F).1 (.condBr cond ifBlock (emitCode c l F).2.size)
      else (emitCode c l F).2.setTerm (emitCode c l F).1 (.condBr cond ifBlock endBlock)).All p := by
    have he := emitCode_all (l := l) c hc hF
    split_ifs
    · exact he.newBlock.setTerm _
    · exact he.setTerm _
  exact halt (closeWith_all (hcons hbranch h1)) h2

mutual

theorem processBlock_all : (b : Body α β ρ) → b.All p → ∀ {ends l l'} {F F' : Func α β ρ}, F.All p →
    processBlock result b ends l F = some (l', F') → F'.All p
  | .nil, _, ends, l, l', F, F', hF, h => by
    cases h
    exact hF
  | .simple c rest, hb, ends, l, l', F, F', hF, h => processBlock_all rest hb.2 (emitCode_all c hb.1 hF) h
  | .atomic body rest, hb, ends, l, l', F, F', hF, h => by
    obtain ⟨⟨l1, F1⟩, h1, h2⟩ := bind_eq_some_iff.mp h
    exact processBlock_all rest hb.2 (processBlock_all body hb.1 hF h1) h2
  | .ifElse c cond consequent alternate rest, hb, ends, l, l', F, F', hF, h => by
    obtain ⟨F1, h1, h2⟩ := bind_eq_some_iff.mp h
    obtain ⟨hc, hcons, halt, hrest⟩ := hb
    have hF1 := processIfElseBlock_all (processBlock_all consequent hcons) (processAlternate_all alternate halt) hc
      (hF.newBlocks 2) h1
    exact processBlock_all rest hrest hF1 h2
  | .foreach bounds loads cond body increment rest, hb, ends, l, l', F, F', hF, h => by
    obtain ⟨⟨l1, F1⟩, h1, h2⟩ := bind_eq_some_iff.mp h
    obtain ⟨⟨b, F2⟩, h3, h4⟩ := bind_eq_some_iff.mp h1
    obtain ⟨hbounds, hloads, hbody, hinc, hrest⟩ := hb
    have hstart := (emitCode_all (l := l) bounds hbounds hF).newBlocks 4
    have hF2 := processBlock_all body hbody (((hstart.setTerm _).addInsts hloads).setTerm _) h3
    cases h4
    exact processBlock_all rest hrest (((closeWith_all hF2).addInsts hinc).setTerm _) h2
  | .whileLoop c cond body rest, hb, ends, l, l', F, F', hF, h => by
    obtain ⟨⟨l1, F1⟩, h1, h2⟩ := bind_eq_some_iff.mp h
    obtain ⟨⟨b, F2⟩, h3, h4⟩ := bind_eq_some_iff.mp h1
    obtain ⟨hc, hbody, hrest⟩ := hb
    have hF2 := processBlock_all body hbody ((emitCode_all c hc ((hF.newBlocks 3).setTerm _)).setTerm _) h3
    cases h4
    exact processBlock_all rest hrest (closeWith_all hF2) h2
  | .breakLoop rest, _, ends, l, l', F, F', hF, h => by
    obtain ⟨e, -, h1⟩ := bind_eq_some_iff.mp h
    cases h1
    exact hF.setTerm _
  | .ret c value rest, hb, ends, l, l', F, F', hF, h => by
    cases h
    exact (emitCode_all c hb hF).setTerm _

theorem processAlternate_all : (a : Alternate α β ρ) → a.All p → ∀ {ends e n} {F F' : Func α β ρ}, F.All p →
    processAlternate result a ends e n F = some F' → F'.All p
  | .none, _, ends, e, n, F, F', hF, h => by
    cases h
    exact hF
  | .block body, ha, ends, e, n, F, F', hF, h => by
    obtain ⟨⟨l1, F1⟩, h1, h2⟩ := bind_eq_some_iff.mp h
    cases h2
    exact closeWith_all (processBlock_all body ha hF h1)
  | .elseIf c cond consequent alternate, ⟨hc, hcons, halt⟩, ends, e, n, F, F', hF, h =>
    processIfElseBlock_all (processBlock_all consequent hcons) (processAlternate_all alternate halt) hc hF.newBlock h

end

theorem defineFunc_all {kind : Kind ρ} {params : Code α β} {body : Body α β ρ} (hp : params.All p) (hb : body.All p)
    (h : defineFunc kind params body = some F) : F.All p := by
  obtain ⟨⟨l, F1⟩, h1, h2⟩ := bind_eq_some_iff.mp h
  have hF1 := (processBlock_all body hb (emitCode_all params hp (Func.all_empty.newBlocks 2)) h1).setTerm (.br 1) (l := 0)
  cases kind with
  | void | constructor v =>
    cases h2
    exact hF1.setTerm _
  | typed =>
    cases h2
    exact hF1

end Contents

end Picasso.Codegen.Blocks
