import Picasso.Lib.Numbering
import Mathlib.Data.List.Basic
import Mathlib.Logic.Function.Basic
import Mathlib.Logic.Relation
import Mathlib.Order.Nat

namespace Picasso.Codegen.Logical

open Lib.Numbering List

variable {ι κ ω σ : Type}

section Blocks

inductive Var (ω : Type)
  | operand (v : ω)
  | slot (label : Nat)

inductive Incoming
  | const (b : Bool)
  | bool (label : Nat)

/-- Instructions. The results of `toBool` and of `phi` are known by the block in
which they are computed. -/
inductive Inst (ι ω : Type)
  | exec (i : ι)
  | toBool (label : Nat) (v : Var ω)
  | phi (label : Nat) (incoming : List (Incoming × Nat))
  | store (label : Nat)

inductive Cond (κ : Type)
  | check (q : κ)
  | bool (label : Nat)

inductive Term (κ : Type)
  | br (target : Nat)
  | condBr (cond : Cond κ) (onTrue onFalse : Nat)
  | unreachable

@[simp] def Term.targets : Term κ → List Nat
  | .br k => [k]
  | .condBr _ t e => [t, e]
  | .unreachable => []

structure Block (ι κ ω : Type) where
  insts : List (Inst ι ω)
  term : Term κ

structure Emit (ι κ ω : Type) where
  next : Nat
  closed : List (Nat × Block ι κ ω)
  label : Nat
  insts : List (Inst ι ω)

@[simp] def Emit.add (S : Emit ι κ ω) (is : List (Inst ι ω)) : Emit ι κ ω := { S with insts := S.insts ++ is }

@[simp] def Emit.close (S : Emit ι κ ω) (t : Term κ) (n l : Nat) : Emit ι κ ω :=
  ⟨S.next + n, S.closed ++ [(S.label, ⟨S.insts, t⟩)], l, []⟩

end Blocks

section Expressions

/-- The code of an operand: instructions, and checks that end the program if
they fail. -/
inductive Code (ι κ : Type)
  | exec (i : ι)
  | check (q : κ)

inductive Expr (ι κ ω : Type)
  | operand (code : List (Code ι κ)) (v : ω)
  | and (left right : Expr ι κ ω)
  | or (left right : Expr ι κ ω)

def emitCode (S : Emit ι κ ω) : Code ι κ → Emit ι κ ω
  | .exec i => S.add [.exec i]
  | .check q =>
    (S.close (.condBr (.check q) S.next (S.next + 1)) 2 (S.next + 1)).close .unreachable 0 S.next

def Emit.split (S : Emit ι κ ω) (decides : Bool) : Emit ι κ ω :=
  S.close (if decides then .condBr (.bool S.label) (S.next + 1) S.next else .condBr (.bool S.label) S.next (S.next + 1)) 2 S.next

def Emit.join (S : Emit ι κ ω) (endBlock leftBlock : Nat) (c : Incoming) : Emit ι κ ω :=
  (S.close (.br endBlock) 0 endBlock).add [.phi endBlock [(c, leftBlock), (.bool S.label, S.label)], .store endBlock]

/-- `decides` is the value with which the left side decides. -/
def logical (decides : Bool) (left right : Emit ι κ ω → Var ω × Emit ι κ ω) (S : Emit ι κ ω) : Var ω × Emit ι κ ω :=
  let (lv, S) := left S
  let S := S.add [.toBool S.label lv]
  let leftBlock := S.label
  let endBlock := S.next + 1
  let (rv, S) := right (S.split decides)
  let S := S.add [.toBool S.label rv]
  (.slot endBlock, S.join endBlock leftBlock (.const decides))

def processExpression : Expr ι κ ω → Emit ι κ ω → Var ω × Emit ι κ ω
  | .operand code v, S => (.operand v, code.foldl emitCode S)
  | .and left right, S => logical false (processExpression left) (processExpression right) S
  | .or left right, S => logical true (processExpression left) (processExpression right) S

end Expressions

section Semantics

structure Machine (ι κ ω σ : Type) where
  exec : ι → σ → σ
  check : κ → σ → Bool
  truth : ω → σ → Bool

variable (M : Machine ι κ ω σ)

def evalCode (m : σ) : List (Code ι κ) → Except σ σ
  | [] => .ok m
  | .exec i :: code => evalCode (M.exec i m) code
  | .check q :: code => if M.check q m then evalCode m code else .error m

/-- The value of an expression, and the memory behind it; or the memory in which
a check has failed. -/
def eval : Expr ι κ ω → σ → Except σ (Bool × σ)
  | .operand code v, m => do
    let m ← evalCode M m code
    .ok (M.truth v m, m)
  | .and left right, m => do
    let (b, m) ← eval left m
    if b then eval right m else .ok (false, m)
  | .or left right, m => do
    let (b, m) ← eval left m
    if b then .ok (true, m) else eval right m

structure State (σ : Type) where
  mem : σ
  bool : Nat → Bool
  phi : Nat → Bool
  slot : Nat → Bool

def Var.load (s : State σ) : Var ω → Bool
  | .operand v => M.truth v s.mem
  | .slot l => s.slot l

def Incoming.value (s : State σ) : Incoming → Bool
  | .const b => b
  | .bool l => s.bool l

/-- `prev` is the block from which the present one was entered. -/
def Inst.run (prev : Nat) (s : State σ) : Inst ι ω → State σ
  | .exec i => { s with mem := M.exec i s.mem }
  | .toBool l v => { s with bool := Function.update s.bool l (v.load M s) }
  | .phi l incoming =>
    { s with phi := Function.update s.phi l (((incoming.find? (·.2 = prev)).map (·.1.value s)).getD false) }
  | .store l => { s with slot := Function.update s.slot l (s.phi l) }

def Cond.test (s : State σ) : Cond κ → Bool
  | .check q => M.check q s.mem
  | .bool l => s.bool l

inductive Config (σ : Type)
  | run (prev label index : Nat) (s : State σ)
  | aborted (m : σ)

def Term.goto (label : Nat) (s : State σ) : Term κ → Config σ
  | .br k => .run label k 0 s
  | .condBr c t e => .run label (if c.test M s then t else e) 0 s
  | .unreachable => .aborted s.mem

variable (G : Nat → Option (Block ι κ ω))

inductive Step : Config σ → Config σ → Prop
  | inst {prev l i s b a} : G l = some b → b.insts[i]? = some a → Step (.run prev l i s) (.run prev l (i + 1) (a.run M prev s))
  | term {prev l s b} : G l = some b → Step (.run prev l b.insts.length s) (b.term.goto M l s)

structure Contains (S : Emit ι κ ω) : Prop where
  closed : ∀ p ∈ S.closed, G p.1 = some p.2
  here : ∃ b, G S.label = some b ∧ S.insts <+: b.insts

end Semantics

section Growth

variable {S S' S'' : Emit ι κ ω} {G : Nat → Option (Block ι κ ω)}

/-- The construction has come from `S` to `S'`. What it has closed on the way
branches only to blocks that it has made. -/
structure Emits (S S' : Emit ι κ ω) : Prop where
  next : S.next ≤ S'.next
  closed : ∀ p ∈ S.closed, p ∈ S'.closed
  here : (S'.label = S.label ∧ S.insts <+: S'.insts) ∨ ∃ b, (S.label, b) ∈ S'.closed ∧ S.insts <+: b.insts
  label : S'.label = S.label ∨ S.next ≤ S'.label
  new : ∀ p ∈ S'.closed, p ∈ S.closed ∨ (p.1 = S.label ∨ S.next ≤ p.1) ∧ ∀ k ∈ p.2.term.targets, S.next ≤ k

theorem Emits.refl (S : Emit ι κ ω) : Emits S S :=
  ⟨le_rfl, fun _ h => h, .inl ⟨rfl, prefix_rfl⟩, .inl rfl, fun _ h => .inl h⟩

theorem Emits.trans (h : Emits S S') (h' : Emits S' S'') : Emits S S'' where
  next := h.next.trans h'.next
  closed p hp := h'.closed p (h.closed p hp)
  here := by
    rcases h.here with ⟨hl, hi⟩ | ⟨b, hb, hi⟩
    · rcases h'.here with ⟨hl', hi'⟩ | ⟨b, hb, hi'⟩
      · exact .inl ⟨hl'.trans hl, hi.trans hi'⟩
      · exact .inr ⟨b, hl ▸ hb, hi.trans hi'⟩
    · exact .inr ⟨b, h'.closed _ hb, hi⟩
  label := by
    have hn := h.next
    rcases h.label with hl | hl <;> rcases h'.label with hl' | hl' <;> omega
  new p hp := by
    have hn := h.next
    rcases h'.new p hp with hp | ⟨hp, ht⟩
    · exact h.new p hp
    · refine .inr ⟨?_, fun k hk => hn.trans (ht k hk)⟩
      rcases h.label with hl | hl <;> omega

theorem Emits.add (S : Emit ι κ ω) (is : List (Inst ι ω)) : Emits S (S.add is) :=
  { Emits.refl S with here := .inl ⟨rfl, prefix_append _ _⟩ }

variable {t : Term κ} {n l j k : Nat} {a : Inst ι ω} {decides : Bool}

theorem Emits.close (h : Emits S S') (hl : S.next ≤ l) (ht : ∀ k ∈ t.targets, S.next ≤ k) :
    Emits S (S'.close t n l) where
  next := h.next.trans (Nat.le_add_right _ _)
  closed p hp := mem_append_left _ (h.closed p hp)
  here := by
    rcases h.here with ⟨hlabel, hi⟩ | ⟨b, hb, hi⟩
    · exact .inr ⟨⟨S'.insts, t⟩, by simp [hlabel], hi⟩
    · exact .inr ⟨b, mem_append_left _ hb, hi⟩
  label := .inr hl
  new p hp := by
    rcases mem_append.mp hp with hp | hp
    · exact h.new p hp
    · rw [mem_singleton.mp hp]
      exact .inr ⟨h.label, ht⟩

theorem Contains.mono (h : Emits S S') (hG : Contains G S') : Contains G S where
  closed p hp := hG.closed p (h.closed p hp)
  here := by
    rcases h.here with ⟨hl, hi⟩ | ⟨b, hb, hi⟩
    · obtain ⟨b, hb, hi'⟩ := hG.here
      exact ⟨b, hl ▸ hb, hi.trans hi'⟩
    · exact ⟨b, hG.closed _ hb, hi⟩

/-- The labels of the blocks are apart, and branches go to labels that have been
taken. -/
structure Emit.Wf (S : Emit ι κ ω) : Prop where
  label : S.label < S.next
  labels : ∀ p ∈ S.closed, p.1 < S.next ∧ p.1 ≠ S.label
  targets : ∀ p ∈ S.closed, ∀ k ∈ p.2.term.targets, k < S.next
  nodup : (S.closed.map Prod.fst).Nodup

def Emit.Edge (S : Emit ι κ ω) (j k : Nat) : Prop := ∃ b, (j, b) ∈ S.closed ∧ k ∈ b.term.targets

def Emit.HasInst (S : Emit ι κ ω) (k : Nat) (a : Inst ι ω) : Prop :=
  (∃ b, (k, b) ∈ S.closed ∧ a ∈ b.insts) ∨ k = S.label ∧ a ∈ S.insts

/-- Every phi has one entry for each block that branches to its block, and no
others. -/
def Emit.PhisExact (S : Emit ι κ ω) : Prop :=
  ∀ k l incoming, S.HasInst k (.phi l incoming) →
    (incoming.map Prod.snd).Nodup ∧ ∀ j, j ∈ incoming.map Prod.snd ↔ S.Edge j k

theorem Emits.edge_iff (h : Emits S S') (hk : k < S.next) : S'.Edge j k ↔ S.Edge j k := by
  constructor
  · rintro ⟨b, hb, ht⟩
    rcases h.new _ hb with hb | ⟨-, hnew⟩
    · exact ⟨b, hb, ht⟩
    · exact absurd (hnew k ht) (Nat.not_le.mpr hk)
  · rintro ⟨b, hb, ht⟩
    exact ⟨b, h.closed _ hb, ht⟩

theorem Emit.Wf.edge_lt (h : S.Wf) (he : S.Edge j k) : k < S.next := by
  obtain ⟨b, hb, ht⟩ := he
  exact h.targets _ hb k ht

theorem Emit.Wf.hasInst_lt (h : S.Wf) (ha : S.HasInst k a) : k < S.next := by
  rcases ha with ⟨b, hb, -⟩ | ⟨rfl, -⟩
  · exact (h.labels _ hb).1
  · exact h.label

theorem edge_close : (S.close t n l).Edge j k ↔ S.Edge j k ∨ j = S.label ∧ k ∈ t.targets := by
  constructor
  · rintro ⟨b, hb, ht⟩
    rcases mem_append.mp hb with hb | hb
    · exact .inl ⟨b, hb, ht⟩
    · obtain ⟨rfl, rfl⟩ := Prod.mk.inj (mem_singleton.mp hb)
      exact .inr ⟨rfl, ht⟩
  · rintro (⟨b, hb, ht⟩ | ⟨rfl, ht⟩)
    · exact ⟨b, mem_append_left _ hb, ht⟩
    · exact ⟨⟨S.insts, t⟩, by simp, ht⟩

theorem hasInst_close (h : (S.close t n l).HasInst k a) : S.HasInst k a := by
  rcases h with ⟨b, hb, ha⟩ | ⟨-, ha⟩
  · rcases mem_append.mp hb with hb | hb
    · exact .inl ⟨b, hb, ha⟩
    · obtain ⟨rfl, rfl⟩ := Prod.mk.inj (mem_singleton.mp hb)
      exact .inr ⟨rfl, ha⟩
  · cases ha

theorem Emit.Wf.close (h : S.Wf) (hl : l < S.next + n) (hlabel : l ≠ S.label) (hnew : ∀ p ∈ S.closed, p.1 ≠ l)
    (ht : ∀ k ∈ t.targets, k < S.next + n) : (S.close t n l).Wf where
  label := hl
  labels p hp := by
    rcases mem_append.mp hp with hp | hp
    · exact ⟨(h.labels p hp).1.trans_le (Nat.le_add_right _ _), hnew p hp⟩
    · rw [mem_singleton.mp hp]
      exact ⟨h.label.trans_le (Nat.le_add_right _ _), hlabel.symm⟩
  targets p hp := by
    rcases mem_append.mp hp with hp | hp
    · exact fun k hk => (h.targets p hp k hk).trans_le (Nat.le_add_right _ _)
    · rw [mem_singleton.mp hp]
      exact ht
  nodup := by
    rw [Emit.close, map_append]
    refine h.nodup.append (nodup_singleton _) fun x hx hx' => ?_
    obtain ⟨p, hp, rfl⟩ := mem_map.mp hx
    exact (h.labels p hp).2 (by simpa using hx')

structure Sound (S S' : Emit ι κ ω) : Prop extends Emits S S' where
  wf : S'.Wf
  phis : S.PhisExact → S'.PhisExact

theorem Sound.refl (h : S.Wf) : Sound S S := ⟨.refl S, h, id⟩

theorem Sound.trans (h : Sound S S') (h' : Sound S' S'') : Sound S S'' :=
  ⟨h.toEmits.trans h'.toEmits, h'.wf, fun hp => h'.phis (h.phis hp)⟩

theorem phisExact_of_hasInst (hS : S.Wf) (h : Emits S S')
    (hold : ∀ k l incoming, S'.HasInst k (.phi l incoming) → S.HasInst k (.phi l incoming)) (hp : S.PhisExact) :
    S'.PhisExact := by
  intro k l incoming hk
  obtain ⟨hnodup, hiff⟩ := hp k l incoming (hold k l incoming hk)
  exact ⟨hnodup, fun j => (hiff j).trans (h.edge_iff (hS.hasInst_lt (hold k l incoming hk))).symm⟩

theorem Sound.add (is : List (Inst ι ω)) (hS : S.Wf) (his : ∀ l incoming, .phi l incoming ∉ is) : Sound S (S.add is) := by
  refine ⟨.add S is, ⟨hS.label, hS.labels, hS.targets, hS.nodup⟩, phisExact_of_hasInst hS (.add S is) ?_⟩
  rintro k l incoming (hk | ⟨rfl, hk⟩)
  · exact .inl hk
  · exact .inr ⟨rfl, (mem_append.mp hk).resolve_right (his l incoming)⟩

theorem emitCode_sound (hS : S.Wf) (c : Code ι κ) : Sound S (emitCode S c) := by
  cases c with
  | exec i => exact .add _ hS (by simp)
  | check q =>
    have hlabel := hS.label
    have hclosed (p) (hp : p ∈ S.closed) := (hS.labels p hp).1
    have hemits : Emits S (emitCode S (.check q)) :=
      (Emits.close (.refl S) (by omega) (by simp)).close le_rfl (by simp)
    refine ⟨hemits, ?_, phisExact_of_hasInst hS hemits fun _ _ _ h => hasInst_close (hasInst_close h)⟩
    refine (hS.close (by omega) (by omega) (fun p hp => ?_) (by simp)).close ?_ ?_ (fun p hp => ?_)
      (by simp)
    · have := hclosed p hp
      omega
    · simp
    · simp
    · rcases mem_append.mp hp with hp | hp
      · have := hclosed p hp
        omega
      · rw [mem_singleton.mp hp]
        exact hlabel.ne

theorem emitCodes_sound (hS : S.Wf) (code : List (Code ι κ)) : Sound S (code.foldl emitCode S) := by
  induction code generalizing S with
  | nil => exact .refl hS
  | cons c code ih => exact (emitCode_sound hS c).trans (ih (emitCode_sound hS c).wf)

theorem mem_split_targets {c : Cond κ} :
    k ∈ (if decides then Term.condBr c (n + 1) n else .condBr c n (n + 1)).targets ↔ k = n ∨ k = n + 1 := by
  cases decides <;> simp [or_comm]

theorem split_sound (hS : S.Wf) (decides : Bool) : Sound S (S.split decides) := by
  have hemits : Emits S (S.split decides) := .close (.refl S) le_rfl fun k hk => by
    have := mem_split_targets.mp hk
    omega
  refine ⟨hemits, hS.close (by omega) hS.label.ne' (fun p hp => (hS.labels p hp).1.ne) fun k hk => ?_,
    phisExact_of_hasInst hS hemits fun _ _ _ => hasInst_close⟩
  have := mem_split_targets.mp hk
  omega

/-- The block behind the right side: its predecessors are the blocks in which
the two sides have ended. -/
theorem join_sound {c : Incoming} (hS : S.Wf) (h : Sound (S.split decides) S') :
    Sound S (S'.join (S.next + 1) S.label c) := by
  have hsplit := split_sound hS decides
  have hnext : S.next + 2 ≤ S'.next := h.next
  have hlabel : S'.label ≠ S.next + 1 := by
    have hl : S'.label = S.next ∨ S.next + 2 ≤ S'.label := h.label
    omega
  have hclosed (p) (hp : p ∈ S'.closed) : p.1 ≠ S.next + 1 := by
    have hlt := hS.label
    rcases h.new p hp with hp | ⟨hp, -⟩
    · have := (hsplit.wf.labels p hp).1
      rcases mem_append.mp hp with hp | hp
      · have := (hS.labels p hp).1
        omega
      · rw [mem_singleton.mp hp]
        dsimp only
        omega
    · have hp : p.1 = S.next ∨ S.next + 2 ≤ p.1 := hp
      omega
  have hwf : (S'.close (.br (S.next + 1)) 0 (S.next + 1)).Wf :=
    h.wf.close (by omega) hlabel.symm hclosed (by simp only [Term.targets, mem_singleton]; omega)
  refine ⟨((hsplit.trans h).toEmits.close (by omega) (by simp)).trans (.add _ _),
    ⟨hwf.label, hwf.labels, hwf.targets, hwf.nodup⟩, fun hphis => ?_⟩
  have hexact := h.phis (hsplit.phis hphis)
  have hedge (j k : Nat) : (S'.join (S.next + 1) S.label c).Edge j k ↔ S'.Edge j k ∨ j = S'.label ∧ k ∈ [S.next + 1] :=
    edge_close (n := 0) (l := S.next + 1)
  rintro k l incoming (hk | ⟨hend, hk⟩)
  · have hold := hasInst_close (n := 0) (l := S.next + 1) (.inl hk)
    have hne : k ≠ S.next + 1 := by
      rcases hold with ⟨b, hb, -⟩ | ⟨rfl, -⟩
      · exact hclosed _ hb
      · exact hlabel
    obtain ⟨hnodup, hiff⟩ := hexact k l incoming hold
    exact ⟨hnodup, fun j => by rw [hedge, hiff j]; simp [hne]⟩
  · change k = S.next + 1 at hend
    subst hend
    obtain ⟨rfl, rfl⟩ : l = S.next + 1 ∧ incoming = [(c, S.label), (.bool S'.label, S'.label)] := by
      simpa [Emit.join] using hk
    have hne : S.label ≠ S'.label :=
      (h.wf.labels (S.label, ⟨S.insts, _⟩) (h.closed _ (mem_append_right _ (mem_singleton_self _)))).2
    refine ⟨by simpa using hne, fun j => ?_⟩
    have hno : ¬ S.Edge j (S.next + 1) := fun he => by
      have := hS.edge_lt he
      omega
    rw [hedge, h.edge_iff (Nat.lt_succ_self (S.next + 1)), Emit.split, edge_close, mem_split_targets]
    simp [hno]

theorem logical_sound {left right : Emit ι κ ω → Var ω × Emit ι κ ω} (hleft : ∀ S, S.Wf → Sound S (left S).2)
    (hright : ∀ S, S.Wf → Sound S (right S).2) (hS : S.Wf) : Sound S (logical decides left right S).2 := by
  have hl := (hleft S hS).trans (.add [.toBool (left S).2.label (left S).1] (hleft S hS).wf (by simp))
  have hr := hright _ (split_sound hl.wf decides).wf
  exact hl.trans (join_sound hl.wf (hr.trans (.add _ hr.wf (by simp))))

theorem processExpression_sound (e : Expr ι κ ω) : ∀ S : Emit ι κ ω, S.Wf → Sound S (processExpression e S).2 := by
  induction e with
  | operand code v => exact fun S hS => emitCodes_sound hS code
  | and left right hleft hright | or left right hleft hright => exact fun S hS => logical_sound hleft hright hS

end Growth

section Simulation

variable {M : Machine ι κ ω σ} {G : Nat → Option (Block ι κ ω)} {S S' : Emit ι κ ω} {prev : Nat} {s : State σ}

def Leads (M : Machine ι κ ω σ) (G : Nat → Option (Block ι κ ω)) : Config σ → Config σ → Prop :=
  Relation.ReflTransGen (Step M G)

def Emit.here (S : Emit ι κ ω) (prev : Nat) (s : State σ) : Config σ := .run prev S.label S.insts.length s

theorem Contains.inst {a : Inst ι ω} (hG : Contains G (S.add [a])) :
    Leads M G (S.here prev s) ((S.add [a]).here prev (a.run M prev s)) := by
  obtain ⟨b, hb, rest, hr⟩ := hG.here
  refine .single ?_
  have ha : b.insts[S.insts.length]? = some a := by
    rw [← hr]
    simp
  have hstep : Step M G (.run prev S.label S.insts.length s) _ := .inst hb ha
  simpa [Emit.here] using hstep

theorem Contains.term {t : Term κ} {n l : Nat} (hG : ∀ p ∈ (S.close t n l).closed, G p.1 = some p.2) :
    Leads M G (S.here prev s) (t.goto M S.label s) :=
  .single (Step.term (b := ⟨S.insts, t⟩) (hG (S.label, ⟨S.insts, t⟩) (by simp)))

/-- From here the code goes to where the value is known, or to the failure of
the same check. -/
def Simulates (M : Machine ι κ ω σ) (G : Nat → Option (Block ι κ ω)) (prev : Nat) (s : State σ) (S S' : Emit ι κ ω)
    (v : Var ω) : Except σ (Bool × σ) → Prop
  | .ok (b, m) => ∃ prev' s', Leads M G (S.here prev s) (S'.here prev' s') ∧ s'.mem = m ∧ v.load M s' = b
  | .error m => Leads M G (S.here prev s) (.aborted m)

variable {v : Var ω} {endBlock leftBlock : Nat} {c : Incoming} {decides : Bool}

theorem Simulates.of_leads {prev' : Nat} {s' : State σ} {S1 : Emit ι κ ω} {r : Except σ (Bool × σ)}
    (h : Leads M G (S.here prev s) (S1.here prev' s')) (h' : Simulates M G prev' s' S1 S' v r) :
    Simulates M G prev s S S' v r := by
  cases r with
  | ok r =>
    obtain ⟨p, s'', hleads, hs⟩ := h'
    exact ⟨p, s'', h.trans hleads, hs⟩
  | error m => exact h.trans h'

theorem emitCodes_simulates (code : List (Code ι κ)) (v : ω) (hS : S.Wf) (hG : Contains G (code.foldl emitCode S)) :
    Simulates M G prev s S (code.foldl emitCode S) (.operand v) (eval M (.operand code v) s.mem) := by
  induction code generalizing S prev s with
  | nil => exact ⟨prev, s, .refl, rfl, rfl⟩
  | cons c code ih =>
    have hsound := emitCode_sound hS c
    have hnext := hG.mono (emitCodes_sound hsound.wf code).toEmits
    cases c with
    | exec i => exact .of_leads hnext.inst (ih hsound.wf hG)
    | check q =>
      have hterm : Leads M G (S.here prev s) _ :=
        Contains.term (n := 2) (l := S.next + 1) fun p hp => hnext.closed p (mem_append_left _ hp)
      rw [eval, evalCode]
      cases hq : M.check q s.mem with
      | true =>
        simp only [Term.goto, Cond.test, hq, if_true] at hterm
        have hpass : Leads M G (S.here prev s) ((emitCode S (.check q)).here S.label s) := hterm
        exact .of_leads hpass (ih hsound.wf hG)
      | false =>
        simp only [Term.goto, Cond.test, hq, Bool.false_eq_true, if_false] at hterm
        exact hterm.trans (.single (Step.term (b := ⟨[], .unreachable⟩)
          (hnext.closed (S.next + 1, ⟨[], .unreachable⟩) (by simp [emitCode]))))

theorem join_leads (prev : Nat) (s : State σ) (entry : Incoming × Nat) (hG : Contains G (S.join endBlock leftBlock c))
    (he : [(c, leftBlock), (.bool S.label, S.label)].find? (·.2 = prev) = some entry) :
    ∃ s', Leads M G (.run prev endBlock 0 s) ((S.join endBlock leftBlock c).here prev s') ∧ s'.mem = s.mem ∧
      s'.slot endBlock = entry.1.value s := by
  have hsplit : S.join endBlock leftBlock c =
      ((S.close (.br endBlock) 0 endBlock).add [.phi endBlock [(c, leftBlock), (.bool S.label, S.label)]]).add
        [.store endBlock] := by simp [Emit.join]
  rw [hsplit] at hG ⊢
  refine ⟨_, (hG.mono (.add _ _)).inst.trans hG.inst, ?_⟩
  simp [Inst.run, he]

theorem Contains.of_join (hG : Contains G (S.join endBlock leftBlock c)) : Contains G S where
  closed p hp := hG.closed p (mem_append_left _ hp)
  here := ⟨_, hG.closed (S.label, ⟨S.insts, .br endBlock⟩) (by simp [Emit.join]), prefix_rfl⟩

def Compiles (M : Machine ι κ ω σ) (G : Nat → Option (Block ι κ ω)) (compile : Emit ι κ ω → Var ω × Emit ι κ ω)
    (run : σ → Except σ (Bool × σ)) : Prop :=
  ∀ S prev s, S.Wf → Contains G (compile S).2 → Simulates M G prev s S (compile S).2 (compile S).1 (run s.mem)

theorem split_leads (prev : Nat) (s : State σ) (hG : Contains G ((S.add [.toBool S.label v]).split decides))
    (hadd : Contains G (S.add [.toBool S.label v])) : ∃ s', s'.mem = s.mem ∧ Leads M G (S.here prev s)
      (.run S.label (if v.load M s = decides then S.next + 1 else S.next) 0 s') := by
  refine ⟨Inst.run M prev s (.toBool S.label v), rfl, (hadd.inst.trans (Contains.term hG.closed)).trans ?_⟩
  cases decides <;> cases hv : v.load M s <;> simpa [Term.goto, Cond.test, Inst.run, hv] using .refl

theorem right_leads (prev : Nat) (s : State σ) (hne : leftBlock ≠ S.label)
    (hG : Contains G ((S.add [.toBool S.label v]).join endBlock leftBlock c)) :
    ∃ prev' s', Leads M G (S.here prev s) (((S.add [.toBool S.label v]).join endBlock leftBlock c).here prev' s') ∧
      s'.mem = s.mem ∧ s'.slot endBlock = v.load M s := by
  have hterm : Leads M G (S.here prev s) (.run S.label endBlock 0 (Inst.run M prev s (.toBool S.label v))) :=
    hG.of_join.inst.trans (Contains.term (n := 0) (l := endBlock) hG.closed)
  obtain ⟨s', hjoin, hmem, hslot⟩ := join_leads (M := M) S.label (Inst.run M prev s (.toBool S.label v))
    (.bool S.label, S.label) hG (by simp [hne])
  exact ⟨S.label, s', hterm.trans hjoin, hmem, hslot.trans (by simp [Incoming.value, Inst.run])⟩

theorem logical_compiles {left right : Emit ι κ ω → Var ω × Emit ι κ ω} {runLeft runRight : σ → Except σ (Bool × σ)}
    (hsleft : ∀ S, S.Wf → Sound S (left S).2) (hsright : ∀ S, S.Wf → Sound S (right S).2)
    (hleft : Compiles M G left runLeft) (hright : Compiles M G right runRight) :
    Compiles M G (logical decides left right) fun m =>
      runLeft m >>= fun r => if r.1 = decides then .ok (decides, r.2) else runRight r.2 := by
  intro S prev s hS hG
  have hl := hsleft S hS
  have hadd := Sound.add [.toBool (left S).2.label (left S).1] hl.wf (by simp)
  have hsplit := split_sound hadd.wf decides
  have hr := hsright _ hsplit.wf
  have hGr := (Contains.of_join hG).mono (.add _ _)
  have hGsplit := hGr.mono hr.toEmits
  have hGadd := hGsplit.mono hsplit.toEmits
  have hsim := hleft S prev s hS (hGadd.mono (.add _ _))
  dsimp only
  cases hrun : runLeft s.mem with
  | error m => rwa [hrun] at hsim
  | ok r =>
    obtain ⟨b, m⟩ := r
    rw [hrun] at hsim
    obtain ⟨p1, s1, hleads, rfl, rfl⟩ := hsim
    obtain ⟨s2, hmem, hbranch⟩ := split_leads (M := M) p1 s1 hGsplit hGadd
    change Simulates M G prev s S _ _ (if (left S).1.load M s1 = decides then _ else _)
    split
    · next hb =>
      rw [if_pos hb] at hbranch
      obtain ⟨s3, hjoin, hmem', hslot⟩ := join_leads (M := M) (left S).2.label s2
        (.const decides, (left S).2.label) hG (by simp)
      exact ⟨_, s3, (hleads.trans hbranch).trans hjoin, hmem'.trans hmem, hslot⟩
    · next hb =>
      rw [if_neg hb] at hbranch
      have hgo : Leads M G (S.here prev s)
          ((((left S).2.add [.toBool (left S).2.label (left S).1]).split decides).here (left S).2.label s2) := hleads.trans hbranch
      refine .of_leads hgo ?_
      have hsim := hright _ (left S).2.label s2 hsplit.wf hGr
      rw [hmem] at hsim
      cases hrun' : runRight s1.mem with
      | error m => rwa [hrun'] at hsim
      | ok r =>
        rw [hrun'] at hsim
        obtain ⟨p3, s3, hleads', hm, hv⟩ := hsim
        have hne := (hr.wf.labels ((left S).2.label, ⟨_, _⟩) (hr.closed _ (mem_append_right _ (mem_singleton_self _)))).2
        obtain ⟨p4, s4, hjoin, hm', hv'⟩ := right_leads (M := M) p3 s3 hne hG
        exact ⟨p4, s4, hleads'.trans hjoin, hm'.trans hm, hv'.trans hv⟩

theorem processExpression_compiles (e : Expr ι κ ω) : Compiles M G (processExpression e) (eval M e) := by
  induction e with
  | operand code v => exact fun S prev s hS hG => emitCodes_simulates code v hS hG
  | and left right hleft hright =>
    have heq : eval M (.and left right) = fun m =>
        eval M left m >>= fun r => if r.1 = false then .ok (false, r.2) else eval M right r.2 := by
      funext m
      rw [eval]
      congr 1
      funext r
      cases h : r.1 <;> simp [h]
    rw [heq]
    exact logical_compiles (processExpression_sound left) (processExpression_sound right) hleft hright
  | or left right hleft hright =>
    have heq : eval M (.or left right) = fun m =>
        eval M left m >>= fun r => if r.1 = true then .ok (true, r.2) else eval M right r.2 := rfl
    rw [heq]
    exact logical_compiles (processExpression_sound left) (processExpression_sound right) hleft hright

def Emit.graph (S : Emit ι κ ω) (l : Nat) : Option (Block ι κ ω) :=
  if l = S.label then some ⟨S.insts, .unreachable⟩ else S.closed.lookup l

theorem Emit.Wf.contains (h : S.Wf) : Contains S.graph S where
  closed p hp := by
    rw [Emit.graph, if_neg (h.labels p hp).2]
    exact lookup_of_mem h.nodup hp
  here := ⟨_, if_pos rfl, prefix_rfl⟩

/-- An expression is compiled somewhere in a function: every phi lists just the
blocks that branch to its block, and in whatever way the code goes on, a run
comes to the end of the expression with its value and with the effects of the
operands that are evaluated for it, or fails in the check in which they fail. -/
theorem short_circuit (e : Expr ι κ ω) (hS : S.Wf) (hphis : S.PhisExact) :
    (processExpression e S).2.PhisExact ∧ Contains (processExpression e S).2.graph (processExpression e S).2 ∧
      ∀ G, Contains G (processExpression e S).2 → ∀ prev s,
        match eval M e s.mem with
        | .ok (b, m) => ∃ prev' s', Leads M G (S.here prev s) ((processExpression e S).2.here prev' s') ∧ s'.mem = m ∧
          (processExpression e S).1.load M s' = b
        | .error m => Leads M G (S.here prev s) (.aborted m) := by
  have hsound := processExpression_sound e S hS
  refine ⟨hsound.phis hphis, hsound.wf.contains, fun G hG prev s => ?_⟩
  have hsim := processExpression_compiles (M := M) e S prev s hS hG
  revert hsim
  cases eval M e s.mem with
  | ok r => exact id
  | error m => exact id

def Emit.start : Emit ι κ ω := ⟨1, [], 0, []⟩

theorem start_wf : (Emit.start : Emit ι κ ω).Wf :=
  ⟨Nat.one_pos, by simp [Emit.start], by simp [Emit.start], by simp [Emit.start]⟩

theorem start_phisExact : (Emit.start : Emit ι κ ω).PhisExact := by
  rintro k l incoming (⟨b, hb, -⟩ | ⟨-, h⟩)
  · cases hb
  · cases h

/-- `(a || b) && c`, where the operands log themselves and the last one has a check. -/
def logging : Expr Nat Unit Nat :=
  .and (.or (.operand [.exec 0] 0) (.operand [.exec 1] 1)) (.operand [.exec 2, .check ()] 2)

theorem logging_short_circuit : (processExpression logging .start).2.PhisExact ∧
      ∃ prev s, Leads ⟨fun i m => m ++ [i], fun _ _ => true, fun v _ => v != 1⟩ (processExpression logging .start).2.graph
        ((Emit.start : Emit Nat Unit Nat).here 0 ⟨[], fun _ => false, fun _ => false, fun _ => false⟩)
        ((processExpression logging .start).2.here prev s) ∧ s.mem = [0, 2] := by
  have h := short_circuit (M := (⟨fun i m => m ++ [i], fun _ _ => true, fun v _ => v != 1⟩ : Machine Nat Unit Nat (List Nat)))
    logging start_wf start_phisExact
  obtain ⟨prev, s, hleads, hmem, -⟩ := h.2.2 _ h.2.1 0 ⟨[], fun _ => false, fun _ => false, fun _ => false⟩
  exact ⟨h.1, prev, s, hleads, hmem⟩

end Simulation

end Picasso.Codegen.Logical
