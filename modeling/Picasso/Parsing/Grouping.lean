import Picasso.Parsing.Chain

namespace Picasso.Parsing.Grouping

open Lexing Lib.Precedence Chain List BindingPower Tree

variable {ν : Type} {sc : Strconv ν} {done rest : List Token} {f : Token}

def weight : Expression ν → Nat
  | .binary _ l _ r => weight l + weight r
  | _ => 1

def operandWeight : Operand sc → Nat
  | .atom .. => 1
  | .paren _ _ _ e .. => weight e

def chainWeight (cs : Chained sc) : Nat := (cs.map fun c => operandWeight c.2).sum

theorem weight_pos (e : Expression ν) : 0 < weight e := by
  cases e with
  | binary loc l o r =>
    have := weight_pos l
    rw [weight]
    omega
  | _ => exact Nat.one_pos

theorem operandWeight_pos (x : Operand sc) : 0 < operandWeight x := by
  cases x with
  | atom => exact Nat.one_pos
  | paren => exact weight_pos _

variable {x : Operand sc} {e : Expression ν} {t : Tree (Operand sc) Token} {l r : List Token} {o : Token}
  {cs : Chained sc}

theorem operandWeight_eq (h : x.Is e) : weight e = operandWeight x := by
  cases x with
  | atom t ht =>
    rcases h with ⟨-, loc, rfl⟩ | ⟨-, loc, rfl⟩ | ⟨-, loc, rfl⟩ | ⟨-, loc, v, -, rfl⟩ <;> rfl
  | paren => rw [show e = _ from h, operandWeight]

theorem shows_weight (h : Shows e t) : weight e = operandWeight t.first + chainWeight t.rest := by
  induction h with
  | leaf hx => simp [first, rest, chainWeight, operandWeight_eq hx]
  | node hl hr ihl ihr =>
    simp only [weight, ihl, ihr, first, rest, chainWeight, map_append, map_cons, sum_append,
      sum_cons]
    omega

theorem append_inj {l l' r r' : Chained sc} (h : l ++ r = l' ++ r') (hw : chainWeight l = chainWeight l') :
    l = l' ∧ r = r' := by
  have hnil : ∀ {k m : Chained sc}, chainWeight (k ++ m) = chainWeight k → m = [] := by
    intro k m hkm
    cases m with
    | nil => rfl
    | cons c m =>
      have := operandWeight_pos c.2
      simp only [chainWeight, map_append, sum_append, map_cons, sum_cons] at hkm
      omega
  rcases append_eq_append_iff.mp h with ⟨m, rfl, rfl⟩ | ⟨m, rfl, rfl⟩
  · cases hnil hw.symm
    simp
  · cases hnil hw
    simp

theorem shows_unique {t' : Tree (Operand sc) Token} (h : Shows e t) (h' : Shows e t') (hf : t.first = t'.first)
    (hr : t.rest = t'.rest) : t = t' := by
  induction h generalizing t' with
  | leaf hx =>
    cases h' with
    | leaf hx' => exact congrArg leaf hf
    | node hl' hr' => simp [rest] at hr
  | @node l r tl tr loc o hl hr1 ihl ihr =>
    cases h' with
    | leaf hx' => simp [rest] at hr
    | @node _ _ tl' tr' _ _ hl' hr' =>
      have hw := (shows_weight hl).symm.trans (shows_weight hl')
      rw [show tl.first = tl'.first from hf] at hw
      have hrest := append_inj hr (Nat.add_left_cancel hw)
      simp only [List.cons.injEq, Prod.mk.injEq, true_and] at hrest
      rw [ihl hl' hf hrest.1, ihr hr' hrest.2.1 hrest.2.2]

def led (o : Token) : Nat := ledPower o.kind

/-- No two operators of one power with only tighter ones between them, but for
a `-` before a `+`, and no `-` next to a multiplicative operator. -/
structure Plain (ops : List Token) : Prop where
  single : ∀ a mid b, Between ops a mid b → led a = led b → (∀ k ∈ mid, led a < led k) → a.kind = .DASH ∧ b.kind ≠ .DASH
  apart : ∀ a b, Between ops a [] b → ¬ (a.kind = .DASH ∧ led b = BindingPower.multiplicative) ∧
    ¬ (led a = BindingPower.multiplicative ∧ b.kind = .DASH)

def IsOp (o : Token) : Prop := tables.led o.kind = some .parseBinaryExpr

theorem power_eq (h : IsOp o) (hd : o.kind ≠ .DASH) : power o = led o := by
  have hall : ∀ k : TokenKind, tables.led k = some .parseBinaryExpr → k ≠ .DASH → tables.bp k = ledPower k := by
    intro k
    cases k <;> decide
  exact hall o.kind h hd

theorem power_dash (hd : o.kind = .DASH) : power o = primary ∧ led o = additive := by
  rw [power, led, hd]
  exact ⟨rfl, rfl⟩

theorem led_le (h : IsOp o) : led o ≤ multiplicative := by
  have hall : ∀ k : TokenKind, tables.led k = some .parseBinaryExpr → ledPower k ≤ multiplicative := by
    intro k
    cases k <;> decide
  exact hall o.kind h

theorem powers (h : IsOp o) :
    (o.kind = .DASH ∧ power o = 11 ∧ led o = 6) ∨ (o.kind ≠ .DASH ∧ power o = led o ∧ led o ≤ 7) := by
  by_cases hd : o.kind = .DASH
  · exact .inl ⟨hd, power_dash hd⟩
  · exact .inr ⟨hd, power_eq h hd, led_le h⟩

theorem Plain.left (h : Plain (l ++ r)) : Plain l :=
  ⟨fun a mid b hb => h.single a mid b (hb.left r), fun a b hb => h.apart a b (hb.left r)⟩

theorem Plain.right (h : Plain (l ++ o :: r)) : Plain r :=
  ⟨fun a mid b hb => h.single a mid b ((hb.cons o).right l), fun a b hb => h.apart a b ((hb.cons o).right l)⟩

theorem leftGrouped_of_plain (hop : ∀ o ∈ t.ops, IsOp o) (hg : t.RightGrouped power) (hp : Plain t.ops) :
    t.LeftGrouped led := by
  induction t with
  | leaf x => trivial
  | node l o r ihl ihr =>
    obtain ⟨hl, hr, hlo, hro⟩ := hg
    simp only [ops, mem_append, mem_cons] at hop
    have ho := powers (hop o (.inr (.inl rfl)))
    refine ⟨ihl (fun x hx => hop x (.inl hx)) hl hp.left, ihr (fun x hx => hop x (.inr (.inr hx))) hr hp.right, ?_, ?_⟩
    · intro x hx
      by_contra hlt
      -- then the last operator on the left is a `-` in front of a multiplicative one
      obtain ⟨z, hz⟩ := getLast?_eq_some_iff.mp (getLast?_eq_some_getLast (ne_nil_of_mem hx))
      have hzm : (l.ops.getLast (ne_nil_of_mem hx)) ∈ l.ops := getLast_mem _
      have hx' := powers (hop x (.inl hx))
      have hz' := powers (hop _ (.inl hzm))
      have h1 := hlo x hx
      have h2 := hlo _ hzm
      have hb : Between (l.ops ++ o :: r.ops) (l.ops.getLast (ne_nil_of_mem hx)) [] o := ⟨z, r.ops, by
        nth_rewrite 1 [hz]
        simp⟩
      have := (hp.apart _ _ hb).1
      simp only [multiplicative] at this
      grind
    · intro y hy
      by_contra hlt
      obtain ⟨mid, y, post, hsplit, hle, hmid⟩ := exists_first (p := fun y => led y ≤ led o) ⟨y, hy, by omega⟩
      have hym : y ∈ r.ops := by simp [hsplit]
      have hy' := powers (hop y (.inr (.inr hym)))
      have h1 := hro y hym
      have hb : Between (l.ops ++ o :: r.ops) o mid y := ⟨l.ops, post, by rw [hsplit]⟩
      rcases Nat.lt_or_eq_of_le hle with hlt | heq
      · -- a multiplicative operator right in front of a `-`
        cases mid with
        | nil =>
          have := (hp.apart _ _ hb).2
          simp only [multiplicative] at this
          grind
        | cons k mid =>
          have hk := powers (hop k (.inr (.inr (by simp [hsplit]))))
          have := hmid k mem_cons_self
          omega
      · have := hp.single o mid y hb heq.symm fun k hk => Nat.lt_of_not_le (hmid k hk)
        grind

theorem plain_of_grouped (hop : ∀ o ∈ t.ops, IsOp o) (hg : t.RightGrouped power) (hg' : t.LeftGrouped led) :
    Plain t.ops := by
  induction t with
  | leaf x =>
    exact ⟨by rintro a mid b ⟨pre, post, h⟩; simp [ops] at h, by rintro a b ⟨pre, post, h⟩; simp [ops] at h⟩
  | node l o r ihl ihr =>
    obtain ⟨hl, hr, hlo, hro⟩ := hg
    obtain ⟨hl', hr', hlo', hro'⟩ := hg'
    simp only [ops, mem_append, mem_cons] at hop
    have ho := powers (hop o (.inr (.inl rfl)))
    have ihl := ihl (fun x hx => hop x (.inl hx)) hl hl'
    have ihr := ihr (fun x hx => hop x (.inr (.inr hx))) hr hr'
    refine ⟨fun a mid b hab heq hmid => ?_, fun a b hab => ?_⟩
    · rcases hab.cases with hb | hb | ⟨ha, rfl⟩ | ⟨ha, hm, -⟩ | ⟨rfl, hb⟩
      · exact ihl.single a mid b hb heq hmid
      · exact ihr.single a mid b hb heq hmid
      · have hpa := powers (hop a (.inl ha))
        have := hlo a ha
        grind
      · have := hlo' a ha
        have := hmid o hm
        omega
      · have := hro' b hb
        omega
    · simp only [multiplicative]
      rcases hab.cases with hb | hb | ⟨ha, rfl⟩ | ⟨-, hm, -⟩ | ⟨rfl, hb⟩
      · exact ihl.apart a b hb
      · exact ihr.apart a b hb
      · have hpa := powers (hop a (.inl ha))
        have := hlo a ha
        have := hlo' a ha
        grind
      · cases hm
      · have hpb := powers (hop b (.inr (.inr hb)))
        have := hro b hb
        have := hro' b hb
        grind

theorem returns_chain (x : Operand sc) (cs : Chained sc) (hops : Operators cs) (hf : tables.bp f.kind = 0)
    (done rest : List Token) : ∃ e t, t.first = x ∧ t.rest = cs ∧ t.RightGrouped power ∧ Shows e t ∧
      Returns sc .defaultBp (front done (x.tokens ++ (chainTokens cs ++ f :: rest)))
        (.ok (e, front (done ++ x.tokens ++ chainTokens cs) (f :: rest))) := by
  obtain ⟨e, t, cs1, cs2, ht, hp⟩ := parseExpr_of_extends (extends_chain cs hops) x hf .defaultBp done rest
  have hnil : cs2 = [] := by
    cases cs2 with
    | nil => rfl
    | cons c cs2 =>
      have hpos := power_pos (hops c (by simp [ht.split]))
      have hle : power c.1 ≤ 0 := ht.ends c rfl
      omega
  subst hnil
  have hcs : cs1 = cs := by simpa using ht.split.symm
  subst hcs
  exact ⟨e, t, ht.first, by simpa using ht.rest, ht.grouped, ht.shows, _, fun n hn => hp n hn⟩

/-- `parseExpr` returns the tree of the chain in which higher powers bind
tighter and equal ones group to the left. -/
def Parsed (x : Operand sc) (cs : Chained sc) (f : Token) (done rest : List Token) : Prop :=
  ∃ e t, t.first = x ∧ t.rest = cs ∧ t.LeftGrouped led ∧ Shows e t ∧
    Returns sc .defaultBp (front done (x.tokens ++ (chainTokens cs ++ f :: rest)))
      (.ok (e, front (done ++ x.tokens ++ chainTokens cs) (f :: rest)))

theorem isOp_of_rest (hr : t.rest = cs) (hops : Operators cs) : ∀ o ∈ t.ops, IsOp o := by
  intro o ho
  rw [ops_eq, hr] at ho
  obtain ⟨c, hc, rfl⟩ := mem_map.mp ho
  exact hops c hc

theorem plain_of_parsed (hops : Operators cs) (hf : tables.bp f.kind = 0) {done rest : List Token}
    (h : Parsed x cs f done rest) : Plain (cs.map Prod.fst) := by
  obtain ⟨e, t, hx, hcs, hg, hs, hr⟩ := h
  obtain ⟨e', t', hx', hcs', hg', hs', hr'⟩ := returns_chain x cs hops hf done rest
  cases hr.unique hr'
  cases shows_unique hs hs' (hx.trans hx'.symm) (hcs.trans hcs'.symm)
  rw [← hcs, ← ops_eq]
  exact plain_of_grouped (isOp_of_rest hcs hops) hg' hg

/-- A chain has one tree in which higher powers bind tighter and equal ones
group to the left; `parseExpr` returns it just for the plain chains. -/
theorem chain_grouping (x : Operand sc) (cs : Chained sc) (hops : Operators cs) (hf : tables.bp f.kind = 0)
    (done rest : List Token) : (∃! t : Tree (Operand sc) Token, t.first = x ∧ t.rest = cs ∧ t.LeftGrouped led) ∧
      (Parsed x cs f done rest ↔ Plain (cs.map Prod.fst)) := by
  refine ⟨?_, plain_of_parsed hops hf, fun hp => ?_⟩
  · obtain ⟨t, hx, hcs, hg⟩ := Tree.exists_leftGrouped led x cs
    refine ⟨t, ⟨hx, hcs, hg⟩, ?_⟩
    rintro t' ⟨hx', hcs', hg'⟩
    exact Tree.leftGrouped_unique hg' hg (hx'.trans hx.symm) (hcs'.trans hcs.symm)
  · obtain ⟨e, t, hx, hcs, hg, hs, hr⟩ := returns_chain x cs hops hf done rest
    rw [← hcs, ← Tree.ops_eq] at hp
    exact ⟨e, t, hx, hcs, leftGrouped_of_plain (isOp_of_rest hcs hops) hg hp, hs, hr⟩

section Cases

def someStrconv : Strconv Bytes := ⟨id, some⟩

def tok (kind : TokenKind) (value : String) : Token := token kind (ascii value)

def name (value : String) : Operand someStrconv := .atom (tok .IDENTIFIER value) (.inr (.inl rfl))

/-- The tree of `a * b + c`. -/
theorem chain_grouping_product : Plain [tok .STAR "*", tok .PLUS "+"] ∧
    Parsed (name "a") [(tok .STAR "*", name "b"), (tok .PLUS "+", name "c")] (tok .SEMI_COLON ";") [] [] := by
  have hp : Plain [tok .STAR "*", tok .PLUS "+"] := by
    constructor
    · intro a mid b h heq
      obtain ⟨rfl, -, rfl⟩ := h.pair
      exact absurd heq (by decide)
    · intro a b h
      obtain ⟨rfl, -, rfl⟩ := h.pair
      decide
  exact ⟨hp, (chain_grouping _ _ (forall_mem_cons.mpr ⟨rfl, forall_mem_singleton.mpr rfl⟩) rfl _ _).2.mpr hp⟩

/-- `a - b - c` is parsed as `a - (b - c)`. -/
theorem dash_groups_right : ¬ ∀ (x : Operand someStrconv) (cs : Chained someStrconv) (f : Token)
    (done rest : List Token), Operators cs → tables.bp f.kind = 0 → Parsed x cs f done rest := by
  intro hall
  have hops : Operators [(tok .DASH "-", name "b"), (tok .DASH "-", name "c")] :=
    forall_mem_cons.mpr ⟨rfl, forall_mem_singleton.mpr rfl⟩
  have h := plain_of_parsed hops rfl (hall (name "a") _ (tok .SEMI_COLON ";") [] [] hops rfl)
  exact (h.single _ [] _ ⟨[], [], rfl⟩ rfl (by simp)).2 rfl

end Cases

end Picasso.Parsing.Grouping
