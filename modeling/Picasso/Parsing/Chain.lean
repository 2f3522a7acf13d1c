import Picasso.Lib.Precedence
import Picasso.Parsing.Steps
import Mathlib.Algebra.GroupWithZero.Nat

namespace Picasso.Parsing.Chain

open Lexing Lib.Precedence List

variable {ν : Type} {sc : Strconv ν} {f : Token}

/-- An operand of a chain: an atomic token, or anything in parentheses that is
parsed as `e`. -/
inductive Operand (sc : Strconv ν)
  | atom (t : Token) (atomic : Atomic sc t)
  | paren (o : Token) (inner : List Token) (c : Token) (e : Expression ν) (N : Nat) (opens : o.kind = .OPEN_PAREN)
      (closes : c.kind = .CLOSE_PAREN)
      (parses : ∀ n, N ≤ n → ∀ done rest, parseExpr sc n .defaultBp (front done (inner ++ c :: rest)) =
        .ok (e, front (done ++ inner) (c :: rest)))

namespace Operand

def tokens : Operand sc → List Token
  | atom t _ => [t]
  | paren o inner c .. => o :: (inner ++ [c])

def bound : Operand sc → Nat
  | atom .. => 0
  | paren _ _ _ _ N .. => N

def Is : Operand sc → Expression ν → Prop
  | atom t _, e => Atom sc t e
  | paren _ _ _ e' .., e => e = e'

end Operand

theorem parseExpr_operand (x : Operand sc) (f : Token) (rest done : List Token) (bp : BindingPower) :
    ∃ e, x.Is e ∧ ∀ n, x.bound ≤ n → parseExpr sc (n + 1) bp (front done (x.tokens ++ f :: rest)) =
      extend (calls sc n) bp n e (front (done ++ x.tokens) (f :: rest)) := by
  cases x with
  | atom t h =>
    obtain ⟨e, he, hp⟩ := parseExpr_atom h f rest done bp
    exact ⟨e, he, fun n _ => hp n⟩
  | paren o inner c e N ho hc hp =>
    refine ⟨e, rfl, fun n hn => ?_⟩
    have := parseExpr_paren bp ho hc (hp n hn (done ++ [o]) (f :: rest))
    simpa only [Operand.tokens, cons_append, append_assoc, nil_append] using this

abbrev Chained (sc : Strconv ν) := List (Token × Operand sc)

def chainTokens (cs : Chained sc) : List Token := cs.flatMap fun c => c.1 :: c.2.tokens

def chainBound (cs : Chained sc) : Nat := (cs.map fun c => c.2.bound + 2).sum

def power (o : Token) : Nat := tables.bp o.kind

def Operators (cs : Chained sc) : Prop := ∀ c ∈ cs, tables.led c.1.kind = some .parseBinaryExpr

inductive Shows : Expression ν → Tree (Operand sc) Token → Prop
  | leaf {x : Operand sc} {e : Expression ν} : x.Is e → Shows e (.leaf x)
  | node {l r : Expression ν} {tl tr : Tree (Operand sc) Token} {loc : SourceLoc} {o : Token} :
      Shows l tl → Shows r tr → Shows (.binary loc l o r) (.node tl o tr)

theorem power_pos {o : Token} (h : tables.led o.kind = some .parseBinaryExpr) : 0 < power o := by
  have hall : ∀ k : TokenKind, tables.led k = some .parseBinaryExpr → 0 < tables.bp k := by
    intro k
    cases k <;> decide
  exact hall o.kind h

/-- What the loop of `parseExpr` makes of a chain: it takes operators while
they bind tighter than `bp`. -/
structure Taken (bp : Nat) (first : Operand sc) (before cs : Chained sc) (e : Expression ν)
    (t : Tree (Operand sc) Token) (cs₁ cs₂ : Chained sc) : Prop where
  split : cs = cs₁ ++ cs₂
  first : t.first = first
  rest : t.rest = before ++ cs₁
  grouped : t.RightGrouped power
  tighter : ∀ o ∈ t.ops, bp < power o
  ends : ∀ c ∈ cs₂.head?, power c.1 ≤ bp
  shows : Shows e t

def Extends (cs : Chained sc) : Prop :=
  ∀ (bp : Nat) (done rest : List Token) (f : Token) (e : Expression ν) (t : Tree (Operand sc) Token),
    tables.bp f.kind = 0 → Shows e t → t.RightGrouped power →
    (∀ c ∈ cs.head?, ∀ o ∈ t.ops, power c.1 < power o) → (∀ o ∈ t.ops, bp < power o) →
    ∃ e' t' cs₁ cs₂, Taken bp t.first t.rest cs e' t' cs₁ cs₂ ∧ ∀ n m, chainBound cs < n → cs.length < m →
      extend (calls sc n) bp m e (front done (chainTokens cs ++ f :: rest)) =
        .ok (e', front (done ++ chainTokens cs₁) (chainTokens cs₂ ++ f :: rest))

theorem chainTokens_cons (o : Token) (x : Operand sc) (cs : Chained sc) :
    chainTokens ((o, x) :: cs) = o :: (x.tokens ++ chainTokens cs) := rfl

theorem exists_next (cs : Chained sc) (f : Token) (rest : List Token) :
    ∃ g tl, chainTokens cs ++ f :: rest = g :: tl := by
  cases cs with
  | nil => exact ⟨f, rest, rfl⟩
  | cons c cs => exact ⟨c.1, _, rfl⟩

theorem chainBound_append (cs cs' : Chained sc) : chainBound (cs ++ cs') = chainBound cs + chainBound cs' := by
  simp [chainBound]

theorem chainBound_cons (o : Token) (y : Operand sc) (cs : Chained sc) :
    chainBound ((o, y) :: cs) = y.bound + 2 + chainBound cs := by
  simp [chainBound]

theorem length_le_chainBound (cs : Chained sc) : cs.length ≤ chainBound cs := by
  induction cs with
  | nil => exact Nat.le_refl _
  | cons c cs ih =>
    rw [chainBound_cons, length_cons]
    omega

theorem parseExpr_of_extends {cs : Chained sc} (hE : Extends cs) (x : Operand sc) (hf : tables.bp f.kind = 0)
    (bp : BindingPower) (done rest : List Token) : ∃ e t cs1 cs2, Taken bp x [] cs e t cs1 cs2 ∧
      ∀ n, x.bound + chainBound cs + 1 < n →
        parseExpr sc n bp (front done (x.tokens ++ (chainTokens cs ++ f :: rest))) =
          .ok (e, front (done ++ x.tokens ++ chainTokens cs1) (chainTokens cs2 ++ f :: rest)) := by
  have hlen := length_le_chainBound cs
  obtain ⟨g, tl, hg⟩ := exists_next cs f rest
  obtain ⟨e, he, hp⟩ := parseExpr_operand x g tl done bp
  obtain ⟨e', t, cs1, cs2, ht, hx⟩ := hE bp (done ++ x.tokens) rest f e (.leaf x) hf (.leaf he) trivial
    (by simp [Tree.ops]) (by simp [Tree.ops])
  refine ⟨e', t, cs1, cs2, ht, fun n hn => ?_⟩
  obtain ⟨n, rfl⟩ : ∃ k, n = k + 1 := ⟨n - 1, by omega⟩
  rw [hg, hp n (by omega), ← hg, hx n n (by omega) (by omega)]

/-- One round of the loop: the right operand takes all that binds at least as
tight as the operator. -/
theorem parseBinaryExpr_chain {cs : Chained sc} (hE : Extends cs) (o : Token) (y : Operand sc)
    (hf : tables.bp f.kind = 0) (e : Expression ν) (done rest : List Token) :
    ∃ er loc tr cs1 cs2, Taken (power o - 1) y [] cs er tr cs1 cs2 ∧ ∀ n, y.bound + chainBound cs + 1 < n →
      parseBinaryExpr (calls sc n) e (front done (chainTokens ((o, y) :: cs) ++ f :: rest)) =
        .ok (.binary loc e o er, front (done ++ chainTokens ((o, y) :: cs1)) (chainTokens cs2 ++ f :: rest)) := by
  obtain ⟨er, tr, cs1, cs2, hr, hpr⟩ := parseExpr_of_extends hE y hf (power o - 1) (done ++ [o]) rest
  obtain ⟨g, tl, hg⟩ := exists_next cs2 f rest
  refine ⟨er, g.src, tr, cs1, cs2, hr, fun n hn => ?_⟩
  rw [power] at hpr
  rw [parseBinaryExpr, chainTokens_cons, cons_append, append_assoc, bind_ok _ move_front, calls_parseExpr,
    bind_ok _ (hpr n hn), hg, bind_ok _ currentLoc_front]
  simp only [chainTokens_cons, append_assoc, cons_append, nil_append]
  rfl

theorem rightGrouped_node {t tr : Tree (Operand sc) Token} {o : Token} (ho : 0 < power o) (ht : t.RightGrouped power)
    (hlo : ∀ o' ∈ t.ops, power o < power o') (hr : tr.RightGrouped power) (hro : ∀ o' ∈ tr.ops, power o - 1 < power o') :
    (.node t o tr : Tree (Operand sc) Token).RightGrouped power := by
  refine ⟨ht, hr, hlo, fun o' ho' => ?_⟩
  have := hro o' ho'
  omega

theorem extends_chain (cs : Chained sc) (hops : Operators cs) : Extends cs := by
  induction hk : cs.length using Nat.strongRecOn generalizing cs with
  | _ k ih =>
    intro bp done rest f e t hf hs hg hhead htight
    cases cs with
    | nil =>
      refine ⟨e, t, [], [], ⟨rfl, rfl, by simp, hg, htight, by simp, hs⟩, fun n m _ hm => ?_⟩
      obtain ⟨m, rfl⟩ : ∃ j, m = j + 1 := ⟨m - 1, by omega⟩
      simpa [chainTokens] using extend_stop (hf ▸ Nat.zero_le bp)
    | cons c cs =>
      obtain ⟨o, y⟩ := c
      have ho : tables.led o.kind = some .parseBinaryExpr := hops _ mem_cons_self
      have hpos := power_pos ho
      rw [length_cons] at hk
      by_cases hbp : bp < power o
      · have hops' : Operators cs := fun c hc => hops c (mem_cons_of_mem _ hc)
        obtain ⟨er, loc, tr, cs1, cs2, hr, hpr⟩ :=
          parseBinaryExpr_chain (ih cs.length (by omega) cs hops' rfl) o y hf e done
          rest
        obtain ⟨rfl, rfl, hrest, hgr, htr, hends, hsr⟩ := hr
        rw [length_append] at hk
        have hhead' : ∀ o' ∈ t.ops, power o < power o' := hhead (o, tr.first) rfl
        have hnext : ∀ c ∈ cs2.head?, ∀ o' ∈ (.node t o tr : Tree _ _).ops, power c.1 < power o' := by
          intro c hc o' ho'
          have hle := hends c hc
          simp only [Tree.ops, mem_append, mem_cons] at ho'
          rcases ho' with ho' | rfl | ho'
          · have := hhead' o' ho'
            omega
          · omega
          · have := htr o' ho'
            omega
        have htight' : ∀ o' ∈ (.node t o tr : Tree _ _).ops, bp < power o' := by
          intro o' ho'
          simp only [Tree.ops, mem_append, mem_cons] at ho'
          rcases ho' with ho' | rfl | ho'
          · exact htight o' ho'
          · exact hbp
          · have := htr o' ho'
            omega
        have hops2 : Operators cs2 := fun c hc => hops' c (mem_append_right _ hc)
        obtain ⟨e', t', cs3, cs4, ht', hx⟩ := ih cs2.length (by omega) cs2 hops2 rfl bp _ rest f _ _ hf
          (Shows.node hs hsr : Shows (.binary loc _ _ _) _) (rightGrouped_node hpos hg hhead' hgr htr) hnext htight'
        refine ⟨e', t', (o, tr.first) :: (cs1 ++ cs3), cs4, ?_, fun n m hn hm => ?_⟩
        · obtain ⟨rfl, hfirst', hrest', hg', ht', hends', hs'⟩ := ht'
          refine ⟨by simp, hfirst', ?_, hg', ht', hends', hs'⟩
          rw [hrest', Tree.rest, hrest]
          simp
        · obtain ⟨m, rfl⟩ : ∃ j, m = j + 1 := ⟨m - 1, by omega⟩
          rw [chainBound_cons, chainBound_append] at hn
          rw [length_cons, length_append] at hm
          have hpr := hpr n (by rw [chainBound_append]; omega)
          rw [chainTokens_cons, cons_append] at hpr ⊢
          rw [extend_led ho hbp, ledHandler, bind_ok _ hpr, hx n m (by omega) (by omega)]
          simp [chainTokens]
      · refine ⟨e, t, [], (o, y) :: cs, ⟨rfl, rfl, by simp, hg, htight, ?_, hs⟩, fun n m _ hm => ?_⟩
        · simpa using Nat.not_lt.mp hbp
        · obtain ⟨m, rfl⟩ : ∃ j, m = j + 1 := ⟨m - 1, by omega⟩
          rw [chainTokens_cons, cons_append, extend_stop (Nat.not_lt.mp hbp)]
          simp [chainTokens]

end Picasso.Parsing.Chain
