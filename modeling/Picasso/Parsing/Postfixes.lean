import Picasso.Lib.Stateful
import Picasso.Parsing.Grouping

namespace Picasso.Parsing.Postfixes

open Lexing List
open Chain (power power_pos)
open Lib.Stateful (run_bind_ok run_bind_eq_ok)
open Grouping (someStrconv tok)

variable {ν : Type} {sc : Strconv ν} {bp : BindingPower}

section Operands

variable {f : Token}

/-- A member access, an index or a call, as it is read where operators bind with the power `bp`. -/
structure Postfix (sc : Strconv ν) (bp : BindingPower) where
  op : Token
  tail : List Token
  led : LedHandler
  post : SourceLoc → Expression ν → Expression ν
  bound : Nat
  handler : tables.led op.kind = some led
  kind : op.kind = .DOT ∨ op.kind = .OPEN_BRACKET ∨ op.kind = .OPEN_PAREN
  reads : ∀ n, bound ≤ n → ∀ left done f rest, ledHandler (calls sc n) left bp led (front done (op :: (tail ++ f :: rest))) =
    .ok (post f.src left, front (done ++ op :: tail) (f :: rest))

def postfixTokens (ps : List (Postfix sc bp)) : List Token := ps.flatMap fun p => p.op :: p.tail

def postfixBound (ps : List (Postfix sc bp)) : Nat := (ps.map fun p => p.bound + 1).sum

def next (ps : List (Postfix sc bp)) (f : Token) : Token := (ps.head?.map Postfix.op).getD f

def applied (f : Token) : List (Postfix sc bp) → Expression ν → Expression ν
  | [], e => e
  | p :: ps, e => applied f ps (p.post (next ps f).src e)

theorem exists_rest (ps : List (Postfix sc bp)) (f : Token) (rest : List Token) :
    ∃ tl, postfixTokens ps ++ f :: rest = next ps f :: tl := by
  cases ps with
  | nil => exact ⟨rest, rfl⟩
  | cons p ps => exact ⟨_, rfl⟩

theorem extend_postfixes (ps : List (Postfix sc bp)) (hps : ∀ p ∈ ps, bp < tables.bp p.op.kind) (hf : tables.bp f.kind ≤ bp)
    (e : Expression ν) (done rest : List Token) {n m : Nat} (hn : postfixBound ps ≤ n) (hm : postfixBound ps < m) :
    extend (calls sc n) bp m e (front done (postfixTokens ps ++ f :: rest)) =
      .ok (applied f ps e, front (done ++ postfixTokens ps) (f :: rest)) := by
  induction ps generalizing e done m with
  | nil =>
    obtain ⟨m, rfl⟩ : ∃ k, m = k + 1 := ⟨m - 1, by omega⟩
    simpa [postfixTokens, applied] using extend_stop hf
  | cons p ps ih =>
    obtain ⟨m, rfl⟩ : ∃ k, m = k + 1 := ⟨m - 1, by omega⟩
    rw [postfixBound, map_cons, sum_cons] at hn hm
    obtain ⟨tl, htl⟩ := exists_rest ps f rest
    have hread := p.reads n (by omega) e done (next ps f) tl
    rw [← htl] at hread
    have hflat : postfixTokens (p :: ps) ++ f :: rest = p.op :: (p.tail ++ (postfixTokens ps ++ f :: rest)) := by
      simp [postfixTokens]
    rw [hflat, extend_led p.handler (hps p mem_cons_self), bind_ok _ hread,
      ih (fun q hq => hps q (mem_cons_of_mem _ hq)) _ _ (by rw [postfixBound]; omega) (by rw [postfixBound]; omega)]
    simp [postfixTokens, applied]

/-- What a nud handler reads up to any token that follows it. -/
structure Primary (sc : Strconv ν) where
  first : Token
  tail : List Token
  nud : NudHandler
  expr : SourceLoc → Expression ν
  bound : Nat
  handler : tables.nud first.kind = some nud
  reads : ∀ n, bound ≤ n → ∀ done f rest, nudHandler (calls sc n) nud (front done (first :: (tail ++ f :: rest))) =
    .ok (expr f.src, front (done ++ first :: tail) (f :: rest))

def Primary.tokens (a : Primary sc) : List Token := a.first :: a.tail

def operandTokens (a : Primary sc) (ps : List (Postfix sc bp)) : List Token := a.tokens ++ postfixTokens ps

def operand (a : Primary sc) (ps : List (Postfix sc bp)) (f : Token) : Expression ν :=
  applied f ps (a.expr (next ps f).src)

theorem parseExpr_operand (a : Primary sc) (ps : List (Postfix sc bp)) (hps : ∀ p ∈ ps, bp < tables.bp p.op.kind)
    (hf : tables.bp f.kind ≤ bp) (done rest : List Token) {n : Nat} (hn : a.bound + postfixBound ps + 1 < n) :
    parseExpr sc n bp (front done (operandTokens a ps ++ f :: rest)) =
      .ok (operand a ps f, front (done ++ operandTokens a ps) (f :: rest)) := by
  obtain ⟨n, rfl⟩ : ∃ k, n = k + 1 := ⟨n - 1, by omega⟩
  obtain ⟨tl, htl⟩ := exists_rest ps f rest
  rw [operandTokens, append_assoc, Primary.tokens, cons_append, parseExpr_nud a.nud a.handler, htl,
    bind_ok _ (a.reads n (by omega) done (next ps f) tl), ← htl,
    extend_postfixes ps hps hf _ _ rest (by omega) (by omega), append_assoc]
  rfl

theorem parseBinaryExpr_operand (ex : Expression ν) {o : Token} (a : Primary sc) (ps : List (Postfix sc (power o - 1)))
    (hps : ∀ p ∈ ps, power o - 1 < tables.bp p.op.kind) (hf : tables.bp f.kind ≤ power o - 1) (done rest : List Token)
    {n : Nat} (hn : a.bound + postfixBound ps + 1 < n) :
    parseBinaryExpr (calls sc n) ex (front done (o :: (operandTokens a ps ++ f :: rest))) =
      .ok (.binary f.src ex o (operand a ps f), front (done ++ [o] ++ operandTokens a ps) (f :: rest)) := by
  rw [parseBinaryExpr, bind_ok _ move_front, calls_parseExpr, show tables.bp o.kind - 1 = power o - 1 from rfl,
    bind_ok _ (parseExpr_operand a ps hps hf _ rest hn), bind_ok _ currentLoc_front]
  rfl

/-- Only the minus sign binds as tight as a member access: it is a sign as well. -/
theorem power_lt {o : Token} (ho : tables.led o.kind = some .parseBinaryExpr) (p : Postfix sc bp)
    (hdash : o.kind = .DASH → p.op.kind = .OPEN_PAREN) : power o - 1 < tables.bp p.op.kind := by
  have hall : ∀ k, tables.led k = some .parseBinaryExpr → k ≠ .DASH → tables.bp k ≤ .unary := by
    intro k
    cases k <;> decide
  rw [power]
  by_cases hd : o.kind = .DASH
  · rw [hd, hdash hd]
    decide
  · have hle := hall o.kind ho hd
    rcases p.kind with h | h | h <;> rw [h] <;> exact Nat.lt_of_le_of_lt (Nat.sub_le _ _) (Nat.lt_of_le_of_lt hle (by decide))

/-- Of the postfix operations behind a `-` the operand ends in front of the first
that is not a call. -/
theorem calls_of_dash (ex : Expression ν) {o : Token} (a : Primary sc) (ps : List (Postfix sc (power o - 1)))
    (hd : o.kind = .DASH) (done rest : List Token) {N : Nat} {e : Expression ν}
    (h : ∀ n, N ≤ n → parseBinaryExpr (calls sc n) ex (front done (o :: (operandTokens a ps ++ f :: rest))) =
      .ok (e, front (done ++ [o] ++ operandTokens a ps) (f :: rest))) : ∀ p ∈ ps, p.op.kind = .OPEN_PAREN := by
  by_contra hall
  push Not at hall
  obtain ⟨ps₁, p, ps₂, rfl, hp, hbefore⟩ := Lib.Precedence.exists_first hall
  have hdash : power o - 1 = tables.bp .DASH - 1 := by rw [power, hd]
  have hlow : tables.bp p.op.kind ≤ power o - 1 := by
    refine le_of_le_of_eq ?_ hdash.symm
    rcases p.kind with h | h | h
    · rw [h]; decide
    · rw [h]; decide
    · exact absurd h hp
  have htokens : operandTokens a (ps₁ ++ p :: ps₂) ++ f :: rest =
      operandTokens a ps₁ ++ p.op :: (p.tail ++ postfixTokens ps₂ ++ f :: rest) := by
    simp [operandTokens, postfixTokens]
  have hread := parseBinaryExpr_operand ex a ps₁
    (fun q hq => lt_of_eq_of_lt hdash (by rw [not_not.mp (hbefore q hq)]; decide)) hlow done
    (p.tail ++ postfixTokens ps₂ ++ f :: rest) (n := N + (a.bound + postfixBound ps₁ + 2)) (by omega)
  rw [← htokens, h _ (Nat.le_add_right _ _)] at hread
  have hpos := congrArg (fun r => r.toOption.map fun x => x.2.pos) hread
  simp [Except.toOption, front, operandTokens, postfixTokens] at hpos

/-- Whatever stands in front of a binary operator, its right operand is the
primary behind it with all postfix operations there, unless the operator is a
minus sign and one of them is not a call. The operand of a prefix operator has
them always. -/
theorem postfix_tightest (a : Primary sc) (done rest : List Token) :
    (∀ (ex : Expression ν) (o : Token) (ps : List (Postfix sc (power o - 1))), tables.led o.kind = some .parseBinaryExpr →
      tables.bp f.kind ≤ power o - 1 →
      ((∃ N, ∀ n, N ≤ n → parseBinaryExpr (calls sc n) ex (front done (o :: (operandTokens a ps ++ f :: rest))) =
          .ok (.binary f.src ex o (operand a ps f), front (done ++ [o] ++ operandTokens a ps) (f :: rest))) ↔
        (o.kind = .DASH → ∀ p ∈ ps, p.op.kind = .OPEN_PAREN))) ∧
    (∀ (x : Primary sc) (o : Token) (ps : List (Postfix sc (power o - 1))), tables.led o.kind = some .parseBinaryExpr →
      (o.kind = .DASH → ∀ p ∈ ps, p.op.kind = .OPEN_PAREN) → tables.bp f.kind = 0 →
      Returns sc .defaultBp (front done (x.tokens ++ o :: (operandTokens a ps ++ f :: rest)))
        (.ok (.binary f.src (x.expr o.src) o (operand a ps f),
          front (done ++ x.tokens ++ [o] ++ operandTokens a ps) (f :: rest)))) ∧
    ∀ (o : Token) (ps : List (Postfix sc .unary)), tables.bp f.kind ≤ .unary →
      ∃ N, ∀ n, N ≤ n → parsePrefixExpr (calls sc n) (front done (o :: (operandTokens a ps ++ f :: rest))) =
        .ok (.prefixed f.src o (operand a ps f), front (done ++ [o] ++ operandTokens a ps) (f :: rest)) := by
  refine ⟨fun ex o ps ho hf => ⟨fun ⟨N, h⟩ hd => calls_of_dash ex a ps hd done rest h, fun hdash => ?_⟩, ?_, ?_⟩
  · exact ⟨_, fun n hn =>
      parseBinaryExpr_operand ex a ps (fun p hp => power_lt ho p fun hd => hdash hd p hp) hf done rest hn⟩
  · intro x o ps ho hdash hf
    refine ⟨x.bound + a.bound + postfixBound ps + 5, fun n hn => ?_⟩
    obtain ⟨n, rfl⟩ : ∃ k, n = k + 1 + 1 + 1 := ⟨n - 3, by omega⟩
    have hpos : BindingPower.defaultBp < tables.bp o.kind := power_pos ho
    rw [Primary.tokens, cons_append, parseExpr_nud x.nud x.handler, bind_ok _ (x.reads _ (by omega) done o _),
      extend_led ho hpos, ledHandler, bind_ok _ (parseBinaryExpr_operand _ a ps
        (fun p hp => power_lt ho p fun hd => hdash hd p hp) (hf ▸ Nat.zero_le _) _ rest (by omega))]
    exact extend_stop (hf ▸ Nat.zero_le _)
  · intro o ps hf
    have hps : ∀ p ∈ ps, BindingPower.unary < tables.bp p.op.kind := by
      intro p _
      rcases p.kind with h | h | h <;> rw [h] <;> decide
    refine ⟨a.bound + postfixBound ps + 2, fun n hn => ?_⟩
    rw [parsePrefixExpr, bind_ok _ move_front, calls_parseExpr, bind_ok _ (parseExpr_operand a ps hps hf _ rest (by omega)),
      bind_ok _ currentLoc_front]
    rfl

def name (value : String) : Primary someStrconv where
  first := tok .IDENTIFIER value
  tail := []
  nud := .parsePrimaryExpr
  expr := fun _ => .symbol place (ascii value)
  bound := 0
  handler := rfl
  reads := by
    intro n _ done f rest
    simp only [nudHandler, parsePrimaryExpr, nil_append]
    rw [bind_ok _ currentTokenKind_front]
    change (currentLoc >>= _) _ = _
    rw [bind_ok _ currentLoc_front, bind_ok _ move_front]
    rfl

def dot (property : String) (bp : BindingPower) : Postfix someStrconv bp where
  op := tok .DOT "."
  tail := [tok .IDENTIFIER property]
  led := .parseMemberExpr
  post := fun _ left => .member place left (ascii property)
  bound := 0
  handler := rfl
  kind := .inl rfl
  reads := by
    intro n _ left done f rest
    have hname : (tok .IDENTIFIER property).kind = .IDENTIFIER := rfl
    rw [ledHandler, parseMemberExpr, bind_ok _ move_front, if_neg (by decide), singleton_append,
      bind_ok _ currentLoc_front, bind_ok _ (expect_front hname)]
    simp only [append_assoc, singleton_append]
    rfl

/-- `x + a.f`. -/
theorem postfix_tightest_sum : Returns someStrconv .defaultBp
    (front [] [tok .IDENTIFIER "x", tok .PLUS "+", tok .IDENTIFIER "a", tok .DOT ".", tok .IDENTIFIER "f",
      tok .SEMI_COLON ";"])
    (.ok (.binary place (.symbol place (ascii "x")) (tok .PLUS "+") (.member place (.symbol place (ascii "a")) (ascii "f")),
      front [tok .IDENTIFIER "x", tok .PLUS "+", tok .IDENTIFIER "a", tok .DOT ".", tok .IDENTIFIER "f"]
        [tok .SEMI_COLON ";"])) :=
  (postfix_tightest (f := tok .SEMI_COLON ";") (name "a") [] []).2.1 (name "x") (tok .PLUS "+") [dot "f" _] rfl
    (fun h => absurd h (by decide)) rfl

/-- `x - a.f` is the member of a difference. -/
theorem minus_before_member : ∃ p, parseExpr someStrconv 8 .defaultBp (front [] [tok .IDENTIFIER "x", tok .DASH "-",
    tok .IDENTIFIER "a", tok .DOT ".", tok .IDENTIFIER "f", tok .SEMI_COLON ";"]) =
      .ok (.member place (.binary place (.symbol place (ascii "x")) (tok .DASH "-") (.symbol place (ascii "a"))) (ascii "f"), p) :=
  ⟨_, rfl⟩

end Operands

section Indices

variable {β : Type} {c : Calls ν} {m : Nat} {p p' : Parser} {e left : Expression ν} {es acc : List (Expression ν)}

/-- The next token does not bind tighter than `bp`. -/
def Low (bp : BindingPower) (p : Parser) : Prop := ∃ k, currentTokenKind p = .ok (k, p) ∧ tables.bp k ≤ bp

theorem low_front {t : Token} {done rest : List Token} (h : tables.bp t.kind ≤ bp) : Low bp (front done (t :: rest)) :=
  ⟨t.kind, currentTokenKind_front, h⟩

theorem low_close (h : currentTokenKind p = .ok (.CLOSE_BRACKET, p)) : Low .defaultBp p := ⟨_, h, Nat.le_refl _⟩

theorem kind_bind_eq_ok {f : TokenKind → Parse β} {b : β} (h : (currentTokenKind >>= f) p = .ok (b, p')) :
    ∃ t done rest, p = front done (t :: rest) ∧ f t.kind p = .ok (b, p') := by
  obtain ⟨k, q, hk, h⟩ := run_bind_eq_ok h
  rw [currentTokenKind] at hk
  split at hk
  · next t ht =>
    cases hk
    obtain ⟨hlt, rfl⟩ := List.getElem?_eq_some_iff.mp ht
    refine ⟨_, p.tokens.take p.pos, p.tokens.drop (p.pos + 1), ?_, h⟩
    simp [front, Nat.min_eq_left (Nat.le_of_lt hlt)]
  · cases hk

theorem expect_eq_ok {k : TokenKind} {t u : Token} {done rest : List Token}
    (h : expect k (front done (t :: rest)) = .ok (u, p')) : t.kind = k ∧ p' = front (done ++ [t]) rest := by
  rw [expect, run_bind_ok currentToken_front] at h
  split at h
  · cases h
  · next hk =>
    rw [move_front] at h
    cases h
    exact ⟨not_not.mp hk, rfl⟩

theorem currentLoc_eq_ok {l : SourceLoc} (h : currentLoc p = .ok (l, p')) : p' = p := by
  obtain ⟨t, q, ht, h⟩ := run_bind_eq_ok h
  rw [currentToken] at ht
  split at ht <;> cases ht
  cases h
  rfl

theorem parseIndices_iff : parseIndices c bp m acc p = .ok (es, p') ↔
    whileSep .COMMA (c.parseExpr bp) m acc p = .ok (es, p') ∧ currentTokenKind p' = .ok (.CLOSE_BRACKET, p') := by
  induction m generalizing acc p with
  | zero => exact ⟨fun h => (by cases h), fun h => (by cases h.1)⟩
  | succ m ih =>
    rw [parseIndices, whileSep]
    constructor
    · intro h
      obtain ⟨t, done, rest, rfl, h⟩ := kind_bind_eq_ok h
      rw [run_bind_ok currentTokenKind_front]
      split at h
      · next hclose =>
        cases h
        rw [if_neg (by rw [hclose]; decide)]
        exact ⟨rfl, hclose ▸ currentTokenKind_front⟩
      · obtain ⟨u, p1, hu, h⟩ := run_bind_eq_ok h
        obtain ⟨a, p2, ha, hrest⟩ := run_bind_eq_ok h
        obtain ⟨hcomma, rfl⟩ := expect_eq_ok hu
        rw [if_pos hcomma, run_bind_ok move_front, run_bind_ok ha]
        exact ih.mp hrest
    · rintro ⟨h, hend⟩
      obtain ⟨t, done, rest, rfl, h⟩ := kind_bind_eq_ok h
      rw [run_bind_ok currentTokenKind_front]
      split at h
      · next hcomma =>
        rw [run_bind_ok move_front] at h
        obtain ⟨a, p2, ha, h⟩ := run_bind_eq_ok h
        rw [if_neg (by rw [hcomma]; decide), run_bind_ok (expect_front hcomma), run_bind_ok ha]
        exact ih.mpr ⟨h, hend⟩
      · cases h
        have hclose : t.kind = .CLOSE_BRACKET :=
          congrArg Prod.fst (Except.ok.inj (currentTokenKind_front.symm.trans hend))
        rw [if_pos hclose]
        rfl

section Operators

def after {α : Type} (r : Except Stop (α × Parser)) (f : α → Parser → List TokenKind) : List TokenKind :=
  match r with
  | .ok (a, p) => f a p
  | .error _ => []

theorem after_ok {α : Type} {a : α} {r : Except Stop (α × Parser)} (h : r = .ok (a, p))
    (f : α → Parser → List TokenKind) : after r f = f a p := by
  rw [h]
  rfl

variable (c : Calls ν) (inner : Parser → List TokenKind)

def moreOperators : Nat → Parser → List TokenKind
  | 0, _ => []
  | m + 1, p => after (move p) fun t p₁ =>
      if t.kind = .COMMA then inner p₁ ++ after (c.parseExpr .defaultBp p₁) fun _ => moreOperators m else []

def listOperators (p : Parser) : List TokenKind :=
  inner p ++ after (c.parseExpr .defaultBp p) fun _ => moreOperators c inner c.fuel

def ledOperators (p : Parser) : LedHandler → List TokenKind
  | .parseAssignmentExpr => after (move p) fun _ => listOperators c inner
  | .parseRangeExpr => after (move p) fun _ => inner
  | .parseMemberExpr => after (move p) fun t p₁ => if t.kind = .OPEN_BRACKET then listOperators c inner p₁ else []
  | .parseBinaryExpr | .parseCallExpr => []

def loopOperators : Nat → Expression ν → Parser → List TokenKind
  | 0, _, _ => []
  | m + 1, left, p => after (currentTokenKind p) fun k _ =>
      match tables.led k with
      | some s =>
        if BindingPower.defaultBp < tables.bp k then
          k :: (ledOperators c inner p s ++ after (ledHandler c left .defaultBp s p) (loopOperators m))
        else []
      | none => []

/-- The operators that the loop of `parseExpr` meets at `p` with the power `default_bp`, and those that it meets
in the indices, range ends and assigned values of this loop. Operands of an operator and arguments have a power of
their own. -/
def operators (sc : Strconv ν) : Nat → Parser → List TokenKind
  | 0, _ => []
  | n + 1, p => after (currentTokenKind p) fun k _ =>
      match tables.nud k with
      | some s => after (nudHandler (calls sc n) s p) (loopOperators (calls sc n) (operators sc n) n)
      | none => []

end Operators

def Above (bp : BindingPower) (ks : List TokenKind) : Prop := ∀ k ∈ ks, bp < tables.bp k

instance (bp : BindingPower) (ks : List TokenKind) : Decidable (Above bp ks) :=
  inferInstanceAs (Decidable (∀ k ∈ ks, bp < tables.bp k))

theorem above_append {ks ks' : List TokenKind} : Above bp (ks ++ ks') ↔ Above bp ks ∧ Above bp ks' := forall_mem_append

/-- `f` reads with the power `bp` what `alone` reads with `default_bp`, as far as the operators `ks` are above `bp`. -/
structure Reads (bp : BindingPower) (alone f : Parse β) (ks : Parser → List TokenKind) : Prop where
  low : ∀ {p b p'}, f p = .ok (b, p') → Low bp p'
  same : ∀ {p b p'}, f p = .ok (b, p') → Low .defaultBp p' → alone p = .ok (b, p') ∧ Above bp (ks p)
  within : ∀ {p b p'}, alone p = .ok (b, p') → Above bp (ks p) → f p = .ok (b, p')

theorem assigned_end (h : (currentLoc >>= fun loc => match es with
    | [value] => pure (.assignment loc (some left) (some value) [] [])
    | values => pure (.assignment loc none none [left] values) : Parse (Expression ν)) p = .ok (e, p')) : p' = p := by
  obtain ⟨l, p3, hl, hend⟩ := run_bind_eq_ok h
  obtain rfl := currentLoc_eq_ok hl
  split at hend <;> cases hend <;> rfl

theorem extend_low (hp : Low bp p) (h : extend c bp m left p = .ok (e, p')) : p' = p := by
  obtain ⟨k, hk, hle⟩ := hp
  cases m with
  | zero => cases h
  | succ m =>
    rw [extend, run_bind_ok hk, if_neg (Nat.not_lt.mpr hle)] at h
    cases h
    rfl

theorem extend_eq_ok (h : extend c bp (m + 1) left p = .ok (e, p')) : ∃ t done rest, p = front done (t :: rest) ∧
    (tables.bp t.kind ≤ bp ∧ e = left ∧ p' = p ∨ ∃ s e₁ p₁, tables.led t.kind = some s ∧ bp < tables.bp t.kind ∧
      ledHandler c left bp s p = .ok (e₁, p₁) ∧ extend c bp m e₁ p₁ = .ok (e, p')) := by
  rw [extend] at h
  obtain ⟨t, done, rest, rfl, h⟩ := kind_bind_eq_ok h
  refine ⟨t, done, rest, rfl, ?_⟩
  split at h
  · next hlt =>
    cases hs : tables.led t.kind with
    | none =>
      rw [hs] at h
      obtain ⟨_, _, _, h⟩ := run_bind_eq_ok h
      cases h
    | some s =>
      rw [hs] at h
      obtain ⟨e₁, p₁, he, h⟩ := run_bind_eq_ok h
      exact .inr ⟨s, e₁, p₁, rfl, hlt, he, h⟩
  · next hnlt =>
    cases h
    exact .inl ⟨Nat.not_lt.mp hnlt, rfl, rfl⟩

theorem parseExpr_eq_ok {n : Nat} (h : parseExpr sc (n + 1) bp p = .ok (e, p')) : ∃ t done rest s e₁ p₁,
    p = front done (t :: rest) ∧ tables.nud t.kind = some s ∧ nudHandler (calls sc n) s p = .ok (e₁, p₁) ∧
      extend (calls sc n) bp n e₁ p₁ = .ok (e, p') := by
  obtain ⟨t, done, rest, rfl, h⟩ := kind_bind_eq_ok h
  cases hn : tables.nud t.kind with
  | none =>
    rw [hn] at h
    obtain ⟨_, _, _, h⟩ := run_bind_eq_ok h
    cases h
  | some s =>
    rw [hn] at h
    obtain ⟨e₁, p₁, he, h⟩ := run_bind_eq_ok h
    rw [calls_fuel] at h
    exact ⟨t, done, rest, s, e₁, p₁, rfl, hn, he, h⟩

section Loops

variable {inner : Parser → List TokenKind} {t : Token} {done rest : List Token} {s : LedHandler}

theorem pos_of_lt {k : TokenKind} (h : bp < tables.bp k) : BindingPower.defaultBp < tables.bp k :=
  Nat.lt_of_le_of_lt (Nat.zero_le _) h

theorem loopOperators_stop (h : tables.bp t.kind ≤ .defaultBp) :
    loopOperators c inner (m + 1) left (front done (t :: rest)) = [] := by
  rw [loopOperators, after_ok currentTokenKind_front]
  cases tables.led t.kind with
  | none => rfl
  | some s => exact if_neg (Nat.not_lt.mpr h)

theorem loopOperators_led (hs : tables.led t.kind = some s) (h : bp < tables.bp t.kind) :
    loopOperators c inner (m + 1) left (front done (t :: rest)) = t.kind ::
      (ledOperators c inner (front done (t :: rest)) s ++
        after (ledHandler c left .defaultBp s (front done (t :: rest))) (loopOperators c inner m)) := by
  rw [loopOperators, after_ok currentTokenKind_front, hs]
  exact if_pos (pos_of_lt h)

variable (hc : Reads bp (c.parseExpr .defaultBp) (c.parseExpr bp) inner)

include hc

theorem whileSep_same (h : whileSep .COMMA (c.parseExpr bp) m acc p = .ok (es, p')) (hp : Low bp p) :
    Low bp p' ∧ (Low .defaultBp p' → Low .defaultBp p ∧
      whileSep .COMMA (c.parseExpr .defaultBp) m acc p = .ok (es, p') ∧ Above bp (moreOperators c inner m p)) := by
  induction m generalizing acc p with
  | zero => cases h
  | succ m ih =>
    rw [whileSep] at h ⊢
    obtain ⟨t, done, rest, rfl, h⟩ := kind_bind_eq_ok h
    rw [run_bind_ok currentTokenKind_front, moreOperators, after_ok move_front]
    split at h
    · next hcomma =>
      rw [if_pos hcomma, if_pos hcomma]
      rw [run_bind_ok move_front] at h ⊢
      obtain ⟨a, p2, ha, h⟩ := run_bind_eq_ok h
      obtain ⟨hend, hrest⟩ := ih h (hc.low ha)
      refine ⟨hend, fun hp' => ⟨low_front (by rw [hcomma]; exact Nat.zero_le _), ?_⟩⟩
      obtain ⟨hlow', hrest, hmore⟩ := hrest hp'
      obtain ⟨hsame, habove⟩ := hc.same ha hlow'
      rw [run_bind_ok hsame, after_ok hsame]
      exact ⟨hrest, above_append.mpr ⟨habove, hmore⟩⟩
    · next hne =>
      cases h
      rw [if_neg hne, if_neg hne]
      exact ⟨hp, fun hp' => ⟨hp', rfl, forall_mem_nil _⟩⟩

theorem whileSep_within (h : whileSep .COMMA (c.parseExpr .defaultBp) m acc p = .ok (es, p'))
    (habove : Above bp (moreOperators c inner m p)) : whileSep .COMMA (c.parseExpr bp) m acc p = .ok (es, p') := by
  induction m generalizing acc p with
  | zero => cases h
  | succ m ih =>
    rw [whileSep] at h ⊢
    obtain ⟨t, done, rest, rfl, h⟩ := kind_bind_eq_ok h
    rw [moreOperators, after_ok move_front] at habove
    rw [run_bind_ok currentTokenKind_front]
    split at h
    · next hcomma =>
      rw [run_bind_ok move_front] at h
      obtain ⟨a, p2, ha, h⟩ := run_bind_eq_ok h
      rw [if_pos hcomma, after_ok ha, above_append] at habove
      rw [if_pos hcomma, run_bind_ok move_front, run_bind_ok (hc.within ha habove.1)]
      exact ih h habove.2
    · next hne =>
      rw [if_neg hne]
      exact h

theorem exprList_reads : Reads bp (exprList c .defaultBp) (exprList c bp) (listOperators c inner) where
  low := by
    intro p es p' h
    obtain ⟨a, p1, ha, h⟩ := run_bind_eq_ok h
    exact (whileSep_same hc h (hc.low ha)).1
  same := by
    intro p es p' h hp'
    obtain ⟨a, p1, ha, h⟩ := run_bind_eq_ok h
    obtain ⟨hlow, hrest, hmore⟩ := (whileSep_same hc h (hc.low ha)).2 hp'
    obtain ⟨hsame, habove⟩ := hc.same ha hlow
    rw [exprList, run_bind_ok hsame, listOperators, after_ok hsame]
    exact ⟨hrest, above_append.mpr ⟨habove, hmore⟩⟩
  within := by
    intro p es p' h habove
    obtain ⟨a, p1, ha, h⟩ := run_bind_eq_ok h
    rw [listOperators, after_ok ha, above_append] at habove
    rw [exprList, run_bind_ok (hc.within ha habove.1)]
    exact whileSep_within hc h habove.2

theorem parseMemberExpr_reads : parseMemberExpr c left bp p = .ok (e, p') ↔
    parseMemberExpr c left .defaultBp p = .ok (e, p') ∧ Above bp (ledOperators c inner p .parseMemberExpr) := by
  rw [parseMemberExpr, parseMemberExpr, ledOperators]
  constructor
  · intro h
    obtain ⟨t, p1, ht, h⟩ := run_bind_eq_ok h
    rw [run_bind_ok ht, after_ok ht]
    split at h
    · next hk =>
      obtain ⟨a, p2, ha, h⟩ := run_bind_eq_ok h
      obtain ⟨es, p3, hes, h⟩ := run_bind_eq_ok h
      obtain ⟨hwhile, hclose⟩ := parseIndices_iff.mp hes
      have hlist : exprList c bp p1 = .ok (es, p3) := by rw [exprList, run_bind_ok ha, hwhile]
      obtain ⟨hsame, habove⟩ := (exprList_reads hc).same hlist (low_close hclose)
      obtain ⟨a', p2', ha', hwhile'⟩ := run_bind_eq_ok hsame
      rw [if_pos hk, if_pos hk, run_bind_ok ha', run_bind_ok (parseIndices_iff.mpr ⟨hwhile', hclose⟩)]
      exact ⟨h, habove⟩
    · next hk =>
      rw [if_neg hk, if_neg hk]
      exact ⟨h, forall_mem_nil _⟩
  · rintro ⟨h, habove⟩
    obtain ⟨t, p1, ht, h⟩ := run_bind_eq_ok h
    rw [after_ok ht] at habove
    rw [run_bind_ok ht]
    split at h
    · next hk =>
      obtain ⟨a, p2, ha, h⟩ := run_bind_eq_ok h
      obtain ⟨es, p3, hes, h⟩ := run_bind_eq_ok h
      obtain ⟨hwhile, hclose⟩ := parseIndices_iff.mp hes
      have hlist : exprList c .defaultBp p1 = .ok (es, p3) := by rw [exprList, run_bind_ok ha, hwhile]
      rw [if_pos hk] at habove
      obtain ⟨a', p2', ha', hwhile'⟩ := run_bind_eq_ok ((exprList_reads hc).within hlist habove)
      rw [if_pos hk, run_bind_ok ha', run_bind_ok (parseIndices_iff.mpr ⟨hwhile', hclose⟩)]
      exact h
    · next hk =>
      rw [if_neg hk]
      exact h

/-- A handler that reads up to the end of the expression, or one that ends by itself. -/
theorem ledHandler_same (h : ledHandler c left bp s p = .ok (e, p')) (hp' : Low bp p' → Low .defaultBp p') :
    ledHandler c left .defaultBp s p = .ok (e, p') ∧ Above bp (ledOperators c inner p s) := by
  cases s with
  | parseBinaryExpr => exact ⟨h, forall_mem_nil _⟩
  | parseCallExpr => exact ⟨h, forall_mem_nil _⟩
  | parseMemberExpr => exact (parseMemberExpr_reads hc).mp h
  | parseAssignmentExpr =>
    rw [ledHandler, parseAssignmentExpr] at h ⊢
    obtain ⟨t, p1, ht, h⟩ := run_bind_eq_ok h
    obtain ⟨es, p2, hes, h⟩ := run_bind_eq_ok h
    obtain rfl := assigned_end h
    obtain ⟨hsame, habove⟩ := (exprList_reads hc).same hes (hp' ((exprList_reads hc).low hes))
    rw [run_bind_ok ht, run_bind_ok hsame, ledOperators, after_ok ht]
    exact ⟨h, habove⟩
  | parseRangeExpr =>
    rw [ledHandler, parseRangeExpr] at h ⊢
    obtain ⟨t, p1, ht, h⟩ := run_bind_eq_ok h
    obtain ⟨l, p2, hl, h⟩ := run_bind_eq_ok h
    obtain ⟨e', p3, he, h⟩ := run_bind_eq_ok h
    cases h
    obtain ⟨hsame, habove⟩ := hc.same he (hp' (hc.low he))
    obtain rfl := currentLoc_eq_ok hl
    rw [run_bind_ok ht, run_bind_ok hl, run_bind_ok hsame, ledOperators, after_ok ht]
    exact ⟨rfl, habove⟩

theorem ledHandler_within (h : ledHandler c left .defaultBp s p = .ok (e, p'))
    (habove : Above bp (ledOperators c inner p s)) : ledHandler c left bp s p = .ok (e, p') := by
  cases s with
  | parseBinaryExpr => exact h
  | parseCallExpr => exact h
  | parseMemberExpr => exact (parseMemberExpr_reads hc).mpr ⟨h, habove⟩
  | parseAssignmentExpr =>
    rw [ledHandler, parseAssignmentExpr] at h ⊢
    obtain ⟨t, p1, ht, h⟩ := run_bind_eq_ok h
    obtain ⟨es, p2, hes, h⟩ := run_bind_eq_ok h
    rw [ledOperators, after_ok ht] at habove
    rw [run_bind_ok ht, run_bind_ok ((exprList_reads hc).within hes habove)]
    exact h
  | parseRangeExpr =>
    rw [ledHandler, parseRangeExpr] at h ⊢
    obtain ⟨t, p1, ht, h⟩ := run_bind_eq_ok h
    obtain ⟨l, p2, hl, h⟩ := run_bind_eq_ok h
    obtain ⟨e', p3, he, hend⟩ := run_bind_eq_ok h
    obtain rfl := currentLoc_eq_ok hl
    rw [ledOperators, after_ok ht] at habove
    rw [run_bind_ok ht, run_bind_ok hl, run_bind_ok (hc.within he habove)]
    exact hend

theorem extend_reads (m : Nat) (left : Expression ν) :
    Reads bp (extend c .defaultBp m left) (extend c bp m left) (loopOperators c inner m left) := by
  induction m generalizing left with
  | zero => exact ⟨fun h => (by cases h), fun h => (by cases h), fun h => (by cases h)⟩
  | succ m ih =>
    constructor
    · intro p e p' h
      obtain ⟨t, done, rest, rfl, ⟨hle, rfl, rfl⟩ | ⟨s, e₁, p₁, -, -, -, h⟩⟩ := extend_eq_ok h
      · exact low_front hle
      · exact (ih e₁).low h
    · intro p e p' h hp'
      obtain ⟨t, done, rest, rfl, ⟨-, rfl, rfl⟩ | ⟨s, e₁, p₁, hs, hlt, he, h⟩⟩ := extend_eq_ok h
      · obtain ⟨k, hk, hle⟩ := hp'
        cases currentTokenKind_front.symm.trans hk
        rw [loopOperators_stop hle]
        exact ⟨extend_stop hle, forall_mem_nil _⟩
      · obtain ⟨hled, hops⟩ := ledHandler_same hc he fun hlow => extend_low hlow h ▸ hp'
        obtain ⟨hrest, hmore⟩ := (ih e₁).same h hp'
        rw [extend_led hs (pos_of_lt hlt), run_bind_ok hled, loopOperators_led hs hlt,
          after_ok hled]
        exact ⟨hrest, forall_mem_cons.mpr ⟨hlt, above_append.mpr ⟨hops, hmore⟩⟩⟩
    · intro p e p' h habove
      obtain ⟨t, done, rest, rfl, ⟨hle, rfl, rfl⟩ | ⟨s, e₁, p₁, hs, hlt, he, h⟩⟩ := extend_eq_ok h
      · exact extend_stop (Nat.le_trans hle (Nat.zero_le _))
      · rw [loopOperators_led hs hlt, after_ok he] at habove
        obtain ⟨habove, hrest⟩ := forall_mem_cons.mp habove
        obtain ⟨hops, hmore⟩ := above_append.mp hrest
        rw [extend_led hs habove, run_bind_ok (ledHandler_within hc he hops)]
        exact (ih e₁).within h hmore

end Loops

theorem operators_nud {n : Nat} {t : Token} {done rest : List Token} {s : NudHandler} (hs : tables.nud t.kind = some s)
    (h : nudHandler (calls sc n) s (front done (t :: rest)) = .ok (e, p)) :
    operators sc (n + 1) (front done (t :: rest)) = loopOperators (calls sc n) (operators sc n) n e p := by
  rw [operators, after_ok currentTokenKind_front, hs]
  exact after_ok h _

theorem parseExpr_reads (n : Nat) : Reads bp (parseExpr sc n .defaultBp) (parseExpr sc n bp) (operators sc n) := by
  induction n with
  | zero => exact ⟨fun h => (by cases h), fun h => (by cases h), fun h => (by cases h)⟩
  | succ n ih =>
    constructor
    · intro p e p' h
      obtain ⟨t, done, rest, s, e₁, p₁, rfl, -, -, h⟩ := parseExpr_eq_ok h
      exact (extend_reads ih n e₁).low h
    · intro p e p' h hp'
      obtain ⟨t, done, rest, s, e₁, p₁, rfl, hs, he, h⟩ := parseExpr_eq_ok h
      rw [parseExpr_nud s hs, run_bind_ok he, operators_nud hs he]
      exact (extend_reads ih n e₁).same h hp'
    · intro p e p' h habove
      obtain ⟨t, done, rest, s, e₁, p₁, rfl, hs, he, h⟩ := parseExpr_eq_ok h
      rw [operators_nud hs he] at habove
      rw [parseExpr_nud s hs, run_bind_ok he]
      exact (extend_reads ih n e₁).within h habove

/-- What is accepted alone is accepted with the power `bp` if and only if its operators bind tighter, and so is a
list of indices. What is accepted with `bp` up to a delimiter is read as it is alone, and arguments are read with
a power of their own. -/
theorem bracket_contents (sc : Strconv ν) (n : Nat) (bp : BindingPower) (p : Parser) (e : Expression ν) (p' : Parser) :
    (parseExpr sc n .defaultBp p = .ok (e, p') →
      (parseExpr sc n bp p = .ok (e, p') ↔ Above bp (operators sc n p))) ∧
    (∀ left, ledHandler (calls sc n) left .defaultBp .parseMemberExpr p = .ok (e, p') →
      (ledHandler (calls sc n) left bp .parseMemberExpr p = .ok (e, p') ↔
        Above bp (ledOperators (calls sc n) (operators sc n) p .parseMemberExpr))) ∧
    (parseExpr sc n bp p = .ok (e, p') → Low .defaultBp p' → parseExpr sc n .defaultBp p = .ok (e, p')) ∧
    ∀ (c : Calls ν) left bp', ledHandler c left bp .parseCallExpr = ledHandler c left bp' .parseCallExpr := by
  have hreads : Reads bp (parseExpr sc n .defaultBp) (parseExpr sc n bp) (operators sc n) := parseExpr_reads n
  refine ⟨fun h => ⟨fun hbp => (hreads.same hbp ?_).2, hreads.within h⟩, fun left h => ?_,
    fun h hp' => (hreads.same h hp').1, fun _ _ _ => rfl⟩
  · exact (parseExpr_reads n).low h
  · exact (parseMemberExpr_reads hreads).trans ⟨fun h => h.2, fun habove => ⟨h, habove⟩⟩

/-- The index of `x + a[i * j]`. -/
theorem bracket_contents_product : ∃ e p, parseExpr someStrconv 8 .defaultBp (front [] [tok .IDENTIFIER "i", tok .STAR "*",
    tok .IDENTIFIER "j", tok .CLOSE_BRACKET "]"]) = .ok (e, p) ∧
      parseExpr someStrconv 8 (.additive - 1) (front [] [tok .IDENTIFIER "i", tok .STAR "*", tok .IDENTIFIER "j",
        tok .CLOSE_BRACKET "]"]) = .ok (e, p) := by
  refine ⟨_, _, rfl, ((bracket_contents _ _ _ _ _ _).1 ?_).mpr ?_⟩
  · rfl
  · decide

/-- The index of `x + a[i < j]` is rejected. -/
theorem index_rejected : ∃ e p, parseExpr someStrconv 8 .defaultBp (front [] [tok .IDENTIFIER "i", tok .LESS "<",
    tok .IDENTIFIER "j", tok .CLOSE_BRACKET "]"]) = .ok (e, p) ∧
      parseExpr someStrconv 8 .defaultBp (front [] [tok .IDENTIFIER "x", tok .PLUS "+", tok .IDENTIFIER "a",
        tok .OPEN_BRACKET "[", tok .IDENTIFIER "i", tok .LESS "<", tok .IDENTIFIER "j", tok .CLOSE_BRACKET "]",
        tok .SEMI_COLON ";"]) = .error (.parserError "Expected comma but recieved less instead\n" place) :=
  ⟨_, _, rfl, rfl⟩

end Indices

end Picasso.Parsing.Postfixes
