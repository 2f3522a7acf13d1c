import Picasso.Parsing.Handlers

namespace Picasso.Parsing

open Lexing

variable {ν : Type} {sc : Strconv ν} {done rest : List Token} {f : Token} {bp n m : Nat}

/-- `parseExpr` comes back with `r`: more fuel makes no difference. -/
def Returns (sc : Strconv ν) (bp : BindingPower) (p : Parser) (r : Except Stop (Expression ν × Parser)) : Prop :=
  ∃ N, ∀ n, N ≤ n → parseExpr sc n bp p = r

theorem Returns.unique {p : Parser} {r r' : Except Stop (Expression ν × Parser)} (h : Returns sc bp p r)
    (h' : Returns sc bp p r') : r = r' := by
  obtain ⟨N, hN⟩ := h
  obtain ⟨N', hN'⟩ := h'
  rw [← hN (max N N') (Nat.le_max_left _ _), hN' (max N N') (Nat.le_max_right _ _)]

theorem calls_fuel (n : Nat) : (calls sc n).fuel = n := by
  cases n <;> rfl

theorem calls_strconv (n : Nat) : (calls sc n).strconv = sc := by
  cases n <;> rfl

theorem calls_parseExpr (n : Nat) (bp : BindingPower) : (calls sc n).parseExpr bp = parseExpr sc n bp := rfl

theorem extend_stop {c : Calls ν} {left : Expression ν} (h : tables.bp f.kind ≤ bp) :
    extend c bp (m + 1) left (front done (f :: rest)) = .ok (left, front done (f :: rest)) := by
  rw [extend, bind_ok _ currentTokenKind_front, if_neg (Nat.not_lt.mpr h)]
  rfl

theorem extend_led {c : Calls ν} {left : Expression ν} {led : LedHandler} (hled : tables.led f.kind = some led)
    (h : bp < tables.bp f.kind) : extend c bp (m + 1) left (front done (f :: rest)) =
      (ledHandler c left bp led >>= fun e => extend c bp m e) (front done (f :: rest)) := by
  rw [extend, bind_ok _ currentTokenKind_front, if_pos h]
  simp only [hled]

theorem parseExpr_nud (nud : NudHandler) (hnud : tables.nud f.kind = some nud) :
    parseExpr sc (n + 1) bp (front done (f :: rest)) =
      (nudHandler (calls sc n) nud >>= fun e => extend (calls sc n) bp n e) (front done (f :: rest)) := by
  rw [parseExpr, calls]
  simp only [parseExprBody, calls_fuel]
  rw [bind_ok _ currentTokenKind_front]
  simp only [hnud]

def Atomic (sc : Strconv ν) (t : Token) : Prop :=
  t.kind = .NUMBER ∨ t.kind = .IDENTIFIER ∨ t.kind = .NULL ∨ t.kind = .STRING ∧ (sc.unquote t.value).isSome

def Atom (sc : Strconv ν) (t : Token) (e : Expression ν) : Prop :=
  (t.kind = .NUMBER ∧ ∃ loc, e = .number loc (sc.parseFloat t.value)) ∨
    (t.kind = .IDENTIFIER ∧ ∃ loc, e = .symbol loc t.value) ∨
    (t.kind = .NULL ∧ ∃ loc, e = .null loc) ∨
    t.kind = .STRING ∧ ∃ loc v, sc.unquote t.value = some v ∧ e = .string loc v

theorem parseExpr_atom {t : Token} (h : Atomic sc t) (f : Token) (rest done : List Token) (bp : BindingPower) :
    ∃ e, Atom sc t e ∧ ∀ n, parseExpr sc (n + 1) bp (front done (t :: f :: rest)) =
      extend (calls sc n) bp n e (front (done ++ [t]) (f :: rest)) := by
  rcases h with h | h | h | ⟨h, hs⟩
  · refine ⟨.number f.src (sc.parseFloat t.value), .inl ⟨h, _, rfl⟩, fun n => ?_⟩
    rw [parseExpr_nud .parsePrimaryExpr (by rw [h]; rfl)]
    apply bind_ok
    simp only [nudHandler, parsePrimaryExpr]
    rw [bind_ok _ currentTokenKind_front, h]
    simp only
    rw [bind_ok _ move_front, bind_ok _ currentLoc_front, calls_strconv]
    rfl
  · refine ⟨.symbol t.src t.value, .inr (.inl ⟨h, _, rfl⟩), fun n => ?_⟩
    rw [parseExpr_nud .parsePrimaryExpr (by rw [h]; rfl)]
    apply bind_ok
    simp only [nudHandler, parsePrimaryExpr]
    rw [bind_ok _ currentTokenKind_front, h]
    simp only
    rw [bind_ok _ currentLoc_front, bind_ok _ move_front]
    rfl
  · refine ⟨.null f.src, .inr (.inr (.inl ⟨h, _, rfl⟩)), fun n => ?_⟩
    rw [parseExpr_nud .parseNullExpr (by rw [h]; rfl)]
    apply bind_ok
    simp only [nudHandler, parseNullExpr]
    rw [bind_ok _ (expect_front h), bind_ok _ currentLoc_front]
    rfl
  · obtain ⟨v, hv⟩ := Option.isSome_iff_exists.mp hs
    refine ⟨.string f.src v, .inr (.inr (.inr ⟨h, _, v, hv, rfl⟩)), fun n => ?_⟩
    rw [parseExpr_nud .parsePrimaryExpr (by rw [h]; rfl)]
    apply bind_ok
    simp only [nudHandler, parsePrimaryExpr]
    rw [bind_ok _ currentTokenKind_front, h]
    simp only
    rw [bind_ok _ move_front, calls_strconv]
    simp only [hv]
    rw [bind_ok _ currentLoc_front]
    rfl

theorem parseExpr_paren (bp : Nat) {o c : Token} {inner : List Token} {e : Expression ν} (ho : o.kind = .OPEN_PAREN)
    (hc : c.kind = .CLOSE_PAREN) (h : parseExpr sc n .defaultBp (front (done ++ [o]) (inner ++ c :: rest)) =
      .ok (e, front (done ++ [o] ++ inner) (c :: rest))) :
    parseExpr sc (n + 1) bp (front done (o :: (inner ++ c :: rest))) =
      extend (calls sc n) bp n e (front (done ++ o :: (inner ++ [c])) rest) := by
  rw [parseExpr_nud .parseGroupingExpr (by rw [ho]; rfl)]
  apply bind_ok
  simp only [nudHandler, parseGroupingExpr]
  rw [bind_ok _ (expect_front ho), calls_parseExpr, bind_ok _ h, bind_ok _ (expect_front hc)]
  simp only [List.append_assoc, List.cons_append, List.nil_append]
  rfl

def place : SourceLoc := ⟨"", 1, 1⟩

def token (kind : TokenKind) (value : Bytes) : Token := ⟨kind, value, place⟩

end Picasso.Parsing
