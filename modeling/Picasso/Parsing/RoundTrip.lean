import Picasso.Parsing.Steps

namespace Picasso.Parsing.RoundTrip

open Lexing List

variable {ν : Type} {sc : Strconv ν}

inductive Form (ν : Type)
  | number (value : ν)
  | string (value : Bytes)
  | symbol (value : Bytes)
  | null
  | prefixed (kind : TokenKind) (value : Bytes) (operand : Form ν)
  | binary (left : Form ν) (kind : TokenKind) (value : Bytes) (right : Form ν)
  | member (member : Form ν) (property : Bytes)
  | computed (member : Form ν) (indices : List (Form ν))
  | call (method : Form ν) (arguments : List (Form ν))

mutual

def form : Expression ν → Option (Form ν)
  | .number _ value => some (.number value)
  | .string _ value => some (.string value)
  | .symbol _ value => some (.symbol value)
  | .null _ => some .null
  | .prefixed _ operator operand => do return .prefixed operator.kind operator.value (← form operand)
  | .binary _ left operator right => do return .binary (← form left) operator.kind operator.value (← form right)
  | .member _ member property => do return .member (← form member) property
  | .computed _ member indices => do return .computed (← form member) (← forms indices)
  | .call _ method arguments => do return .call (← form method) (← forms arguments)
  | _ => none

def forms : List (Expression ν) → Option (List (Form ν))
  | [] => some []
  | e :: es => do return (← form e) :: (← forms es)

end

structure Wrap (ν : Type) where
  form : Form ν
  opening : Token
  inner : List Token
  closing : Token
  opens : opening.kind = .OPEN_PAREN
  closes : closing.kind = .CLOSE_PAREN

def Wrap.tokens (a : Wrap ν) : List Token := a.opening :: (a.inner ++ [a.closing])

structure Item (ν : Type) extends Wrap ν where
  comma : Token
  separates : comma.kind = .COMMA

def itemTokens (is : List (Item ν)) : List Token := is.flatMap fun i => i.comma :: i.tokens

def itemForms (is : List (Item ν)) : List (Form ν) := is.map fun i => i.form

/-- The printings of an expression with all its sub-expressions in parentheses. -/
inductive Printed (sc : Strconv ν) : Form ν → List Token → Prop
  | number (t : Token) (kind : t.kind = .NUMBER) : Printed sc (.number (sc.parseFloat t.value)) [t]
  | string (t : Token) (v : Bytes) (kind : t.kind = .STRING) (text : sc.unquote t.value = some v) :
    Printed sc (.string v) [t]
  | symbol (t : Token) (kind : t.kind = .IDENTIFIER) : Printed sc (.symbol t.value) [t]
  | null (t : Token) (kind : t.kind = .NULL) : Printed sc .null [t]
  | prefixed (op : Token) (a : Wrap ν) (kind : tables.nud op.kind = some .parsePrefixExpr)
    (ha : Printed sc a.form a.inner) :
      Printed sc (.prefixed op.kind op.value a.form) (op :: a.tokens)
  | binary (a : Wrap ν) (op : Token) (b : Wrap ν) (kind : tables.led op.kind = some .parseBinaryExpr)
      (ha : Printed sc a.form a.inner) (hb : Printed sc b.form b.inner) :
      Printed sc (.binary a.form op.kind op.value b.form) (a.tokens ++ op :: b.tokens)
  | member (a : Wrap ν) (dot id : Token) (hdot : dot.kind = .DOT) (hid : id.kind = .IDENTIFIER)
      (ha : Printed sc a.form a.inner) : Printed sc (.member a.form id.value) (a.tokens ++ [dot, id])
  | computed (a : Wrap ν) (lb : Token) (i : Wrap ν) (is : List (Item ν)) (rb : Token) (hlb : lb.kind = .OPEN_BRACKET)
      (hrb : rb.kind = .CLOSE_BRACKET) (ha : Printed sc a.form a.inner) (hi : Printed sc i.form i.inner)
      (his : ∀ j ∈ is, Printed sc j.form j.inner) :
      Printed sc (.computed a.form (i.form :: itemForms is)) (a.tokens ++ lb :: (i.tokens ++ itemTokens is ++ [rb]))
  | callNone (a : Wrap ν) (lp rp : Token) (hlp : lp.kind = .OPEN_PAREN) (hrp : rp.kind = .CLOSE_PAREN)
      (ha : Printed sc a.form a.inner) : Printed sc (.call a.form []) (a.tokens ++ [lp, rp])
  | call (a : Wrap ν) (lp : Token) (i : Wrap ν) (is : List (Item ν)) (rp : Token) (hlp : lp.kind = .OPEN_PAREN)
      (hrp : rp.kind = .CLOSE_PAREN) (ha : Printed sc a.form a.inner) (hi : Printed sc i.form i.inner)
      (his : ∀ j ∈ is, Printed sc j.form j.inner) :
      Printed sc (.call a.form (i.form :: itemForms is)) (a.tokens ++ lp :: (i.tokens ++ itemTokens is ++ [rp]))

/-- Parsing the tokens in front of a token that ends every expression gives the form back. -/
def Reads (sc : Strconv ν) (e : Form ν) (ts : List Token) : Prop :=
  ∀ (done rest : List Token) (f : Token), tables.bp f.kind = 0 → ∃ e', form e' = some e ∧ ∀ n, ts.length < n →
    parseExpr sc n .defaultBp (front done (ts ++ f :: rest)) = .ok (e', front (done ++ ts) (f :: rest))

theorem Wrap.length_tokens (a : Wrap ν) : a.tokens.length = a.inner.length + 2 := by
  simp [Wrap.tokens]

variable {a i : Wrap ν} {t op rb c rp lp : Token} {e : Form ν} {ts done : List Token} {is : List (Item ν)}
  {close : TokenKind}

theorem parseExpr_wrap (ha : Reads sc a.form a.inner) (bp : BindingPower) (done rest : List Token) :
    ∃ e', form e' = some a.form ∧ ∀ n, a.inner.length < n → parseExpr sc (n + 1) bp (front done (a.tokens ++ rest)) =
        extend (calls sc n) bp n e' (front (done ++ a.tokens) rest) := by
  obtain ⟨e', he, hp⟩ := ha (done ++ [a.opening]) rest a.closing (by rw [a.closes]; rfl)
  refine ⟨e', he, fun n hn => ?_⟩
  have := parseExpr_paren bp a.opens a.closes (hp n hn)
  simpa only [Wrap.tokens, cons_append, append_assoc, nil_append] using this

theorem parseExpr_operand (ha : Reads sc a.form a.inner) (bp : BindingPower) {f : Token} (hf : tables.bp f.kind ≤ bp)
    (done rest : List Token) : ∃ e', form e' = some a.form ∧ ∀ n, a.tokens.length ≤ n →
      parseExpr sc n bp (front done (a.tokens ++ f :: rest)) = .ok (e', front (done ++ a.tokens) (f :: rest)) := by
  obtain ⟨e', he, hp⟩ := parseExpr_wrap ha bp done (f :: rest)
  refine ⟨e', he, fun n hn => ?_⟩
  rw [Wrap.length_tokens] at hn
  obtain ⟨n, rfl⟩ : ∃ k, n = k + 1 + 1 := ⟨n - 2, by omega⟩
  rw [hp (n + 1) (by omega), extend_stop hf]

theorem reads_atom (ht : Atomic sc t) (he : ∀ e', Atom sc t e' → form e' = some e) : Reads sc e [t] := by
  intro done rest f hf
  obtain ⟨e', hat, hp⟩ := parseExpr_atom ht f rest done .defaultBp
  refine ⟨e', he e' hat, fun n hn => ?_⟩
  rw [length_singleton] at hn
  obtain ⟨n, rfl⟩ : ∃ k, n = k + 1 + 1 := ⟨n - 2, by omega⟩
  rw [singleton_append, hp, extend_stop (hf ▸ Nat.zero_le _)]

theorem reads_prefixed (kind : tables.nud op.kind = some .parsePrefixExpr) (ha : Reads sc a.form a.inner) :
    Reads sc (.prefixed op.kind op.value a.form) (op :: a.tokens) := by
  intro done rest f hf
  obtain ⟨e', he, hp⟩ := parseExpr_operand ha .unary (f := f) (hf ▸ Nat.zero_le _) (done ++ [op]) rest
  refine ⟨.prefixed f.src op e', by simp [form, he], fun n hn => ?_⟩
  have hlen := a.length_tokens
  rw [length_cons] at hn
  obtain ⟨n, rfl⟩ : ∃ k, n = k + 1 + 1 := ⟨n - 2, by omega⟩
  have hnud : nudHandler (calls sc (n + 1)) .parsePrefixExpr (front done (op :: (a.tokens ++ f :: rest))) =
      .ok (.prefixed f.src op e', front (done ++ op :: a.tokens) (f :: rest)) := by
    simp only [nudHandler, parsePrefixExpr]
    rw [bind_ok _ move_front, calls_parseExpr, bind_ok _ (hp (n + 1) (by omega)), bind_ok _ currentLoc_front]
    simp
    rfl
  rw [cons_append, parseExpr_nud _ kind, bind_ok _ hnud, extend_stop (hf ▸ Nat.zero_le _)]

theorem reads_led (led : LedHandler) {g : Token} (ha : Reads sc a.form a.inner) (hled : tables.led g.kind = some led)
    (hg : .defaultBp < tables.bp g.kind)
    (hrun : ∀ e0, form e0 = some a.form → ∀ (done rest : List Token) (f : Token), tables.bp f.kind = 0 →
      ∃ e', form e' = some e ∧ ∀ n, ts.length < n → ledHandler (calls sc n) e0 .defaultBp led
        (front done (g :: (ts ++ f :: rest))) = .ok (e', front (done ++ g :: ts) (f :: rest))) :
    Reads sc e (a.tokens ++ g :: ts) := by
  intro done rest f hf
  obtain ⟨e0, he0, hp⟩ := parseExpr_wrap ha .defaultBp done (g :: (ts ++ f :: rest))
  obtain ⟨e', he', hr⟩ := hrun e0 he0 (done ++ a.tokens) rest f hf
  refine ⟨e', he', fun n hn => ?_⟩
  rw [length_append, a.length_tokens, length_cons] at hn
  obtain ⟨n, rfl⟩ : ∃ k, n = k + 1 + 1 + 1 := ⟨n - 3, by omega⟩
  rw [append_assoc, cons_append, hp _ (by omega), extend_led hled hg, bind_ok _ (hr _ (by omega)),
    extend_stop (hf ▸ Nat.zero_le _), append_assoc]

theorem reads_binary {b : Wrap ν} (kind : tables.led op.kind = some .parseBinaryExpr) (ha : Reads sc a.form a.inner)
    (hb : Reads sc b.form b.inner) :
    Reads sc (.binary a.form op.kind op.value b.form) (a.tokens ++ op :: b.tokens) := by
  have hpos : ∀ k : TokenKind, tables.led k = some .parseBinaryExpr → 0 < tables.bp k := by
    intro k
    cases k <;> decide
  refine reads_led _ ha kind (hpos _ kind) fun e0 he0 done rest f hf => ?_
  obtain ⟨e', he', hp⟩ := parseExpr_operand hb (tables.bp op.kind - 1) (f := f) (hf ▸ Nat.zero_le _) (done ++ [op]) rest
  refine ⟨.binary f.src e0 op e', by simp [form, he0, he'], fun n hn => ?_⟩
  simp only [ledHandler, parseBinaryExpr]
  rw [bind_ok _ move_front, calls_parseExpr, bind_ok _ (hp n (by omega)), bind_ok _ currentLoc_front]
  simp only [append_assoc, singleton_append]
  rfl

theorem reads_member {dot id : Token} (hdot : dot.kind = .DOT) (hid : id.kind = .IDENTIFIER)
    (ha : Reads sc a.form a.inner) : Reads sc (.member a.form id.value) (a.tokens ++ [dot, id]) := by
  refine reads_led .parseMemberExpr ha (by rw [hdot]; rfl) (by rw [hdot]; decide) fun e0 he0 done rest f hf => ?_
  refine ⟨.member id.src e0 id.value, by simp [form, he0], fun n hn => ?_⟩
  simp only [ledHandler, parseMemberExpr]
  rw [bind_ok _ move_front, if_neg (by rw [hdot]; decide), singleton_append, bind_ok _ currentLoc_front,
    bind_ok _ (expect_front hid)]
  simp only [append_assoc, singleton_append]
  rfl

theorem itemTokens_cons (i : Item ν) (is : List (Item ν)) :
    itemTokens (i :: is) = i.comma :: (i.tokens ++ itemTokens is) := rfl

theorem items_next (is : List (Item ν)) (rb : Token) (hrb : tables.bp rb.kind = 0) (rest : List Token) :
    ∃ g tl, itemTokens is ++ rb :: rest = g :: tl ∧ tables.bp g.kind = 0 := by
  cases is with
  | nil => exact ⟨rb, rest, rfl, hrb⟩
  | cons j is => exact ⟨j.comma, _, rfl, by rw [j.separates]; rfl⟩

theorem length_le_items (is : List (Item ν)) : is.length ≤ (itemTokens is).length := by
  induction is with
  | nil => exact Nat.le_refl _
  | cons i is ih =>
    rw [itemTokens_cons, length_cons, length_cons, length_append]
    omega

theorem parseIndices_items (his : ∀ i ∈ is, Reads sc i.form i.inner) (hrb : rb.kind = .CLOSE_BRACKET)
    (acc : List (Expression ν)) (done rest : List Token) :
    ∃ es, forms es = some (itemForms is) ∧ ∀ n m, (itemTokens is).length ≤ n → is.length < m →
      parseIndices (calls sc n) .defaultBp m acc (front done (itemTokens is ++ rb :: rest)) =
        .ok (acc ++ es, front (done ++ itemTokens is) (rb :: rest)) := by
  induction is generalizing acc done with
  | nil =>
    refine ⟨[], rfl, fun n m _ hm => ?_⟩
    obtain ⟨m, rfl⟩ : ∃ k, m = k + 1 := ⟨m - 1, by simp at hm; omega⟩
    simp only [itemTokens, flatMap_nil, nil_append, append_nil, parseIndices]
    rw [bind_ok _ currentTokenKind_front, if_pos hrb]
    rfl
  | cons i is ih =>
    obtain ⟨hi, his⟩ := forall_mem_cons.mp his
    obtain ⟨g, tl, hg, hg0⟩ := items_next is rb (by rw [hrb]; rfl) rest
    obtain ⟨e, he, hp⟩ := parseExpr_operand hi .defaultBp (f := g) (hg0 ▸ Nat.zero_le _) (done ++ [i.comma]) tl
    obtain ⟨es, hes, hr⟩ := ih his (acc ++ [e]) (done ++ [i.comma] ++ i.tokens)
    refine ⟨e :: es, by simp [forms, he, hes, itemForms], fun n m hn hm => ?_⟩
    rw [itemTokens_cons, length_cons, length_append] at hn
    rw [length_cons] at hm
    obtain ⟨m, rfl⟩ : ∃ k, m = k + 1 := ⟨m - 1, by omega⟩
    rw [itemTokens_cons, cons_append, append_assoc, parseIndices, bind_ok _ currentTokenKind_front,
      if_neg (by rw [i.separates]; decide), bind_ok _ (expect_front i.separates),
      calls_parseExpr, hg, bind_ok _ (hp n (by omega)), ← hg, hr n m (by omega) (by omega)]
    simp

theorem reads_computed {lb : Token} (hlb : lb.kind = .OPEN_BRACKET) (hrb : rb.kind = .CLOSE_BRACKET)
    (ha : Reads sc a.form a.inner) (hi : Reads sc i.form i.inner) (his : ∀ j ∈ is, Reads sc j.form j.inner) :
    Reads sc (.computed a.form (i.form :: itemForms is)) (a.tokens ++ lb :: (i.tokens ++ itemTokens is ++ [rb])) := by
  refine reads_led .parseMemberExpr ha (by rw [hlb]; rfl) (by rw [hlb]; decide) fun e0 he0 done rest f hf => ?_
  obtain ⟨g, tl, hg, hg0⟩ := items_next is rb (by rw [hrb]; rfl) (f :: rest)
  obtain ⟨e, he, hp⟩ := parseExpr_operand hi .defaultBp (f := g) (hg0 ▸ Nat.zero_le _) (done ++ [lb]) tl
  obtain ⟨es, hes, hr⟩ := parseIndices_items his hrb [e] (done ++ [lb] ++ i.tokens) (f :: rest)
  refine ⟨.computed f.src e0 (e :: es), by simp [form, forms, he0, he, hes], fun n hn => ?_⟩
  have hlen := length_le_items is
  simp only [length_append, length_singleton] at hn
  simp only [ledHandler, parseMemberExpr, append_assoc, singleton_append]
  rw [bind_ok _ move_front, if_pos hlb, calls_parseExpr, hg, bind_ok _ (hp n (by omega)), ← hg, calls_fuel,
    bind_ok _ (hr n n (by omega) (by omega)), bind_ok _ (expect_front hrb), bind_ok _ currentLoc_front]
  simp only [append_assoc, singleton_append]
  rfl

theorem inside_front (h : t.kind ≠ .EOF) :
    inside close (front done (t :: ts)) = .ok (decide (t.kind ≠ close), front done (t :: ts)) := by
  rw [inside, bind_ok _ (hasTokens_front h), if_pos rfl, bind_ok _ currentTokenKind_front]
  rfl

theorem whileInside_end {α : Type} {item : Parse α} {m : Nat} {acc : List α} (h : t.kind ≠ .EOF) :
    whileInside t.kind item (m + 1) acc (front done (t :: ts)) = .ok (acc, front done (t :: ts)) := by
  rw [whileInside, bind_ok _ (inside_front h), if_neg (by simp)]
  rfl

theorem whileInside_next {α : Type} {item : Parse α} {m : Nat} {acc : List α} (h : t.kind ≠ .EOF) (hc : t.kind ≠ close)
    {a : α} {p : Parser} (hitem : item (front done (t :: ts)) = .ok (a, p)) :
    whileInside close item (m + 1) acc (front done (t :: ts)) = whileInside close item m (acc ++ [a]) p := by
  rw [whileInside, bind_ok _ (inside_front h), if_pos (by simpa using hc), bind_ok _ hitem]

theorem parseElement_last (hi : Reads sc i.form i.inner) (bp : BindingPower) (hc : tables.bp c.kind = 0)
    (done rest : List Token) : ∃ e, form e = some i.form ∧ ∀ n, i.tokens.length ≤ n →
      parseElement (calls sc n) bp c.kind (front done (i.tokens ++ c :: rest)) =
        .ok (e, front (done ++ i.tokens) (c :: rest)) := by
  obtain ⟨e, he, hp⟩ := parseExpr_operand hi bp (f := c) (hc ▸ Nat.zero_le _) done rest
  refine ⟨e, he, fun n hn => ?_⟩
  rw [parseElement, calls_parseExpr, bind_ok _ (hp n hn), bind_ok _ currentToken_front,
    if_neg (by simp [Token.isOneOfMany])]
  rfl

theorem parseElement_next (hi : Reads sc i.form i.inner) (bp : BindingPower) (hc : c.kind = .COMMA)
    (hclose : close ≠ .COMMA) (done rest : List Token) : ∃ e, form e = some i.form ∧ ∀ n, i.tokens.length ≤ n →
      parseElement (calls sc n) bp close (front done (i.tokens ++ c :: rest)) =
        .ok (e, front (done ++ i.tokens ++ [c]) rest) := by
  obtain ⟨e, he, hp⟩ := parseExpr_operand hi bp (f := c) (by rw [hc]; exact Nat.zero_le _) done rest
  refine ⟨e, he, fun n hn => ?_⟩
  rw [parseElement, calls_parseExpr, bind_ok _ (hp n hn), bind_ok _ currentToken_front,
    if_pos (by simp [Token.isOneOfMany, hc, hclose.symm]), bind_ok _ (expect_front hc)]
  rfl

theorem whileInside_items (hi : Reads sc i.form i.inner) (his : ∀ i ∈ is, Reads sc i.form i.inner)
    (hrp : rp.kind = .CLOSE_PAREN) (acc : List (Expression ν)) (done rest : List Token) :
    ∃ es, forms es = some (i.form :: itemForms is) ∧ ∀ n m, (i.tokens ++ itemTokens is).length ≤ n → is.length + 1 < m →
      whileInside .CLOSE_PAREN (parseElement (calls sc n) .assignment .CLOSE_PAREN) m acc
        (front done (i.tokens ++ (itemTokens is ++ rp :: rest))) =
        .ok (acc ++ es, front (done ++ i.tokens ++ itemTokens is) (rp :: rest)) := by
  have hopen : ∀ a : Wrap ν, a.opening.kind ≠ .EOF ∧ a.opening.kind ≠ .CLOSE_PAREN := by
    intro a
    rw [a.opens]
    decide
  induction is generalizing i acc done with
  | nil =>
    obtain ⟨e, he, hp⟩ := parseElement_last hi .assignment (c := rp) (by rw [hrp]; rfl) done rest
    refine ⟨[e], by simp [forms, he, itemForms], fun n m hn hm => ?_⟩
    obtain ⟨m, rfl⟩ : ∃ k, m = k + 1 + 1 := ⟨m - 2, by simp at hm; omega⟩
    simp only [itemTokens, flatMap_nil, append_nil, nil_append] at hn ⊢
    have hp := hp n hn
    rw [hrp] at hp
    rw [Wrap.tokens, cons_append] at hp ⊢
    rw [whileInside_next (hopen i).1 (hopen i).2 hp, ← hrp, whileInside_end (by rw [hrp]; decide)]
  | cons j is ih =>
    obtain ⟨hj, his⟩ := forall_mem_cons.mp his
    obtain ⟨e, he, hp⟩ := parseElement_next hi .assignment j.separates
      (show TokenKind.CLOSE_PAREN ≠ .COMMA by decide) done
      (j.tokens ++ (itemTokens is ++ rp :: rest))
    obtain ⟨es, hes, hr⟩ := ih hj his (acc ++ [e]) (done ++ i.tokens ++ [j.comma])
    refine ⟨e :: es, by simp [forms, he, hes, itemForms], fun n m hn hm => ?_⟩
    rw [itemTokens_cons, length_append, length_cons] at hn
    rw [length_cons] at hm
    obtain ⟨m, rfl⟩ : ∃ k, m = k + 1 := ⟨m - 1, by omega⟩
    have hp := hp n (by omega)
    rw [itemTokens_cons, cons_append, append_assoc]
    nth_rewrite 1 [Wrap.tokens] at hp ⊢
    rw [cons_append] at hp ⊢
    rw [whileInside_next (hopen i).1 (hopen i).2 hp, hr n m (by omega) (by omega)]
    simp

theorem reads_callNone (hlp : lp.kind = .OPEN_PAREN) (hrp : rp.kind = .CLOSE_PAREN) (ha : Reads sc a.form a.inner) :
    Reads sc (.call a.form []) (a.tokens ++ [lp, rp]) := by
  refine reads_led .parseCallExpr ha (by rw [hlp]; rfl) (by rw [hlp]; decide) fun e0 he0 done rest f hf => ?_
  refine ⟨.call f.src e0 [], by simp [form, forms, he0], fun n hn => ?_⟩
  obtain ⟨n, rfl⟩ : ∃ k, n = k + 1 := ⟨n - 1, by omega⟩
  simp only [ledHandler, parseCallExpr, singleton_append, calls_fuel]
  rw [bind_ok _ move_front, ← hrp, bind_ok _ (whileInside_end (by rw [hrp]; decide)), bind_ok _ (expect_front rfl),
    bind_ok _ currentLoc_front]
  simp only [append_assoc, singleton_append]
  rfl

theorem reads_call (hlp : lp.kind = .OPEN_PAREN) (hrp : rp.kind = .CLOSE_PAREN) (ha : Reads sc a.form a.inner)
    (hi : Reads sc i.form i.inner) (his : ∀ j ∈ is, Reads sc j.form j.inner) :
    Reads sc (.call a.form (i.form :: itemForms is)) (a.tokens ++ lp :: (i.tokens ++ itemTokens is ++ [rp])) := by
  refine reads_led .parseCallExpr ha (by rw [hlp]; rfl) (by rw [hlp]; decide) fun e0 he0 done rest f hf => ?_
  obtain ⟨es, hes, hr⟩ := whileInside_items hi his hrp [] (done ++ [lp]) (f :: rest)
  refine ⟨.call f.src e0 es, by simp [form, he0, hes], fun n hn => ?_⟩
  have hlen := length_le_items is
  have hi2 := i.length_tokens
  simp only [length_append, length_singleton] at hn
  simp only [ledHandler, parseCallExpr, append_assoc, singleton_append, calls_fuel]
  rw [bind_ok _ move_front, bind_ok _ (hr n n (by rw [length_append]; omega) (by omega)),
    bind_ok _ (expect_front hrp),
    bind_ok _ currentLoc_front]
  simp only [append_assoc, singleton_append, nil_append]
  rfl

theorem atom_form {e : Expression ν} (h : Atom sc t e) :
    (t.kind = .NUMBER → form e = some (.number (sc.parseFloat t.value))) ∧
      (t.kind = .IDENTIFIER → form e = some (.symbol t.value)) ∧ (t.kind = .NULL → form e = some .null) ∧
      (t.kind = .STRING → form e = (sc.unquote t.value).map .string) := by
  rcases h with ⟨h, loc, rfl⟩ | ⟨h, loc, rfl⟩ | ⟨h, loc, rfl⟩ | ⟨h, loc, v, hv, rfl⟩
  · simp [h, form]
  · simp [h, form]
  · simp [h, form]
  · simp [h, form, hv]

theorem reads_printed (h : Printed sc e ts) : Reads sc e ts := by
  induction h with
  | number t kind => exact reads_atom (.inl kind) fun e' h => (atom_form h).1 kind
  | string t v kind text =>
    refine reads_atom (.inr (.inr (.inr ⟨kind, by simp [text]⟩))) fun e' h => ?_
    rw [(atom_form h).2.2.2 kind, text, Option.map_some]
  | symbol t kind => exact reads_atom (.inr (.inl kind)) fun e' h => (atom_form h).2.1 kind
  | null t kind => exact reads_atom (.inr (.inr (.inl kind))) fun e' h => (atom_form h).2.2.1 kind
  | prefixed op a kind ha iha => exact reads_prefixed kind iha
  | binary a op b kind ha hb iha ihb => exact reads_binary kind iha ihb
  | member a dot id hdot hid ha iha => exact reads_member hdot hid iha
  | computed a lb i is rb hlb hrb ha hi his iha ihi ihis => exact reads_computed hlb hrb iha ihi ihis
  | callNone a lp rp hlp hrp ha iha => exact reads_callNone hlp hrp iha
  | call a lp i is rp hlp hrp ha hi his iha ihi ihis => exact reads_call hlp hrp iha ihi ihis

/-- The expressions that can be written: their numbers and strings are values
of literals, their operators are operators, and there is at least one index. -/
inductive Expressible (sc : Strconv ν) : Form ν → Prop
  | number (text : Bytes) : Expressible sc (.number (sc.parseFloat text))
  | string (text v : Bytes) (h : sc.unquote text = some v) : Expressible sc (.string v)
  | symbol (name : Bytes) : Expressible sc (.symbol name)
  | null : Expressible sc .null
  | prefixed {kind : TokenKind} {value : Bytes} {e : Form ν} (h : tables.nud kind = some .parsePrefixExpr)
      (he : Expressible sc e) : Expressible sc (.prefixed kind value e)
  | binary {l r : Form ν} {kind : TokenKind} {value : Bytes} (h : tables.led kind = some .parseBinaryExpr)
      (hl : Expressible sc l) (hr : Expressible sc r) : Expressible sc (.binary l kind value r)
  | member {e : Form ν} {property : Bytes} (he : Expressible sc e) : Expressible sc (.member e property)
  | computed {e i : Form ν} {is : List (Form ν)} (he : Expressible sc e) (hi : Expressible sc i)
      (his : ∀ j ∈ is, Expressible sc j) : Expressible sc (.computed e (i :: is))
  | call {e : Form ν} {as : List (Form ν)} (he : Expressible sc e) (has : ∀ a ∈ as, Expressible sc a) :
      Expressible sc (.call e as)

def wrap (e : Form ν) (ts : List Token) : Wrap ν := ⟨e, token .OPEN_PAREN [], ts, token .CLOSE_PAREN [], rfl, rfl⟩

theorem exists_items {is : List (Form ν)} (h : ∀ i ∈ is, ∃ ts, Printed sc i ts) :
    ∃ items, itemForms items = is ∧ ∀ j ∈ items, Printed sc j.form j.inner := by
  induction is with
  | nil => exact ⟨[], rfl, by simp⟩
  | cons i is ih =>
    obtain ⟨⟨ts, hi⟩, his⟩ := forall_mem_cons.mp h
    obtain ⟨items, rfl, hitems⟩ := ih his
    exact ⟨⟨wrap i ts, token .COMMA [], rfl⟩ :: items, rfl, forall_mem_cons.mpr ⟨hi, hitems⟩⟩

theorem exists_printed (h : Expressible sc e) : ∃ ts, Printed sc e ts := by
  induction h with
  | number text => exact ⟨_, .number (token .NUMBER text) rfl⟩
  | string text v h => exact ⟨_, .string (token .STRING text) v rfl h⟩
  | symbol name => exact ⟨_, .symbol (token .IDENTIFIER name) rfl⟩
  | null => exact ⟨_, .null (token .NULL []) rfl⟩
  | @prefixed kind value e h he ih =>
    obtain ⟨ts, hts⟩ := ih
    exact ⟨_, .prefixed (token kind value) (wrap e ts) h hts⟩
  | @binary l r kind value h hl hr ihl ihr =>
    obtain ⟨ls, hls⟩ := ihl
    obtain ⟨rs, hrs⟩ := ihr
    exact ⟨_, .binary (wrap l ls) (token kind value) (wrap r rs) h hls hrs⟩
  | @member e property he ih =>
    obtain ⟨ts, hts⟩ := ih
    exact ⟨_, .member (wrap e ts) (token .DOT []) (token .IDENTIFIER property) rfl rfl hts⟩
  | @computed e i is he hi his ihe ihi ihis =>
    obtain ⟨ts, hts⟩ := ihe
    obtain ⟨us, hus⟩ := ihi
    obtain ⟨items, rfl, hitems⟩ := exists_items ihis
    exact ⟨_, .computed (wrap e ts) (token .OPEN_BRACKET []) (wrap i us) items
      (token .CLOSE_BRACKET []) rfl rfl hts hus hitems⟩
  | @call e as he has ihe ihas =>
    obtain ⟨ts, hts⟩ := ihe
    cases as with
    | nil => exact ⟨_, .callNone (wrap e ts) (token .OPEN_PAREN []) (token .CLOSE_PAREN []) rfl rfl hts⟩
    | cons i is =>
      obtain ⟨⟨us, hus⟩, his⟩ := forall_mem_cons.mp ihas
      obtain ⟨items, rfl, hitems⟩ := exists_items his
      exact ⟨_, .call (wrap e ts) (token .OPEN_PAREN []) (wrap i us) items
        (token .CLOSE_PAREN []) rfl rfl hts hus hitems⟩

/-- An expression can be printed, and parsing any of its printings gives it
back and stops at the semicolon. -/
theorem parse_printed {e : Form ν} (he : Expressible sc e) :
    (∃ ts, Printed sc e ts) ∧ ∀ (ts done rest : List Token) (semi : Token), Printed sc e ts → semi.kind = .SEMI_COLON →
      ∃ e', form e' = some e ∧
        Returns sc .defaultBp (front done (ts ++ semi :: rest)) (.ok (e', front (done ++ ts) (semi :: rest))) := by
  refine ⟨exists_printed he, fun ts done rest semi h hsemi => ?_⟩
  obtain ⟨e', hform, hp⟩ := reads_printed h done rest semi (by rw [hsemi]; rfl)
  exact ⟨e', hform, ts.length + 1, fun n hn => hp n hn⟩

/-- The expression `(-(a))[(f)((1))]`. -/
theorem parse_printed_index : ∃ e' : Expression Bytes, form e' =
      some (.computed (.prefixed .DASH (ascii "-") (.symbol (ascii "a")))
        [.call (.symbol (ascii "f")) [.number (ascii "1")]]) ∧
    ∃ ts done rest, Returns ⟨id, some⟩ .defaultBp (front done (ts ++ token .SEMI_COLON [] :: rest))
      (.ok (e', front (done ++ ts) (token .SEMI_COLON [] :: rest))) := by
  have he : Expressible (⟨id, some⟩ : Strconv Bytes) (.computed (.prefixed .DASH (ascii "-") (.symbol (ascii "a")))
      [.call (.symbol (ascii "f")) [.number (ascii "1")]]) :=
    .computed (.prefixed rfl (.symbol _))
      (.call (.symbol _) (forall_mem_singleton.mpr (.number (ascii "1")))) (by simp)
  obtain ⟨⟨ts, hts⟩, hall⟩ := parse_printed he
  obtain ⟨e', hform, hr⟩ := hall ts [] [] (token .SEMI_COLON []) hts rfl
  exact ⟨e', hform, ts, [], [], hr⟩

end Picasso.Parsing.RoundTrip
