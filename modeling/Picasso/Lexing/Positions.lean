import Picasso.Lexing.Chunks
import Mathlib.Data.List.Induction
import Mathlib.Data.List.TakeWhile

namespace Picasso.Lexing

open List

variable {l : Lexer} {reads : Nat → Nat} {p : Pattern} {b : Bytes} {k : Nat}

inductive Lexeme
  | token (t : Token)
  | space (text : Bytes)
  | comment (text : Bytes)
deriving DecidableEq

def Lexeme.text : Lexeme → Bytes
  | .token t => t.value
  | .space text => text
  | .comment text => text

def Lexeme.token? : Lexeme → Option Token
  | .token t => some t
  | .space _ => none
  | .comment _ => none

/-- What is not a token is white space, or a comment up to the end of its line. -/
def Lexeme.WellFormed : Lexeme → Prop
  | .token t => t.value ≠ []
  | .space text => text ≠ [] ∧ ∀ b ∈ text, isSpace b = true
  | .comment text => ascii "//" <+: text ∧ 10 ∉ text

def source (xs : List Lexeme) : Bytes := xs.flatMap Lexeme.text

/-- Where the byte behind a text stands: a line ends with each newline, and a
column is counted from the last one. -/
def position (path : String) (b : Bytes) : SourceLoc :=
  ⟨path, 1 + b.count 10, 1 + (b.reverse.takeWhile (· ≠ 10)).length⟩

theorem advance_append (loc : SourceLoc) (b c : Bytes) : advance loc (b ++ c) = advance (advance loc b) c :=
  foldl_append

theorem advance_eq_position (path : String) (b : Bytes) : advance ⟨path, 1, 1⟩ b = position path b := by
  induction b using List.reverseRecOn with
  | nil => rfl
  | append_singleton b x ih =>
    rw [advance_append, ih]
    by_cases hx : x = 10
    · simp [advance, advanceByte, position, hx, Nat.add_assoc]
    · simp [advance, advanceByte, position, hx]
      omega

def Pattern.lexeme : Pattern → Bytes → SourceLoc → Lexeme
  | .space, text, _ => .space text
  | .comment, text, _ => .comment text
  | p, text, loc => .token ⟨(p.kind text).getD .EOF, text, loc⟩

theorem lexeme_text (p : Pattern) (text : Bytes) (loc : SourceLoc) : (p.lexeme text loc).text = text := by
  cases p <;> rfl

theorem lexeme_src {t : Token} {text : Bytes} {loc : SourceLoc} (h : p.lexeme text loc = .token t) : t.src = loc := by
  cases p <;> simp only [Pattern.lexeme, Lexeme.token.injEq, reduceCtorEq] at h <;> rw [← h]

theorem handle_tokens (s : Scanner) (p : Pattern) (text : Bytes) :
    (s.handle p text).tokens = s.tokens ++ (p.lexeme text s.srcLoc).token?.toList := by
  cases p <;> rfl

theorem take_count (q : UInt8 → Bool) (b : Bytes) : b.take (count q b) = b.takeWhile q :=
  prefix_iff_eq_take.mp ( takeWhile_prefix q) |>.symm

theorem lexeme_wellFormed (h : firstMatch b = some (p, k)) (loc : SourceLoc) :
    (p.lexeme (b.take k) loc).WellFormed := by
  have hne := take_ne_nil h
  cases p with
  | space =>
    refine ⟨hne, fun x hx => ?_⟩
    rw [firstMatch_space h, take_count] at hx
    exact mem_takeWhile_imp hx
  | comment =>
    have hfind := (firstMatch_mem h).2
    simp only [Pattern.find, Option.ite_none_right_eq_some, Option.some.injEq] at hfind
    obtain ⟨⟨c, rfl⟩, rfl⟩ := hfind
    have htake : (ascii "//" ++ c).take (2 + count (· ≠ 10) c) = ascii "//" ++ c.takeWhile (· ≠ 10) := by
      rw [← take_count]
      change List.take ((ascii "//").length + _) _ = _
      exact take_length_add_append _
    change (ascii "//" <+: List.take (2 + count (· ≠ 10) c) (ascii "//" ++ c)) ∧
      10 ∉ List.take (2 + count (· ≠ 10) c) (ascii "//" ++ c)
    rw [htake]
    refine ⟨prefix_append _ _, fun hmem => ?_⟩
    rcases mem_append.mp hmem with hmem | hmem
    · exact absurd hmem (by decide)
    · simpa using mem_takeWhile_imp hmem
  | _ => exact hne

/-- Each token bears the place of its first byte, the whole beginning at `loc`. -/
def Placed (loc : SourceLoc) (xs : List Lexeme) : Prop :=
  ∀ before t after, xs = before ++ .token t :: after → t.src = advance loc (source before)

theorem placed_nil (loc : SourceLoc) : Placed loc [] := by
  intro before t after h
  simp at h

theorem Placed.cons {loc : SourceLoc} {x : Lexeme} {xs : List Lexeme} (h : Placed (advance loc x.text) xs)
    (hx : ∀ t, x = .token t → t.src = loc) : Placed loc (x :: xs) := by
  rintro (_ | ⟨y, before⟩) t after heq
  · obtain ⟨rfl, -⟩ := List.cons.inj heq
    exact hx t rfl
  · obtain ⟨rfl, rfl⟩ := List.cons.inj heq
    rw [h before t after rfl, source, source, flatMap_cons, advance_append]

theorem lexes_cuts (heof : l.eof = true → l.input = []) (h : (lexes reads l).failure = none) :
    ∃ xs : List Lexeme, source xs = l.rest ∧ (lexes reads l).tokens = l.tokens ++ xs.filterMap Lexeme.token? ∧
      (∀ x ∈ xs, x.WellFormed) ∧ Placed l.srcLoc xs := by
  induction hn : l.rest.length using Nat.strongRecOn generalizing l with
  | _ n ih =>
    by_cases hd : l.Done
    · refine ⟨[], ?_, ?_, by simp, placed_nil _⟩
      · rw [Lexer.rest, hd.2, heof hd.1]
        rfl
      · simp [lexes_done hd, Scanner.finish]
    · cases hf : firstMatch (l.fillBuffer reads).buffer with
      | none =>
        rw [lexes_none hd hf] at h
        cases h
      | some q =>
        obtain ⟨p, k⟩ := q
        have hlt := consume_rest_lt hf
        have hle := (firstMatch_le hf).2
        rw [fillBuffer_rest, hn] at hlt
        rw [lexes_some hd hf] at h ⊢
        obtain ⟨xs, hsource, htokens, hwell, hplaced⟩ :=
          ih _ hlt (l := (l.fillBuffer reads).consume p k) (fillBuffer_eof reads heof) h rfl
        -- the lexeme is a prefix of the buffer, and so of what is left of the file
        have htext : (l.fillBuffer reads).buffer.take k = l.rest.take k := by
          rw [← fillBuffer_rest reads l, Lexer.rest, take_append_of_le_length hle]
        have hscanner := consume_scanner hle p
        rw [fillBuffer_scanner, fillBuffer_rest] at hscanner
        rw [consume_rest hle, fillBuffer_rest] at hsource
        rw [hscanner] at htokens hplaced
        refine ⟨p.lexeme (l.rest.take k) l.srcLoc :: xs, ?_, ?_, ?_, ?_⟩
        · rw [source, flatMap_cons, lexeme_text, ← source, hsource, take_append_drop]
        · rw [htokens, handle_tokens, append_assoc, filterMap_cons]
          cases (p.lexeme (l.rest.take k) l.srcLoc).token? <;> rfl
        · rw [forall_mem_cons]
          exact ⟨htext ▸ lexeme_wellFormed hf _, hwell⟩
        · refine Placed.cons ?_ fun t ht => lexeme_src ht
          rw [lexeme_text]
          exact hplaced

/-- A file that is read to its end is the texts of its tokens, and of the white
space and the comments between them, one after the other; the place of a token
counts the newlines before it, and the bytes behind the last of these. -/
theorem tokenize_lossless (path : String) (content : Bytes) (reads : Nat → Nat) (tokens : List Token)
    (h : tokenize path content reads = .ok tokens) :
    ∃ xs : List Lexeme, source xs = content ∧ xs.filterMap Lexeme.token? = tokens ∧ (∀ x ∈ xs, x.WellFormed) ∧
      ∀ before t after, xs = before ++ .token t :: after → t.src = position path (source before) := by
  have hlex : lex path content reads = lexes reads (newLexer path content) := rfl
  rw [tokenize, Outcome.result, hlex] at h
  cases hfail : (lexes reads (newLexer path content)).failure with
  | some f => simp [hfail] at h
  | none =>
    rw [hfail] at h
    obtain ⟨xs, hsource, htokens, hwell, hplaced⟩ := lexes_cuts (by simp [newLexer]) hfail
    refine ⟨xs, hsource, ?_, hwell, fun before t after heq => ?_⟩
    · rw [← Except.ok.inj h, htokens]
      rfl
    · rw [hplaced before t after heq]
      exact advance_eq_position path _

/-- A comment ends the first line of this file, and white space begins the second. -/
theorem tokenize_lossless_lines : ∃ xs : List Lexeme, source xs = ascii "a //b\n  cd ;\n" ∧ xs.filterMap Lexeme.token? =
        [⟨.IDENTIFIER, ascii "a", ⟨"p.pic", 1, 1⟩⟩, ⟨.IDENTIFIER, ascii "cd", ⟨"p.pic", 2, 3⟩⟩,
          ⟨.SEMI_COLON, ascii ";", ⟨"p.pic", 2, 6⟩⟩] ∧ (∀ x ∈ xs, x.WellFormed) ∧
      ∀ before t after, xs = before ++ .token t :: after → t.src = position "p.pic" (source before) :=
  tokenize_lossless "p.pic" _ (fun k => if k = 0 then 11 else readChunkSize) _ (by decide +kernel)

end Picasso.Lexing
