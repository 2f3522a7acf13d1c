import Picasso.Lexing.Matching
import Mathlib.Data.Prod.Lex

namespace Picasso.Lexing

open List Scanner Lexer

variable {s : Scanner} {o : Outcome} {p p' : Pattern} {text text' r : Bytes} {l : Lexer} {reads : Nat → Nat} {k : Nat}

section Loops

/-- The patterns are matched against the whole text, held in one buffer. -/
def wholeLoop : Nat → Scanner → Bytes → Outcome
  | 0, s, _ => ⟨s.tokens, s.comments, some .fuel⟩
  | n + 1, s, r =>
    if r = [] then s.finish
    else
      match firstMatch r with
      | some (p, k) => wholeLoop n (s.handle p (r.take k)) (r.drop k)
      | none => s.fail

def whole (s : Scanner) (r : Bytes) : Outcome := wholeLoop (r.length + 1) s r

def lexWhole (path : String) (content : Bytes) : Outcome := whole ⟨[], [], ⟨path, 1, 1⟩⟩ content

theorem wholeLoop_fuel {n m : Nat} (hn : r.length < n) (hm : r.length < m) (s : Scanner) :
    wholeLoop n s r = wholeLoop m s r := by
  induction n generalizing m r s with
  | zero => omega
  | succ n ih =>
    obtain ⟨m, rfl⟩ : ∃ k, m = k + 1 := ⟨m - 1, by omega⟩
    rw [wholeLoop, wholeLoop]
    cases hf : firstMatch r with
    | none => rfl
    | some q =>
      have hk := firstMatch_le (p := q.1) (n := q.2) hf
      have hlen : (r.drop q.2).length < n ∧ (r.drop q.2).length < m := by
        rw [length_drop]
        omega
      simp only [ih hlen.1 hlen.2]

theorem whole_nil (s : Scanner) : whole s [] = s.finish := rfl

theorem whole_none (hr : r ≠ []) (h : firstMatch r = none) (s : Scanner) : whole s r = s.fail := by
  rw [whole, wholeLoop, if_neg hr, h]

theorem whole_some (h : firstMatch r = some (p, k)) (s : Scanner) :
    whole s r = whole (s.handle p (r.take k)) (r.drop k) := by
  have hk := firstMatch_le h
  have hr : r ≠ [] := by
    rintro rfl
    simp only [length_nil] at hk
    omega
  rw [whole, wholeLoop, if_neg hr, h]
  exact wholeLoop_fuel (by rw [length_drop]; omega) (Nat.lt_succ_self _) _

def Lexer.rest (l : Lexer) : Bytes := l.buffer ++ l.input

def Lexer.Done (l : Lexer) : Prop := l.eof = true ∧ l.buffer = []

instance (l : Lexer) : Decidable l.Done := inferInstanceAs (Decidable (_ ∧ _))

theorem fillBuffer_rest (reads : Nat → Nat) (l : Lexer) : (l.fillBuffer reads).rest = l.rest := by
  rw [fillBuffer]
  split
  · rfl
  · simp [rest]

theorem fillBuffer_scanner (reads : Nat → Nat) (l : Lexer) : (l.fillBuffer reads).toScanner = l.toScanner := by
  rw [fillBuffer]
  split <;> rfl

theorem consume_rest (h : k ≤ l.buffer.length) (p : Pattern) : (l.consume p k).rest = l.rest.drop k := by
  rw [rest, rest, drop_append_of_le_length h, consume]

theorem consume_scanner (h : k ≤ l.buffer.length) (p : Pattern) :
    (l.consume p k).toScanner = l.handle p (l.rest.take k) := by
  rw [rest, take_append_of_le_length h, consume]

theorem consume_rest_lt (h : firstMatch l.buffer = some (p, k)) :
    (l.consume p k).rest.length < l.rest.length := by
  have hk := firstMatch_le h
  rw [consume_rest hk.2, length_drop]
  have : l.buffer.length ≤ l.rest.length := by simp [rest]
  omega

theorem lexLoop_fuel {n m : Nat} (hn : l.rest.length < n) (hm : l.rest.length < m) :
    lexLoop reads n l = lexLoop reads m l := by
  induction n generalizing m l with
  | zero => omega
  | succ n ih =>
    obtain ⟨m, rfl⟩ : ∃ k, m = k + 1 := ⟨m - 1, by omega⟩
    rw [lexLoop, lexLoop]
    cases hf : firstMatch (l.fillBuffer reads).buffer with
    | none => simp only [hf]
    | some q =>
      have hlt := consume_rest_lt (p := q.1) (k := q.2) hf
      rw [fillBuffer_rest] at hlt
      simp only [hf, ih (m := m) (l := (l.fillBuffer reads).consume q.1 q.2) (by omega) (by omega)]

def lexes (reads : Nat → Nat) (l : Lexer) : Outcome := lexLoop reads (l.rest.length + 1) l

theorem lexes_done (h : l.Done) : lexes reads l = l.finish := by
  rw [Lexer.Done] at h
  rw [lexes, lexLoop, if_pos h]

theorem lexes_none (h : ¬ l.Done) (hf : firstMatch (l.fillBuffer reads).buffer = none) : lexes reads l = l.fail := by
  rw [Lexer.Done] at h
  rw [lexes, lexLoop, if_neg h]
  simp only [hf, fillBuffer_scanner]

theorem lexes_some (h : ¬ l.Done) (hf : firstMatch (l.fillBuffer reads).buffer = some (p, k)) :
    lexes reads l = lexes reads ((l.fillBuffer reads).consume p k) := by
  have hlt := consume_rest_lt hf
  rw [fillBuffer_rest] at hlt
  rw [Lexer.Done] at h
  rw [lexes, lexLoop, if_neg h]
  simp only [hf]
  exact lexLoop_fuel (by omega) (Nat.lt_succ_self _)

end Loops

section Order

def place (loc : SourceLoc) : ℕ ×ₗ ℕ := toLex (loc.line, loc.col)

theorem place_advanceByte (loc : SourceLoc) (b : UInt8) : place loc < place (advanceByte loc b) := by
  rw [advanceByte, place, place, Prod.Lex.toLex_lt_toLex]
  split <;> simp

theorem place_le_advance (loc : SourceLoc) (bs : Bytes) : place loc ≤ place (advance loc bs) := by
  induction bs generalizing loc with
  | nil => exact le_rfl
  | cons b bs ih => exact (place_advanceByte loc b).le.trans (ih (advanceByte loc b))

theorem place_advance (loc : SourceLoc) {bs : Bytes} (h : bs ≠ []) : place loc < place (advance loc bs) := by
  cases bs with
  | nil => exact absurd rfl h
  | cons b bs => exact (place_advanceByte loc b).trans_le (place_le_advance _ bs)

theorem place_handle (s : Scanner) (p : Pattern) (h : text ≠ []) : place s.srcLoc < place (s.handle p text).srcLoc :=
  place_advance s.srcLoc h

inductive Scans : Scanner → Outcome → Prop
  | finish (s : Scanner) : Scans s s.finish
  | fail (s : Scanner) : Scans s s.fail
  | step {s : Scanner} {p : Pattern} {text : Bytes} {o : Outcome} : text ≠ [] → Scans (s.handle p text) o → Scans s o

theorem take_ne_nil {b : Bytes} (h : firstMatch b = some (p, k)) : b.take k ≠ [] := by
  have hk := firstMatch_le h
  intro hnil
  have := congrArg List.length hnil
  rw [length_take, length_nil] at this
  omega

theorem scans_whole (s : Scanner) (r : Bytes) : Scans s (whole s r) := by
  induction hn : r.length using Nat.strongRecOn generalizing s r with
  | _ n ih =>
    by_cases hr : r = []
    · rw [hr, whole_nil]
      exact .finish s
    · cases hf : firstMatch r with
      | none =>
        rw [whole_none hr hf]
        exact .fail s
      | some q =>
        have hk := firstMatch_le (p := q.1) (n := q.2) hf
        rw [whole_some (p := q.1) (k := q.2) hf]
        exact .step (take_ne_nil hf) (ih _ (by rw [length_drop]; omega) _ _ rfl)

theorem scans_lexes (reads : Nat → Nat) (l : Lexer) : Scans l.toScanner (lexes reads l) := by
  induction hn : l.rest.length using Nat.strongRecOn generalizing l with
  | _ n ih =>
    by_cases hd : l.Done
    · rw [lexes_done hd]
      exact .finish _
    · cases hf : firstMatch (l.fillBuffer reads).buffer with
      | none =>
        rw [lexes_none hd hf]
        exact .fail _
      | some q =>
        have hlt := consume_rest_lt (p := q.1) (k := q.2) hf
        rw [fillBuffer_rest] at hlt
        rw [lexes_some (p := q.1) (k := q.2) hd hf]
        have hrec := ih _ (by omega) ((l.fillBuffer reads).consume q.1 q.2) rfl
        rw [← fillBuffer_scanner reads l]
        exact .step (take_ne_nil hf) hrec

theorem Scans.later (h : Scans s o) : (∃ ts, o.tokens = s.tokens ++ ts ∧ ∀ t ∈ ts, place s.srcLoc ≤ place t.src) ∧
      (∃ cs, o.comments = s.comments ++ cs) ∧
      ∀ message loc, o.failure = some (.lexerError message loc) → place s.srcLoc ≤ place loc := by
  induction h with
  | finish s => exact ⟨⟨[], by simp [Scanner.finish]⟩, ⟨[], by simp [Scanner.finish]⟩, by simp [Scanner.finish]⟩
  | fail s =>
    refine ⟨⟨[], by simp [Scanner.fail]⟩, ⟨[], by simp [Scanner.fail]⟩, ?_⟩
    rintro message loc h
    cases h
    exact le_rfl
  | @step s p text o ht hs ih =>
    obtain ⟨⟨ts, hts, hlater⟩, ⟨cs, hcs⟩, hfail⟩ := ih
    have hlt := place_handle s p ht
    refine ⟨⟨((p.kind text).map fun kind => ⟨kind, text, s.srcLoc⟩).toList ++ ts, ?_, ?_⟩, ?_, ?_⟩
    · rw [hts, handle, append_assoc]
    · intro t ht
      rcases mem_append.mp ht with ht | ht
      · obtain ⟨kind, -, rfl⟩ := Option.map_eq_some_iff.mp (Option.mem_toList.mp ht)
        exact le_rfl
      · exact hlt.le.trans (hlater t ht)
    · rw [hcs, handle]
      dsimp only
      split
      · exact ⟨[(text, s.srcLoc)] ++ cs, append_assoc ..⟩
      · exact ⟨cs, rfl⟩
    · intro message loc h
      exact hlt.le.trans (hfail message loc h)

theorem Scans.not_fail (h : Scans (s.handle p text) o) (ht : text ≠ []) : o ≠ s.fail := by
  rintro rfl
  exact absurd (h.later.2.2 _ _ rfl) (not_le.mpr (place_handle s p ht))

theorem Scans.token {kind : TokenKind} (h : Scans (s.handle p text) o) (hk : p.kind text = some kind) :
    ∃ ts, o.tokens = s.tokens ++ ⟨kind, text, s.srcLoc⟩ :: ts := by
  obtain ⟨ts, hts, -⟩ := h.later.1
  exact ⟨ts, by rw [hts, handle, hk]; simp⟩

theorem Scans.comment (h : Scans (s.handle .comment text) o) (ht : text ≠ []) :
    (∃ cs, o.comments = s.comments ++ (text, s.srcLoc) :: cs) ∧
      ∃ ts, o.tokens = s.tokens ++ ts ∧ ∀ t ∈ ts, place s.srcLoc < place t.src := by
  obtain ⟨⟨ts, hts, hlater⟩, ⟨cs, hcs⟩, -⟩ := h.later
  refine ⟨⟨cs, by rw [hcs, handle]; simp⟩, ts, by simpa [handle, Pattern.kind] using hts, fun t h => ?_⟩
  exact (place_handle s .comment ht).trans_le (hlater t h)

theorem kind_or (p : Pattern) (text : Bytes) : p = .space ∨ p = .comment ∨ ∃ kind, p.kind text = some kind := by
  cases p with
  | space => exact .inl rfl
  | comment => exact .inr (.inl rfl)
  | _ => exact .inr (.inr ⟨_, rfl⟩)

theorem token_or_comment {kind : TokenKind} (h : Scans (s.handle p text) o) (hk : p.kind text = some kind)
    (h' : Scans (s.handle .comment text') o) (ht' : text' ≠ []) : False := by
  obtain ⟨ts, hts⟩ := h.token hk
  obtain ⟨-, ts', hts', hlater⟩ := h'.comment ht'
  have heq := append_cancel_left (hts.symm.trans hts')
  exact lt_irrefl _ (hlater ⟨kind, text, s.srcLoc⟩ (by rw [← heq]; exact mem_cons_self))

theorem lexeme_unique (h : Scans (s.handle p text) o) (h' : Scans (s.handle p' text') o) (hp : p ≠ .space)
    (hp' : p' ≠ .space) (ht : text ≠ []) (ht' : text' ≠ []) : text = text' := by
  rcases (kind_or p text).resolve_left hp with rfl | ⟨kind, hk⟩ <;>
    rcases (kind_or p' text').resolve_left hp' with rfl | ⟨kind', hk'⟩
  · obtain ⟨⟨cs, hcs⟩, -⟩ := h.comment ht
    obtain ⟨⟨cs', hcs'⟩, -⟩ := h'.comment ht'
    have heq := append_cancel_left (hcs.symm.trans hcs')
    simp only [List.cons.injEq, Prod.mk.injEq] at heq
    exact heq.1.1
  · exact (token_or_comment h' hk' h ht).elim
  · exact (token_or_comment h hk h' ht').elim
  · obtain ⟨ts, hts⟩ := h.token hk
    obtain ⟨ts', hts'⟩ := h'.token hk'
    have heq := append_cancel_left (hts.symm.trans hts')
    simp only [List.cons.injEq, Token.mk.injEq] at heq
    exact heq.1.2.1

end Order

/-- The states in which the lexer, started in a state at the head of its loop,
looks for a match. -/
inductive AtMatch (reads : Nat → Nat) : Lexer → Lexer → Prop
  | here {l : Lexer} : ¬ l.Done → AtMatch reads l (l.fillBuffer reads)
  | next {l l' : Lexer} {p : Pattern} {k : Nat} : ¬ l.Done → firstMatch (l.fillBuffer reads).buffer = some (p, k) →
      AtMatch reads ((l.fillBuffer reads).consume p k) l' → AtMatch reads l l'

/-- Something of the file is left, and the buffer holds all of its next
lexeme, or some of it where that is white space. -/
def Ready (l : Lexer) : Prop :=
  l.rest ≠ [] ∧ ∀ p k, firstMatch l.rest = some (p, k) → if p = .space then l.buffer ≠ [] else k ≤ l.buffer.length

theorem handle_space_handle (s : Scanner) (b c : Bytes) :
    (s.handle .space b).handle .space c = s.handle .space (b ++ c) := by
  simp [handle, Pattern.kind, advance]

theorem handle_space_nil (s : Scanner) : s.handle .space [] = s := by
  simp [handle, Pattern.kind, advance]

theorem count_drop {q : UInt8 → Bool} (hk : k ≤ count q r) : count q (r.drop k) = count q r - k := by
  induction k generalizing r with
  | zero => rfl
  | succ k ih =>
    cases r with
    | nil => exact absurd hk (Nat.not_succ_le_zero k)
    | cons x r =>
      by_cases hx : q x = true
      · simp only [count, takeWhile_cons_of_pos hx, length_cons] at hk ⊢
        rw [drop_succ_cons]
        have := ih (r := r) (Nat.le_of_succ_le_succ hk)
        simp only [count] at this
        omega
      · simp only [count, takeWhile_cons_of_neg hx, length_nil] at hk
        omega

theorem whole_space (hk : k ≤ count isSpace r) (s : Scanner) :
    whole s r = whole (s.handle .space (r.take k)) (r.drop k) := by
  by_cases h0 : count isSpace r = 0
  · obtain rfl : k = 0 := by omega
    rw [take_zero, handle_space_nil, drop_zero]
  · rw [whole_some ((firstMatch_space_iff r).mpr h0)]
    have hdrop := count_drop hk
    by_cases hlt : k = count isSpace r
    · rw [hlt]
    · rw [whole_some ((firstMatch_space_iff (r.drop k)).mpr (by omega)) (s.handle .space (r.take k)),
        handle_space_handle,
        hdrop, ← take_add, drop_drop, Nat.add_sub_cancel' hk]

theorem fillBuffer_eof (reads : Nat → Nat) (h : l.eof = true → l.input = []) :
    (l.fillBuffer reads).eof = true → (l.fillBuffer reads).input = [] := by
  rw [fillBuffer]
  split
  · exact h
  · intro he
    rw [List.isEmpty_iff] at he
    simp [he]

section Step

variable (hd : ¬ l.Done)

include hd

theorem atMatch_iff_none (hf : firstMatch (l.fillBuffer reads).buffer = none) :
    (∀ l', AtMatch reads l l' → Ready l') ↔ Ready (l.fillBuffer reads) := by
  refine ⟨fun h => h _ (.here hd), fun h l' hl' => ?_⟩
  cases hl' with
  | here => exact h
  | next _ hf' => exact absurd (hf.symm.trans hf') (by simp)

theorem atMatch_iff_some (hf : firstMatch (l.fillBuffer reads).buffer = some (p, k)) :
    (∀ l', AtMatch reads l l' → Ready l') ↔
      Ready (l.fillBuffer reads) ∧ ∀ l', AtMatch reads ((l.fillBuffer reads).consume p k) l' → Ready l' := by
  refine ⟨fun h => ⟨h _ (.here hd), fun l' hl' => h l' (.next hd hf hl')⟩, fun h l' hl' => ?_⟩
  cases hl' with
  | here => exact h.1
  | next _ hf' hl' =>
    cases hf.symm.trans hf'
    exact h.2 l' hl'

end Step

theorem firstMatch_space_append {b c : Bytes} (hb : b ≠ [])
    (h : firstMatch (b ++ c) = some (.space, count isSpace (b ++ c))) :
    firstMatch b = some (.space, count isSpace b) := by
  rw [firstMatch_space_iff] at h ⊢
  cases b with
  | nil => exact absurd rfl hb
  | cons x b =>
    by_cases hx : isSpace x = true
    · simp [count, hx]
    · simp [count, hx] at h

theorem firstMatch_space (h : firstMatch r = some (.space, k)) : k = count isSpace r :=
  ((nonzero_eq_some.mp (firstMatch_mem h).2).1).symm

/-- The lexeme that is matched in a buffer that does not hold all of the next
one differs from it. -/
theorem lexes_ne_whole (hd : ¬ l.Done) (hf : firstMatch l.rest = some (p, k)) (hp : p ≠ .space)
    (hk : (l.fillBuffer reads).buffer.length < k) : lexes reads l ≠ whole l.toScanner l.rest := by
  have hw := scans_whole (l.handle p (l.rest.take k)) (l.rest.drop k)
  rw [← whole_some hf] at hw
  cases hf' : firstMatch (l.fillBuffer reads).buffer with
  | none =>
    rw [lexes_none hd hf']
    exact (hw.not_fail (take_ne_nil hf)).symm
  | some q =>
    obtain ⟨p', k'⟩ := q
    intro heq
    have hle := firstMatch_le hf'
    have hs := scans_lexes reads ((l.fillBuffer reads).consume p' k')
    rw [← lexes_some hd hf', heq, consume_scanner hle.2, fillBuffer_scanner, fillBuffer_rest] at hs
    have hlen : k ≤ l.rest.length := (firstMatch_le hf).2
    have hp' : p' ≠ .space := by
      rintro rfl
      have hc := (firstMatch_space_iff _).mp (firstMatch_space hf' ▸ hf')
      have hmono := count_mono isSpace (l.fillBuffer reads).buffer (l.fillBuffer reads).input
      rw [← rest, fillBuffer_rest] at hmono
      have := (firstMatch_space_iff l.rest).mpr (by omega)
      rw [hf] at this
      exact hp (by simpa using congrArg (Option.map Prod.fst) this)
    have htext := congrArg List.length
      (lexeme_unique hs hw hp' hp (by rw [← length_pos_iff, length_take]; omega) (take_ne_nil hf))
    rw [length_take, length_take] at htext
    omega

theorem lexes_eq_whole_iff (h : l.eof = true → l.input = []) :
    lexes reads l = whole l.toScanner l.rest ↔ ∀ l', AtMatch reads l l' → Ready l' := by
  induction hn : l.rest.length using Nat.strongRecOn generalizing l with
  | _ n ih =>
    by_cases hd : l.Done
    · have hrest : l.rest = [] := by rw [rest, hd.2, h hd.1, append_nil]
      refine iff_of_true (by rw [lexes_done hd, hrest, whole_nil]) fun l' hl' => ?_
      cases hl' with
      | here hd' => exact absurd hd hd'
      | next hd' => exact absurd hd hd'
    · have hrest := fillBuffer_rest reads l
      -- where the buffer gives a piece of the next lexeme that the whole text allows, the rest decides
      have hstep : ∀ p k, firstMatch (l.fillBuffer reads).buffer = some (p, k) → Ready (l.fillBuffer reads) →
          whole l.toScanner l.rest = whole (l.handle p (l.rest.take k)) (l.rest.drop k) →
          (lexes reads l = whole l.toScanner l.rest ↔ ∀ l', AtMatch reads l l' → Ready l') := by
        intro p k hf hr hw
        have hlt := consume_rest_lt hf
        rw [hrest, hn] at hlt
        have hle := (firstMatch_le hf).2
        have hrec := ih _ hlt (l := (l.fillBuffer reads).consume p k) (fillBuffer_eof reads h) rfl
        rw [consume_scanner hle, consume_rest hle, hrest, fillBuffer_scanner] at hrec
        rw [atMatch_iff_some hd hf, and_iff_right hr, lexes_some hd hf, hw, hrec]
      cases hf : firstMatch l.rest with
      | none =>
        have hbuf : firstMatch (l.fillBuffer reads).buffer = none :=
          firstMatch_none (c := (l.fillBuffer reads).input) (by rw [← rest, hrest, hf])
        rw [atMatch_iff_none hd hbuf, lexes_none hd hbuf, Ready, hrest]
        by_cases hr : l.rest = []
        · rw [hr, whole_nil]
          exact iff_of_false (by simp [Scanner.fail, Scanner.finish]) fun h => h.1 rfl
        · rw [whole_none hr hf]
          exact iff_of_true rfl ⟨hr, by simp [hf]⟩
      | some q =>
        obtain ⟨p, k⟩ := q
        have hk := firstMatch_le hf
        have hr : l.rest ≠ [] := by
          intro hr
          rw [hr, firstMatch_nil] at hf
          cases hf
        have hready : Ready (l.fillBuffer reads) ↔
            if p = .space then (l.fillBuffer reads).buffer ≠ [] else k ≤ (l.fillBuffer reads).buffer.length := by
          rw [Ready, hrest, and_iff_right hr]
          refine ⟨fun h => h p k hf, fun h p' k' hf' => ?_⟩
          cases hf.symm.trans hf'
          exact h
        by_cases hin : Ready (l.fillBuffer reads)
        · by_cases hp : p = .space
          · subst hp
            rw [firstMatch_space hf, ← hrest, rest] at hf
            have hbuf := firstMatch_space_append (hready.mp hin) hf
            have hmono := count_mono isSpace (l.fillBuffer reads).buffer (l.fillBuffer reads).input
            rw [← rest, hrest] at hmono
            exact hstep _ _ hbuf hin (whole_space hmono _)
          · rw [if_neg hp] at hready
            have hbuf : firstMatch (l.fillBuffer reads).buffer = some (p, k) :=
              firstMatch_of_le (c := (l.fillBuffer reads).input) (by rw [← rest, hrest, hf]) (hready.mp hin)
            exact hstep _ _ hbuf hin (whole_some hf _)
        · refine iff_of_false ?_ fun h => hin (h _ (.here hd))
          rw [hready] at hin
          by_cases hp : p = .space
          · rw [if_pos hp, not_ne_iff] at hin
            rw [lexes_none hd (by rw [hin, firstMatch_nil]), whole_some hf]
            exact ((scans_whole _ _).not_fail (take_ne_nil hf)).symm
          · rw [if_neg hp, Nat.not_le] at hin
            exact lexes_ne_whole hd hf hp hin

/-- The lexer reads off a file what one buffer with all of it would give, and
cuts no token and no comment, just when no lexeme reaches over the end of the
buffer in which it is looked for, and the end of the file is not met there. -/
theorem chunk_independence (path : String) (content : Bytes) (reads : Nat → Nat) :
    (tokenize path content reads = (lexWhole path content).result ∧
      (lex path content reads).tokens = (lexWhole path content).tokens ∧
      (lex path content reads).comments = (lexWhole path content).comments) ↔
      ∀ l, AtMatch reads (newLexer path content) l → Ready l := by
  have hwhole : lexes reads (newLexer path content) = whole _ _ ↔ _ := lexes_eq_whole_iff (by simp [newLexer])
  rw [← hwhole]
  change _ ↔ lex path content reads = lexWhole path content
  constructor
  · rintro ⟨hresult, htokens, hcomments⟩
    rw [tokenize] at hresult
    generalize lex path content reads = o at *
    generalize lexWhole path content = o' at *
    obtain ⟨tokens, comments, failure⟩ := o
    obtain ⟨tokens', comments', failure'⟩ := o'
    cases failure <;> cases failure' <;> simp_all [Outcome.result]
  · intro h
    rw [tokenize, h]
    exact ⟨rfl, rfl, rfl⟩

/-- A reader that hands over the first byte of `ab c` on its own cuts a symbol;
after the one lexeme of `ab` the end of the file is met with nothing to match. -/
theorem symbol_cut :
    (tokenize "p.pic" (ascii "ab c") (fun k => if k = 0 then 1 else readChunkSize)).toOption.map
        (List.map fun t => t.value) = some [ascii "a", ascii "b", ascii "c"] ∧
      (lexWhole "p.pic" (ascii "ab c")).result.toOption.map (List.map fun t => t.value) = some [ascii "ab", ascii "c"] ∧
      tokenize "p.pic" (ascii "ab") (fun _ => readChunkSize) =
        .error (.lexerError "lexer error: unrecognized token" ⟨"p.pic", 1, 3⟩) ∧
      (lexWhole "p.pic" (ascii "ab")).result.toOption.map (List.map fun t => t.value) = some [ascii "ab"] := by
  decide +kernel

end Picasso.Lexing
