import Picasso.Codegen.Emission

namespace Picasso.Codegen.Blocks

open Lib.ControlFlow Option Set Outcome Terminator

variable {α β ρ σ : Type} {S : Semantics α β σ} {F F' G : Func α β ρ} {O : Set Nat} {l l' k fuel : Nat} {f : σ → Outcome ρ σ}
  {ends : List Nat} {result : ρ → Option ρ} {s : σ}

section Reaching

/-- The graph follows the structured meaning: it goes on at `next` after a
normal end, at the end of the innermost loop after a `break`, and it runs on
for at least `fuel` steps if the statements do. -/
def Reaches (S : Semantics α β σ) (G : Func α β ρ) (ends : List Nat) (fuel : Nat) (c : Config ρ σ)
    (next : σ → Config ρ σ) : Outcome ρ σ → Prop
  | .normal s => ∃ n, Steps S G n c (next s)
  | .broke s => ∃ e ∈ ends.head?, ∃ n, Steps S G n c (.run e 0 s)
  | .returned s v => ∃ n, Steps S G n c (.returned s v)
  | .aborted s => ∃ n, Steps S G n c (.aborted s)
  | .running s => ∃ n l i, fuel ≤ n ∧ Steps S G n c (.run l i s)

variable {c d : Config ρ σ} {next mid : σ → Config ρ σ} {o : Outcome ρ σ} {n : Nat}

theorem Reaches.mono {m : Nat} (hr : Reaches S G ends m c next o) (hle : fuel ≤ m) : Reaches S G ends fuel c next o := by
  cases o with
  | normal s | returned s v | aborted s | broke s => exact hr
  | running s =>
    obtain ⟨n, l, i, hn, hs⟩ := hr
    exact ⟨n, l, i, hle.trans hn, hs⟩

theorem Reaches.head_add (h : Steps S G n c d) (hr : Reaches S G ends fuel d next o) :
    Reaches S G ends (n + fuel) c next o := by
  cases o with
  | normal s | returned s v | aborted s =>
    obtain ⟨m, hm⟩ := hr
    exact ⟨n + m, h.trans hm⟩
  | broke s =>
    obtain ⟨e, he, m, hm⟩ := hr
    exact ⟨e, he, n + m, h.trans hm⟩
  | running s =>
    obtain ⟨m, l, i, hle, hm⟩ := hr
    exact ⟨n + m, l, i, by omega, h.trans hm⟩

theorem Reaches.head (h : Steps S G n c d) (hr : Reaches S G ends fuel d next o) : Reaches S G ends fuel c next o :=
  (hr.head_add h).mono (by omega)

theorem Reaches.bind (h : Reaches S G ends fuel c mid o)
    (hf : ∀ s, o = .normal s → Reaches S G ends fuel (mid s) next (f s)) : Reaches S G ends fuel c next (o.bind f) := by
  cases o with
  | normal s =>
    obtain ⟨n, hn⟩ := h
    exact (hf s rfl).head hn
  | returned s v | aborted s | broke s | running s => exact h

theorem Reaches.then (h : Reaches S G ends fuel c mid o)
    (hs : ∀ s, o = .normal s → step S G (mid s) = some (next s)) : Reaches S G ends fuel c next o := by
  cases o with
  | normal s =>
    obtain ⟨n, hn⟩ := h
    exact ⟨n + 1, hn.trans (.single (hs s rfl))⟩
  | returned s v | aborted s | broke s | running s => exact h

end Reaching

section Codes

theorem here_branch {t : Terminator β ρ} {n i : Nat} (h : i < n) :
    ((F.newBlocks n).setTerm l t).here (F.size + i) s = .run (F.size + i) 0 s := by
  rw [here_setTerm, here_newBlocks h]

theorem here_branch_first {t : Terminator β ρ} {n : Nat} (h : 0 < n) :
    ((F.newBlocks n).setTerm l t).here F.size s = .run F.size 0 s := here_branch h

theorem emitCode_reaches (c : Code α β) (h : Cursor F l O) (hG : Extends (emitCode c l F).2 G) (s : σ) :
    Reaches S G ends fuel (F.here l s) ((emitCode c l F).2.here (emitCode c l F).1) (.ofCode (execCode S c s)) := by
  induction c generalizing F l O s with
  | done => exact ⟨0, .refl _⟩
  | inst a c ih =>
    have hi := (emitCode_cursor c (h.addInst a)).2.extend.trans hG
    exact (ih (h.addInst a) hG _).head (.single (hi.step_inst h.lt))
  | check overflow raise c ih =>
    obtain ⟨hf, -⟩ := cursor_fork h (.condBr overflow F.size (F.size + 1))
    have hs := cursor_setTerm (hf.addInst raise) (size_add_notMem h 1) .unreachable
    have hG2 := (emitCode_cursor c hs).2.extend.trans hG
    have hG1 := ((hf.addInst raise).keeps_setTerm .unreachable).extend.trans hG2
    have hfork := h.step_newBlocks (S := S) (s := s) ((hf.keeps_addInst raise).extend.trans hG1)
    rw [execCode]
    cases ht : S.test overflow s with
    | true =>
      rw [goto, ht, if_pos rfl] at hfork
      have hraise := hG1.step_inst (S := S) (s := s) hf.lt
      rw [here_branch_first (by decide)] at hraise
      have hend := hG2.step_term (S := S) (s := S.inst raise s) (hf.addInst raise).lt
      exact ⟨3, .head hfork (.head hraise (.single hend))⟩
    | false =>
      rw [goto, ht, if_neg (by simp)] at hfork
      have hhere := (hf.keeps_addInst raise).here (s := s) (mem_insert _ O)
      have hnext := ih hs hG s
      rw [here_setTerm, hhere, here_branch (by decide)] at hnext
      exact hnext.head (.single hfork)
  | logical left onTrue rhs c ihr ih =>
    obtain ⟨hf, -⟩ := cursor_fork h
      (if onTrue then .condBr left F.size (F.size + 1) else .condBr left (F.size + 1) F.size)
    obtain ⟨hr, hkr⟩ := emitCode_cursor rhs hf
    have hs := cursor_setTerm hr (size_add_notMem h 1) (.br (F.size + 1))
    have hG2 := (emitCode_cursor c hs).2.extend.trans hG
    have hG1 := (hr.keeps_setTerm (.br (F.size + 1))).extend.trans hG2
    have hfork := h.step_newBlocks (S := S) (s := s) (hkr.extend.trans hG1)
    have hright (s : σ) := (hkr.here (s := s) (mem_insert _ O)).trans (here_branch (by decide))
    have hnext (s : σ) := ih hs hG s
    simp only [here_setTerm, hright] at hnext
    rw [execCode]
    by_cases ht : S.test left s = onTrue
    · have hgo : step S G (F.here l s) = some (.run F.size 0 s) := by
        cases onTrue <;> simpa [goto, ht] using hfork
      have hrhs := ihr hf hG1 s
      rw [here_branch_first (by decide)] at hrhs
      have hjoin := (hrhs.head (.single hgo)).then fun s _ => hG2.step_term (s := s) hr.lt
      have hbind : ofCode (ρ := ρ) (do execCode S c (← execCode S rhs s)) =
          (ofCode (execCode S rhs s)).bind fun s => .ofCode (execCode S c s) := by
        cases execCode S rhs s <;> rfl
      rw [if_pos ht, hbind]
      exact hjoin.bind fun s _ => hnext s
    · have hgo : step S G (F.here l s) = some (.run (F.size + 1) 0 s) := by
        cases onTrue <;> simpa [goto, ht] using hfork
      rw [if_neg ht]
      exact (hnext s).head (.single hgo)

theorem addInsts_steps (as : List α) (h : Cursor F l O) (hG : Extends (F.addInsts l as) G) (s : σ) :
    ∃ n, Steps S G n (F.here l s) ((F.addInsts l as).here l (execInsts S as s)) := by
  induction as generalizing F s with
  | nil => exact ⟨0, .refl _⟩
  | cons a as ih =>
    obtain ⟨n, hn⟩ := ih (h.addInst a) hG (S.inst a s)
    have hi := ((h.addInst a).addInsts as).2.extend.trans hG
    exact ⟨n + 1, .head (hi.step_inst h.lt) hn⟩

end Codes

section Loops

theorem execLoop_reaches {cond body loopEnd m : Nat} {test : σ → Except σ σ} {q : β} {run : σ → Outcome ρ σ}
    {increment : σ → σ} {tested after : σ → Config ρ σ}
    (htest : ∀ s, Reaches S G ends fuel (.run cond 0 s) tested (.ofCode (test s)))
    (hbranch : ∀ s, step S G (tested s) = some (.run (if S.test q s then body else loopEnd) 0 s))
    (hbody : ∀ s, Reaches S G (loopEnd :: ends) fuel (.run body 0 s) after (run s))
    (hback : ∀ s s', run s = .normal s' → ∃ n, Steps S G n (after s') (.run cond 0 (increment s')))
    (hm : m ≤ fuel) (s : σ) :
    Reaches S G ends m (.run cond 0 s) (.run loopEnd 0) (execLoop S test q run increment m s) := by
  induction m generalizing s with
  | zero => exact ⟨0, cond, 0, le_rfl, .refl _⟩
  | succ m ih =>
    refine ((htest s).mono hm).bind ?_
    intro s _
    have hstep := hbranch s
    cases hq : S.test q s with
    | false =>
      rw [hq] at hstep
      exact ⟨1, .single hstep⟩
    | true =>
      rw [hq] at hstep
      have hrun := hbody s
      simp only [if_true]
      cases hb : run s with
      | normal s' =>
        rw [hb] at hrun
        obtain ⟨n, hn⟩ := hrun
        obtain ⟨n', hn'⟩ := hback s s' hb
        have hnext := (ih (by omega) (increment s')).head (hn.trans hn')
        exact (hnext.head_add (.single hstep)).mono (by omega)
      | broke s' =>
        rw [hb] at hrun
        obtain ⟨e, he, n, hn⟩ := hrun
        cases he
        exact ⟨1 + n, (Steps.single hstep).trans hn⟩
      | returned s' v | aborted s' =>
        rw [hb] at hrun
        obtain ⟨n, hn⟩ := hrun
        exact ⟨1 + n, (Steps.single hstep).trans hn⟩
      | running s' =>
        rw [hb] at hrun
        obtain ⟨n, l, i, hle, hn⟩ := hrun
        exact ⟨1 + n, l, i, by omega, (Steps.single hstep).trans hn⟩

end Loops

section Statements

/-- An emission and the meaning of what it emits: the graph grows as it should,
and whatever graph it becomes part of follows the meaning. -/
structure Sound (S : Semantics α β σ) (ends : List Nat) (exited : Bool)
    (emit : Nat → Func α β ρ → Option (Nat × Func α β ρ)) (run : Nat → σ → Outcome ρ σ) : Prop where
  leaves : ∀ {O l l' F F'}, Cursor F l O → emit l F = some (l', F') → Leaves exited O F l' F'
  reaches : ∀ {O l l' F F' G fuel s}, Cursor F l O → emit l F = some (l', F') → Extends F' G →
    Reaches S G ends fuel (F.here l s) (F'.here l') (run fuel s)
  exit : exited = true → ∀ fuel s s', run fuel s ≠ .normal s'

variable {exited : Bool} {emit : Nat → Func α β ρ → Option (Nat × Func α β ρ)} {run : Nat → σ → Outcome ρ σ}

theorem Sound.closes (h : Sound S ends exited emit run) (hc : Cursor F l O) (he : emit l F = some (l', F'))
    (hG : Extends (closeWith F' l' k) G) (fuel : Nat) (s : σ) :
    Reaches S G ends fuel (F.here l s) (.run k 0) (run fuel s) := by
  obtain ⟨-, hl⟩ := h.leaves hc he
  cases exited with
  | true =>
    rw [closeWith, if_neg (by simpa using hl.2)] at hG
    exact (h.reaches hc he hG).then fun s hs => absurd hs (h.exit rfl _ _ _)
  | false =>
    have hn : (F'.block l').term = none := ((Cursor.opens hl l').mp (mem_insert l' O)).2
    rw [closeWith, if_pos (by simp [hn])] at hG
    exact (h.reaches hc he ((Cursor.keeps_setTerm hl _).extend.trans hG)).then fun s _ => hG.step_term (Cursor.lt hl)

theorem sound_nil : Sound S ends false (fun l (F : Func α β ρ) => some (l, F)) (fun _ s => .normal s) where
  leaves hc he := by
    cases he
    exact ⟨.refl _ _, hc⟩
  reaches _ he _ := by
    cases he
    exact ⟨0, .refl _⟩
  exit := by simp

theorem Outcome.bind_ne_normal {o : Outcome ρ σ} {s' : σ} (h : ∀ s, f s ≠ .normal s') :
    o.bind f ≠ .normal s' := by
  cases o with
  | normal s => exact h s
  | returned s v | aborted s | broke s | running s => simp [bind]

theorem Outcome.bind_ne_normal_left {o : Outcome ρ σ} {s' : σ} (h : ∀ s, o ≠ .normal s) :
    o.bind f ≠ .normal s' := by
  cases o with
  | normal s => exact absurd rfl (h s)
  | returned s v | aborted s | broke s | running s => simp [bind]

theorem Sound.simple (h : Sound S ends exited emit run) (c : Code α β) :
    Sound S ends exited (fun l F => emit (emitCode c l F).1 (emitCode c l F).2)
      (fun fuel s => (ofCode (execCode S c s)).bind (run fuel)) where
  leaves hc he := by
    obtain ⟨hc', hk⟩ := emitCode_cursor c hc
    exact .trans hk (h.leaves hc' he)
  reaches hc he hG := by
    obtain ⟨hc', -⟩ := emitCode_cursor c hc
    refine (emitCode_reaches c hc ((h.leaves hc' he).1.extend.trans hG) _).bind ?_
    intro s _
    exact h.reaches hc' he hG
  exit hx fuel s s' := bind_ne_normal fun s => h.exit hx fuel s s'

theorem Sound.seq {exited' : Bool} {emit' : Nat → Func α β ρ → Option (Nat × Func α β ρ)}
    {run' : Nat → σ → Outcome ρ σ} (h : Sound S ends exited emit run) (h' : Sound S ends exited' emit' run')
    (hnil : exited = true → (∀ l F, emit' l F = some (l, F)) ∧ ∀ fuel s, run' fuel s = .normal s) :
    Sound S ends (exited || exited') (fun l F => (emit l F).bind fun p => emit' p.1 p.2)
      (fun fuel s => (run fuel s).bind (run' fuel)) where
  leaves hc he := by
    obtain ⟨p, hp, hp'⟩ := bind_eq_some_iff.mp he
    have hl := h.leaves hc hp
    cases exited with
    | true =>
      rw [(hnil rfl).1] at hp'
      cases hp'
      exact hl
    | false => exact .trans hl.1 (h'.leaves hl.2 hp')
  reaches hc he hG := by
    obtain ⟨p, hp, hp'⟩ := bind_eq_some_iff.mp he
    have hl := h.leaves hc hp
    cases exited with
    | true =>
      rw [(hnil rfl).1] at hp'
      cases hp'
      refine (h.reaches hc hp hG).bind ?_
      intro s hs
      exact absurd hs (h.exit rfl _ _ _)
    | false =>
      refine (h.reaches hc hp ((h'.leaves hl.2 hp').1.extend.trans hG)).bind ?_
      intro s _
      exact h'.reaches hl.2 hp' hG
  exit hx fuel s s' := by
    cases exited with
    | true => exact bind_ne_normal_left (h.exit rfl fuel s)
    | false => exact bind_ne_normal fun s => h'.exit hx fuel s s'

theorem sound_break : Sound (α := α) (β := β) (ρ := ρ) S ends true (handleBreak ends) (fun _ s => .broke s) where
  leaves hc he := by
    simp only [handleBreak, bind_eq_bind, bind_eq_some_iff, Option.pure_def, Option.some.injEq] at he
    obtain ⟨e, -, he⟩ := he
    cases he
    exact ⟨hc.keeps_setTerm _, hc.setTerm _, by simp [Func.setTerm]⟩
  reaches hc he hG := by
    simp only [handleBreak, bind_eq_bind, bind_eq_some_iff, Option.pure_def, Option.some.injEq] at he
    obtain ⟨e, hhead, he⟩ := he
    cases he
    exact ⟨e, hhead, 1, .single (hG.step_term hc.lt)⟩
  exit := by simp

theorem sound_ret (value : ρ) :
    Sound S ends true (fun l (F : Func α β ρ) => some (l, F.setTerm l (.ret (result value))))
      (fun _ s => .returned s (result value)) where
  leaves hc he := by
    cases he
    exact ⟨hc.keeps_setTerm _, hc.setTerm _, by simp [Func.setTerm]⟩
  reaches hc he hG := by
    cases he
    exact ⟨1, .single (hG.step_term hc.lt)⟩
  exit := by simp

end Statements

section Conditionals

variable {exited hasAlternate : Bool} {consequent : Nat → Func α β ρ → Option (Nat × Func α β ρ)}
  {alternate : Nat → Nat → Func α β ρ → Option (Func α β ρ)} {run run' : Nat → σ → Outcome ρ σ}

structure SoundAlternate (S : Semantics α β σ) (ends : List Nat) (hasAlternate : Bool)
    (emit : Nat → Nat → Func α β ρ → Option (Func α β ρ)) (run : Nat → σ → Outcome ρ σ) : Prop where
  closes : hasAlternate = true → ∀ {O l k F F'}, Cursor F l O → emit l k F = some F' → Opens F' O ∧ Keeps O F F'
  reaches : hasAlternate = true → ∀ {O l k F F' G fuel s}, Cursor F l O → emit l k F = some F' → Extends F' G →
    Reaches S G ends fuel (F.here l s) (.run k 0) (run fuel s)
  absent : hasAlternate = false → (∀ l k F, emit l k F = some F) ∧ ∀ fuel s, run fuel s = .normal s

theorem processIfElseBlock_sound {c : Code α β} {cond : β} {ifBlock endBlock : Nat}
    (hc : Sound S ends exited consequent run) (ha : SoundAlternate S ends hasAlternate alternate run')
    (h : Cursor F l (insert ifBlock O)) (hif : ifBlock ∉ O) (hempty : ∀ s : σ, F.here ifBlock s = .run ifBlock 0 s)
    (he : processIfElseBlock hasAlternate c cond consequent alternate l ifBlock endBlock F = some F') :
    (Opens F' O ∧ Keeps O F F') ∧ ∀ {G fuel s}, Extends F' G →
      Reaches S G ends fuel (F.here l s) (.run endBlock 0) ((ofCode (execCode S c s)).bind fun s =>
        if S.test cond s then run fuel s else run' fuel s) := by
  obtain ⟨h1, hk1⟩ := emitCode_cursor c h
  have hempty1 (s : σ) := (hk1.here (s := s) (mem_insert ifBlock O)).trans (hempty s)
  replace hk1 := hk1.mono (subset_insert ifBlock O)
  simp only [processIfElseBlock, bind_eq_bind, bind_eq_some_iff, Prod.exists] at he
  obtain ⟨b, F2, hcons, halt⟩ := he
  cases hasAlternate with
  | true =>
    have hnew := size_notMem h1
    rw [mem_insert_iff, not_or] at hnew
    have h2 := h1.newBlock
    rw [insert_comm] at h2
    have hif' : ifBlock ∉ insert (emitCode c l F).2.size O := by
      rw [mem_insert_iff, not_or]
      exact ⟨Ne.symm hnew.1, hif⟩
    have hsub : O ⊆ insert ifBlock (insert (emitCode c l F).2.size O) :=
      (subset_insert _ O).trans (subset_insert _ _)
    have hif2 := cursor_setTerm h2 hif' (.condBr cond ifBlock (emitCode c l F).2.size)
    have hkt := h2.keeps_setTerm (.condBr cond ifBlock (emitCode c l F).2.size)
    have hk2 := (h1.keeps_newBlock.mono ((subset_insert _ O).trans (subset_insert _ _))).trans (hkt.mono hsub)
    obtain ⟨ho, hk3⟩ := (hc.leaves hif2 hcons).closeWith endBlock
    have helse : Cursor (closeWith F2 b endBlock) (emitCode c l F).2.size O := ⟨ho, hnew.2⟩
    obtain ⟨ho', hk4⟩ := ha.closes rfl helse halt
    refine ⟨⟨ho', ((hk1.trans hk2).trans (hk3.mono (subset_insert _ O))).trans hk4⟩, ?_⟩
    intro G fuel s hG
    have hG3 := hk4.extend.trans hG
    have hG2 := hk3.extend.trans hG3
    refine (emitCode_reaches c h (hk2.extend.trans hG2) s).bind ?_
    intro s _
    have hhere := h1.keeps_newBlock.here (s := s) (mem_insert _ _)
    have hstep := hG2.step_term (S := S) (s := s) h2.lt
    rw [hhere, goto] at hstep
    cases hq : S.test cond s with
    | true =>
      have hifHere := h1.keeps_newBlock.here (s := s) (mem_insert_of_mem _ (mem_insert ifBlock O))
      rw [hq, if_pos rfl, ← hempty1, ← hifHere] at hstep
      have hrun := hc.closes hif2 hcons hG3 fuel s
      rw [here_setTerm] at hrun
      exact hrun.head (.single hstep)
    | false =>
      have helseHere := hk3.here (s := s) (mem_insert _ O)
      rw [here_setTerm, here_newBlock] at helseHere
      rw [hq, if_neg (by simp), ← helseHere] at hstep
      exact (ha.reaches rfl helse halt hG).head (.single hstep)
  | false =>
    obtain ⟨hemit, hrun⟩ := ha.absent rfl
    rw [hemit] at halt
    cases halt
    have hif2 := cursor_setTerm h1 hif (.condBr cond ifBlock endBlock)
    have hk2 := (h1.keeps_setTerm (.condBr cond ifBlock endBlock)).mono (subset_insert ifBlock O)
    obtain ⟨ho, hk3⟩ := (hc.leaves hif2 hcons).closeWith endBlock
    refine ⟨⟨ho, (hk1.trans hk2).trans hk3⟩, ?_⟩
    intro G fuel s hG
    have hG2 := hk3.extend.trans hG
    refine (emitCode_reaches c h (hk2.extend.trans hG2) s).bind ?_
    intro s _
    have hstep := hG2.step_term (S := S) (s := s) h1.lt
    rw [goto] at hstep
    cases hq : S.test cond s with
    | true =>
      rw [hq, if_pos rfl, ← hempty1] at hstep
      have hrun := hc.closes hif2 hcons hG fuel s
      rw [here_setTerm] at hrun
      exact hrun.head (.single hstep)
    | false =>
      rw [hq, if_neg (by simp)] at hstep
      simp only [hrun, Bool.false_eq_true, if_false]
      exact ⟨1, .single hstep⟩

theorem cursor_newBlocks (h : Cursor F l O) : Cursor (F.newBlocks 2) l (insert F.size (insert (F.size + 1) O)) := by
  rw [insert_comm]
  exact h.newBlock.newBlock

theorem sound_ifElse (c : Code α β) (cond : β) (hc : Sound S ends exited consequent run)
    (ha : SoundAlternate S ends hasAlternate alternate run') :
    Sound S ends false
      (fun l F => (processIfElseBlock hasAlternate c cond consequent alternate l F.size (F.size + 1)
        (F.newBlocks 2)).map fun F' => (F.size + 1, F'))
      (fun fuel s => (ofCode (execCode S c s)).bind fun s =>
        if S.test cond s then run fuel s else run' fuel s) where
  leaves {O l l' F F'} h he := by
    obtain ⟨F1, he, heq⟩ := map_eq_some_iff.mp he
    cases heq
    have hif : F.size ∉ insert (F.size + 1) O := by simp [size_notMem h]
    obtain ⟨⟨ho, hk⟩, -⟩ := processIfElseBlock_sound hc ha (cursor_newBlocks h) hif
      (fun _ => here_newBlocks (i := 0) (by decide)) he
    exact ⟨((h.keeps_newBlocks 2).mono (subset_insert l O)).trans (hk.mono (subset_insert _ O)), ho,
      size_add_notMem h 1⟩
  reaches {O l l' F F' G fuel s} h he hG := by
    obtain ⟨F1, he, heq⟩ := map_eq_some_iff.mp he
    cases heq
    have hif : F.size ∉ insert (F.size + 1) O := by simp [size_notMem h]
    obtain ⟨⟨-, hk⟩, hr⟩ := processIfElseBlock_sound hc ha (cursor_newBlocks h) hif
      (fun _ => here_newBlocks (i := 0) (by decide)) he
    have hend (s : σ) : F'.here (F.size + 1) s = .run (F.size + 1) 0 s :=
      (hk.here (mem_insert _ O)).trans (here_newBlocks (by decide))
    rw [← (h.keeps_newBlocks 2).here (mem_insert l O), funext hend]
    exact hr hG
  exit := by simp

theorem soundAlternate_none :
    SoundAlternate S ends false (fun _ _ (F : Func α β ρ) => some F) (fun _ s => .normal s) where
  closes := by simp
  reaches := by simp
  absent _ := ⟨fun _ _ _ => rfl, fun _ _ => rfl⟩

theorem soundAlternate_block (h : Sound S ends exited consequent run) :
    SoundAlternate S ends true (fun l k F => (consequent l F).bind fun p => some (closeWith p.2 p.1 k)) run where
  closes _ {O l k F F'} hc he := by
    obtain ⟨p, hp, he⟩ := bind_eq_some_iff.mp he
    cases he
    exact (h.leaves hc hp).closeWith k
  reaches _ {O l k F F' G fuel s} hc he hG := by
    obtain ⟨p, hp, he⟩ := bind_eq_some_iff.mp he
    cases he
    exact h.closes hc hp hG fuel s
  absent := by simp

theorem soundAlternate_elseIf (c : Code α β) (cond : β) (hc : Sound S ends exited consequent run)
    (ha : SoundAlternate S ends hasAlternate alternate run') :
    SoundAlternate S ends true
      (fun l k F => processIfElseBlock hasAlternate c cond consequent alternate l F.size k F.newBlock)
      (fun fuel s => (ofCode (execCode S c s)).bind fun s =>
        if S.test cond s then run fuel s else run' fuel s) where
  closes _ {O l k F F'} h he := by
    obtain ⟨⟨ho, hk⟩, -⟩ := processIfElseBlock_sound hc ha h.newBlock (size_notMem h) (fun _ => here_newBlock) he
    exact ⟨ho, (h.keeps_newBlock.mono (subset_insert l O)).trans hk⟩
  reaches _ {O l k F F' G fuel s} h he hG := by
    obtain ⟨-, hr⟩ := processIfElseBlock_sound hc ha h.newBlock (size_notMem h) (fun _ => here_newBlock) he
    rw [← h.keeps_newBlock.here (mem_insert l O)]
    exact hr hG
  absent := by simp

end Conditionals

section Loops

variable {exited : Bool} {body : Nat → Nat → Func α β ρ → Option (Nat × Func α β ρ)} {run : Nat → σ → Outcome ρ σ}

theorem processWhileBlock_sound {c : Code α β} {cond : β} (hb : ∀ k, Sound S (k :: ends) exited (body k) run)
    (h : Cursor F l O) (he : processWhileBlock c cond body l F = some (l', F')) :
    Leaves false O F l' F' ∧ ∀ {G fuel s}, Extends F' G →
      Reaches S G ends fuel (F.here l s) (F'.here l') (execLoop S (execCode S c) cond (run fuel) id fuel s) := by
  obtain ⟨h1, hk1⟩ := cursor_branch (P := insert (F.size + 1) (insert (F.size + 2) O)) h 3 (.br F.size)
    (by
      intro k
      by_cases hk : k ∈ O <;> simp [hk]
      omega)
    (by simp [size_notMem h])
  obtain ⟨h2, hk2⟩ := emitCode_cursor c h1
  simp only [processWhileBlock, bind_eq_bind, bind_eq_some_iff, Prod.exists, Option.pure_def,
    Option.some.injEq] at he
  obtain ⟨b, F3, hbody, he⟩ := he
  cases he
  have hn : F.size + 1 ∉ insert (F.size + 2) O := by simp [size_add_notMem h 1]
  have h3 := cursor_setTerm h2 hn (.condBr cond (F.size + 1) (F.size + 2))
  have hk3 := h2.keeps_setTerm (.condBr cond (F.size + 1) (F.size + 2))
  obtain ⟨ho, hk4⟩ := ((hb (F.size + 2)).leaves h3 hbody).closeWith F.size
  have hsub : O ⊆ insert (F.size + 1) (insert (F.size + 2) O) :=
    (subset_insert _ O).trans (subset_insert _ _)
  refine ⟨⟨((hk1.trans (hk2.mono hsub)).trans (hk3.mono hsub)).trans (hk4.mono (subset_insert _ O)), ho,
    size_add_notMem h 2⟩, ?_⟩
  intro G fuel s hG
  have hG3 := hk4.extend.trans hG
  have hG2 := hk3.extend.trans hG3
  have hentry := h.step_newBlocks (S := S) (s := s) (hk2.extend.trans hG2)
  have hend (s : σ) : (closeWith F3 b F.size).here (F.size + 2) s = .run (F.size + 2) 0 s := by
    rw [hk4.here (mem_insert _ _), here_setTerm, hk2.here (mem_insert_of_mem _ (mem_insert _ _)),
      here_branch (by decide)]
  rw [funext hend]
  have htest (s : σ) : Reaches S G ends fuel _ _ _ := emitCode_reaches c h1 hG2 s
  have hrun := (hb _).closes h3 hbody hG fuel
  simp only [here_branch_first (n := 3) (by decide)] at htest
  simp only [here_setTerm, hk2.here (mem_insert _ _), here_branch (n := 3) (i := 1) (by decide)] at hrun
  exact (execLoop_reaches htest (fun s => hG3.step_term h2.lt) hrun (fun s s' _ => ⟨0, .refl _⟩) le_rfl s).head
    (.single hentry)

theorem sound_while (c : Code α β) (cond : β) (hb : ∀ k, Sound S (k :: ends) exited (body k) run) :
    Sound S ends false (processWhileBlock c cond body)
      (fun fuel s => execLoop S (execCode S c) cond (run fuel) id fuel s) where
  leaves h he := (processWhileBlock_sound hb h he).1
  reaches h he hG := (processWhileBlock_sound hb h he).2 hG
  exit := by simp

theorem processForBlock_sound {loads increment : List α} {cond : β}
    (hb : ∀ k, Sound S (k :: ends) exited (body k) run) (h : Cursor F l O)
    (he : processForBlock .done loads cond body increment l F = some (l', F')) :
    Leaves false O F l' F' ∧ ∀ {G fuel s}, Extends F' G → Reaches S G ends fuel (F.here l s) (F'.here l')
        (execLoop S (fun s => .ok (execInsts S loads s)) cond (run fuel) (execInsts S increment) fuel s) := by
  obtain ⟨h1, hk1⟩ := cursor_branch (P := insert (F.size + 1) (insert (F.size + 2) (insert (F.size + 3) O))) h 4
    (.br F.size)
    (by
      intro k
      by_cases hk : k ∈ O <;> simp [hk]
      omega)
    (by simp [size_notMem h])
  obtain ⟨h2, hk2⟩ := h1.addInsts loads
  simp only [processForBlock, emitCode, bind_eq_bind, bind_eq_some_iff, Prod.exists, Option.pure_def,
    Option.some.injEq] at he
  obtain ⟨b, F3, hbody, he⟩ := he
  cases he
  have hn1 : F.size + 1 ∉ insert (F.size + 2) (insert (F.size + 3) O) := by simp [size_add_notMem h 1]
  have hn2 : F.size + 2 ∉ insert (F.size + 3) O := by simp [size_add_notMem h 2]
  have h3 := cursor_setTerm h2 hn1 (.condBr cond (F.size + 1) (F.size + 3))
  have hk3 := h2.keeps_setTerm (.condBr cond (F.size + 1) (F.size + 3))
  obtain ⟨ho, hk4⟩ := ((hb (F.size + 3)).leaves h3 hbody).closeWith (F.size + 2)
  have h4 : Cursor (closeWith F3 b (F.size + 2)) (F.size + 2) (insert (F.size + 3) O) := ⟨ho, hn2⟩
  obtain ⟨h5, hk5⟩ := h4.addInsts increment
  have h6 := cursor_setTerm h5 (size_add_notMem h 3) (.br F.size)
  have hk6 := h5.keeps_setTerm (.br F.size)
  have hsub : O ⊆ insert (F.size + 2) (insert (F.size + 3) O) :=
    (subset_insert _ O).trans (subset_insert _ _)
  refine ⟨⟨?_, h6⟩, ?_⟩
  · refine (hk1.trans (hk2.mono (hsub.trans (subset_insert _ _)))).trans ?_
    refine (hk3.mono (hsub.trans (subset_insert _ _))).trans ((hk4.mono hsub).trans ?_)
    exact (hk5.trans hk6).mono (subset_insert _ O)
  intro G fuel s hG
  have hG5 := hk6.extend.trans hG
  have hG4 := hk5.extend.trans hG5
  have hG3 := hk4.extend.trans hG4
  have hG2 := hk3.extend.trans hG3
  have hentry := h.step_newBlocks (S := S) (s := s) (hk2.extend.trans hG2)
  have hend (s : σ) : (((closeWith F3 b (F.size + 2)).addInsts (F.size + 2) increment).setTerm (F.size + 2)
      (.br F.size)).here (F.size + 3) s = .run (F.size + 3) 0 s := by
    rw [here_setTerm, hk5.here (mem_insert _ _), hk4.here (mem_insert_of_mem _ (mem_insert _ _)),
      here_setTerm, hk2.here (by simp), here_branch (by decide)]
  rw [funext hend]
  have htest (s : σ) := addInsts_steps (S := S) loads h1 hG2 s
  have hrun := (hb _).closes h3 hbody hG4 fuel
  have hinc (s : σ) := addInsts_steps (S := S) increment h4 hG5 s
  simp only [here_branch_first (n := 4) (by decide)] at htest
  simp only [here_setTerm, hk2.here (mem_insert _ _), here_branch (n := 4) (i := 1) (by decide)] at hrun
  have hempty (s : σ) : (closeWith F3 b (F.size + 2)).here (F.size + 2) s = .run (F.size + 2) 0 s := by
    rw [hk4.here (mem_insert _ _), here_setTerm, hk2.here (by simp), here_branch (by decide)]
  simp only [hempty] at hinc
  have hback (s : σ) : ∃ n, Steps S G n (.run (F.size + 2) 0 s) (.run F.size 0 (execInsts S increment s)) := by
    obtain ⟨n, hn⟩ := hinc s
    exact ⟨n + 1, hn.trans (.single (hG.step_term h5.lt))⟩
  exact (execLoop_reaches htest (fun s => hG3.step_term h2.lt) hrun (fun s s' _ => hback s') le_rfl s).head
    (.single hentry)

theorem sound_foreach (bounds : Code α β) (loads : List α) (cond : β) (increment : List α)
    (hb : ∀ k, Sound S (k :: ends) exited (body k) run) :
    Sound S ends false (processForBlock bounds loads cond body increment)
      (fun fuel s => (ofCode (execCode S bounds s)).bind
        (execLoop S (fun s => .ok (execInsts S loads s)) cond (run fuel) (execInsts S increment) fuel)) := by
  have hloop : Sound S ends false (processForBlock .done loads cond body increment) (fun fuel s =>
      execLoop S (fun s => .ok (execInsts S loads s)) cond (run fuel) (execInsts S increment) fuel s) := {
    leaves := fun h he => (processForBlock_sound hb h he).1
    reaches := fun h he hG => (processForBlock_sound hb h he).2 hG
    exit := by simp }
  exact hloop.simple bounds

end Loops

section Bodies

mutual

theorem processBlock_sound : (b : Body α β ρ) → Tidy b → ∀ ends,
    Sound S ends (exits b) (processBlock result b ends) (fun fuel => execBlock S result fuel b)
  | .nil, _, ends => sound_nil
  | .simple c rest, ht, ends => (processBlock_sound rest ht ends).simple c
  | .atomic body rest, ⟨htb, htr, hnil⟩, ends => by
    refine (processBlock_sound body htb ends).seq (processBlock_sound rest htr ends) ?_
    intro hx
    rw [hnil hx]
    exact ⟨fun _ _ => rfl, fun _ _ => rfl⟩
  | .ifElse c cond consequent alternate rest, ⟨htc, hta, htr⟩, ends => by
    have hif := sound_ifElse c cond (processBlock_sound consequent htc ends) (processAlternate_sound alternate hta ends)
    have hseq := hif.seq (processBlock_sound rest htr ends) (by simp)
    simp only [bind_map] at hseq
    exact hseq
  | .foreach bounds loads cond body increment rest, ⟨htb, htr⟩, ends =>
    (sound_foreach bounds loads cond increment fun k => processBlock_sound body htb (k :: ends)).seq
      (processBlock_sound rest htr ends) (by simp)
  | .whileLoop c cond body rest, ⟨htb, htr⟩, ends =>
    (sound_while c cond fun k => processBlock_sound body htb (k :: ends)).seq
      (processBlock_sound rest htr ends) (by simp)
  | .breakLoop _, _, ends => sound_break
  | .ret c value _, _, ends => (sound_ret value).simple c

theorem processAlternate_sound : (a : Alternate α β ρ) → TidyAlternate a → ∀ ends,
    SoundAlternate S ends a.isSome (processAlternate result a ends) (fun fuel => execAlternate S result fuel a)
  | .none, _, _ => soundAlternate_none
  | .block body, ht, ends => soundAlternate_block (processBlock_sound body ht ends)
  | .elseIf c cond consequent alternate, ⟨htc, hta⟩, ends =>
    soundAlternate_elseIf c cond (processBlock_sound consequent htc ends) (processAlternate_sound alternate hta ends)

end

end Bodies

end Picasso.Codegen.Blocks
