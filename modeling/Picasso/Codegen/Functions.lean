import Picasso.Codegen.Preservation

namespace Picasso.Codegen.Blocks

open Lib.ControlFlow Option Function Func Outcome

variable {α β ρ σ : Type} {S : Semantics α β σ} {F F' G : Func α β ρ} {O : Set Nat} {l l' fuel : Nat}
  {ends : List Nat} {result result' : ρ → Option ρ} {s : σ}

section Preserved

def Outcome.config : Outcome ρ σ → Option (Config ρ σ)
  | .returned s v => some (.returned s v)
  | .aborted s => some (.aborted s)
  | _ => none

def Final : Config ρ σ → Prop
  | .run _ _ _ => False
  | _ => True

/-- The graph ends as the statements do, with the same effects on the state and
the same value, and if they run on it passes through their states. -/
def Preserved (S : Semantics α β σ) (G : Func α β ρ) (exec : Nat → σ → Outcome ρ σ) : Prop :=
  ∀ s, (∀ c, Final c → ((∃ fuel, (exec fuel s).config = some c) ↔ ∃ n, Steps S G n (.run 0 0 s) c)) ∧
    ∀ fuel s', exec fuel s = .running s' → ∃ n l i, fuel ≤ n ∧ Steps S G n (.run 0 0 s) (.run l i s')

theorem step_of_final {c : Config ρ σ} (h : Final c) : step S G c = none := by
  cases c with
  | run l i s => exact h.elim
  | returned s v | aborted s => rfl

theorem Steps.eq_of_final {c d e : Config ρ σ} {m n : Nat} (h : Steps S G m c d) (h' : Steps S G n c e) (hd : Final d)
    (he : Final e) : d = e := by
  obtain ⟨k, -, hk⟩ := h.rest h' (step_of_final he)
  cases hk with
  | refl => rfl
  | head hs _ =>
    rw [step_of_final hd] at hs
    contradiction

/-- It suffices that the graph follows the statements forward. If it ends after
`n` steps, they end with more fuel than that. -/
theorem preserved_of_reaches {exec : Nat → σ → Outcome ρ σ} {next : σ → Config ρ σ}
    (h : ∀ fuel s, Reaches S G [] fuel (.run 0 0 s) next (exec fuel s))
    (hn : ∀ fuel s s', exec fuel s ≠ .normal s') : Preserved S G exec := by
  intro s
  refine ⟨?_, ?_⟩
  · intro c hc
    constructor
    · rintro ⟨fuel, hf⟩
      have hr := h fuel s
      cases ho : exec fuel s with
      | returned s' v | aborted s' =>
        rw [ho] at hf hr
        cases hf
        exact hr
      | normal s' | broke s' | running s' =>
        rw [ho] at hf
        contradiction
    · rintro ⟨n, hs⟩
      have hr := h (n + 1) s
      refine ⟨n + 1, ?_⟩
      cases ho : exec (n + 1) s with
      | normal s' => exact absurd ho (hn _ _ _)
      | broke s' =>
        rw [ho] at hr
        obtain ⟨e, he, -⟩ := hr
        contradiction
      | returned s' v | aborted s' =>
        rw [ho] at hr
        obtain ⟨m, hm⟩ := hr
        rw [← Steps.eq_of_final hm hs trivial hc]
        rfl
      | running s' =>
        rw [ho] at hr
        obtain ⟨m, l, i, hle, hm⟩ := hr
        obtain ⟨k, hk, -⟩ := hm.rest hs (step_of_final hc)
        omega
  · intro fuel s' ho
    have hr := h fuel s
    rw [ho] at hr
    exact hr

end Preserved

section Returns

mutual

def ReturnFree : Body α β ρ → Prop
  | .nil => True
  | .simple _ rest => ReturnFree rest
  | .atomic body rest => ReturnFree body ∧ ReturnFree rest
  | .ifElse _ _ consequent alternate rest =>
    ReturnFree consequent ∧ ReturnFreeAlternate alternate ∧ ReturnFree rest
  | .foreach _ _ _ body _ rest => ReturnFree body ∧ ReturnFree rest
  | .whileLoop _ _ body rest => ReturnFree body ∧ ReturnFree rest
  | .breakLoop _ => True
  | .ret _ _ _ => False

def ReturnFreeAlternate : Alternate α β ρ → Prop
  | .none => True
  | .block body => ReturnFree body
  | .elseIf _ _ consequent alternate => ReturnFree consequent ∧ ReturnFreeAlternate alternate

end

/-- A `return` stands only at the end of the statements, not in a branch or a
loop. -/
def ReturnsLast : Body α β ρ → Prop
  | .nil => True
  | .simple _ rest => ReturnsLast rest
  | .atomic body rest => ReturnsLast body ∧ ReturnsLast rest
  | .ifElse _ _ consequent alternate rest =>
    ReturnFree consequent ∧ ReturnFreeAlternate alternate ∧ ReturnsLast rest
  | .foreach _ _ _ body _ rest => ReturnFree body ∧ ReturnsLast rest
  | .whileLoop _ _ body rest => ReturnFree body ∧ ReturnsLast rest
  | .breakLoop _ => True
  | .ret _ _ _ => True

mutual

theorem processBlock_congr (result result' : ρ → Option ρ) : (b : Body α β ρ) → ReturnFree b → ∀ ends,
    processBlock result b ends = processBlock result' b ends
  | .nil, _, _ => rfl
  | .simple c rest, h, ends => by
    funext l F
    simp only [processBlock, processBlock_congr result result' rest h ends]
  | .atomic body rest, ⟨hb, hr⟩, ends => by
    funext l F
    simp only [processBlock, processBlock_congr result result' body hb ends,
      processBlock_congr result result' rest hr ends]
  | .ifElse c cond consequent alternate rest, ⟨hc, ha, hr⟩, ends => by
    funext l F
    simp only [processBlock, processBlock_congr result result' consequent hc ends,
      processAlternate_congr result result' alternate ha ends,
      processBlock_congr result result' rest hr ends]
  | .foreach bounds loads cond body increment rest, ⟨hb, hr⟩, ends | .whileLoop c cond body rest, ⟨hb, hr⟩, ends => by
    funext l F
    simp only [processBlock, processBlock_congr result result' body hb, processBlock_congr result result' rest hr ends]
  | .breakLoop _, _, _ => rfl
  | .ret _ _ _, h, _ => h.elim

theorem processAlternate_congr (result result' : ρ → Option ρ) : (a : Alternate α β ρ) → ReturnFreeAlternate a → ∀ ends,
    processAlternate result a ends = processAlternate result' a ends
  | .none, _, _ => rfl
  | .block body, h, ends => by
    funext e k F
    simp only [processAlternate, processBlock_congr result result' body h ends]
  | .elseIf c cond consequent alternate, ⟨hc, ha⟩, ends => by
    funext e k F
    simp only [processAlternate, processBlock_congr result result' consequent hc ends,
      processAlternate_congr result result' alternate ha ends]

end

theorem setTerm_setTerm (F : Func α β ρ) (l : Nat) (t t' : Terminator β ρ) :
    (F.setTerm l t).setTerm l t' = F.setTerm l t' := by
  simp [setTerm]

/-- Two emissions that differ in the values of their returns differ only in the
last terminator, which a constructor overwrites. -/
theorem processBlock_overwrite : (b : Body α β ρ) → ∀ {l l'} {F F' : Func α β ρ}, Tidy b → ReturnsLast b →
    processBlock result b ends l F = some (l', F') → ∃ F'', processBlock result' b ends l F = some (l', F'') ∧
      (∀ t, F'.setTerm l' t = F''.setTerm l' t) ∧ (exits b = false → F' = F'')
  | .nil, l, l', F, F', _, _, he => ⟨F', he, fun _ => rfl, fun _ => rfl⟩
  | .simple c rest, l, l', F, F', ht, hr, he => processBlock_overwrite rest ht hr he
  | .atomic body rest, l, l', F, F', ⟨htb, htr, hnil⟩, ⟨hb, hr⟩, he => by
    obtain ⟨⟨l1, F1⟩, he1, he2⟩ := bind_eq_some_iff.mp he
    obtain ⟨F2, he3, hset, heq⟩ := processBlock_overwrite body htb hb he1
    simp only [processBlock, he3, bind_eq_bind, bind_some]
    cases hx : exits body with
    | true =>
      rw [hnil hx] at he2 ⊢
      cases he2
      exact ⟨F2, rfl, hset, by simp [exits, hx]⟩
    | false =>
      rw [← heq hx]
      obtain ⟨F3, he4, hset', heq'⟩ := processBlock_overwrite rest htr hr he2
      exact ⟨F3, he4, hset', by simpa [exits, hx] using heq'⟩
  | .ifElse c cond consequent alternate rest, l, l', F, F', ⟨_, _, htr⟩, ⟨hc, ha, hr⟩, he => by
    obtain ⟨F1, he1, he2⟩ := bind_eq_some_iff.mp he
    rw [processBlock_congr result result' consequent hc, processAlternate_congr result result' alternate ha] at he1
    simp only [processBlock, he1, bind_eq_bind, bind_some]
    exact processBlock_overwrite rest htr hr he2
  | .foreach bounds loads cond body increment rest, l, l', F, F', ⟨_, htr⟩, ⟨hb, hr⟩, he
  | .whileLoop c cond body rest, l, l', F, F', ⟨_, htr⟩, ⟨hb, hr⟩, he => by
    obtain ⟨⟨l1, F1⟩, he1, he2⟩ := bind_eq_some_iff.mp he
    simp only [processBlock_congr result result' body hb] at he1
    simp only [processBlock, he1, bind_eq_bind, bind_some]
    exact processBlock_overwrite rest htr hr he2
  | .breakLoop _, l, l', F, F', _, _, he => ⟨F', he, fun _ => rfl, fun _ => rfl⟩
  | .ret c value _, l, l', F, F', _, _, he => by
    cases he
    exact ⟨_, rfl, fun t => by rw [setTerm_setTerm, setTerm_setTerm], by simp [exits]⟩

theorem processBlock_term : (b : Body α β ρ) → ∀ {l l'} {F F' : Func α β ρ}, Tidy b → exits b = true →
    processBlock result b [] l F = some (l', F') → ∃ v, (F'.block l').term = some (.ret (result v))
  | .nil, l, l', F, F', _, hx, _ => by contradiction
  | .simple c rest, l, l', F, F', ht, hx, he => processBlock_term rest ht hx he
  | .atomic body rest, l, l', F, F', ⟨htb, htr, hnil⟩, hx, he => by
    obtain ⟨⟨l1, F1⟩, he1, he2⟩ := bind_eq_some_iff.mp he
    cases hb : exits body with
    | true =>
      rw [hnil hb] at he2
      cases he2
      exact processBlock_term body htb hb he1
    | false =>
      rw [exits, hb, Bool.false_or] at hx
      exact processBlock_term rest htr hx he2
  | .ifElse c cond consequent alternate rest, l, l', F, F', ⟨_, _, htr⟩, hx, he => by
    obtain ⟨F1, -, he2⟩ := bind_eq_some_iff.mp he
    exact processBlock_term rest htr hx he2
  | .foreach bounds loads cond body increment rest, l, l', F, F', ⟨_, htr⟩, hx, he
  | .whileLoop c cond body rest, l, l', F, F', ⟨_, htr⟩, hx, he => by
    obtain ⟨⟨l1, F1⟩, -, he2⟩ := bind_eq_some_iff.mp he
    exact processBlock_term rest htr hx he2
  | .breakLoop _, l, l', F, F', _, _, he => by contradiction
  | .ret c value _, l, l', F, F', _, _, he => by
    cases he
    exact ⟨value, by simp [setTerm]⟩

end Returns

section Functions

variable {kind : Kind ρ} {params : Code α β} {body : Body α β ρ}

/-- The last block gets a terminator: a function with a return type ends with a
`return` of its own. -/
def Closes : Kind ρ → Body α β ρ → Prop
  | .typed, body => exits body = true
  | _, _ => True

def Settled : Kind ρ → Body α β ρ → Prop
  | .constructor _, body => ReturnsLast body
  | _, _ => True

theorem cursor_start : Cursor (Func.empty.newBlocks 2 : Func α β ρ) 1 {0} where
  opens k := by
    simp only [Set.mem_insert_iff, Set.mem_singleton_iff, newBlocks, newBlock, empty]
    obtain rfl | rfl | hk : k = 0 ∨ k = 1 ∨ 2 ≤ k := by omega
    · simp
    · simp
    · exact iff_of_false (by omega) fun h => by omega
  notMem := by simp

theorem setTerm_comm {k : Nat} (h : l ≠ k) (t t' : Terminator β ρ) :
    (F.setTerm k t).setTerm l t' = (F.setTerm l t').setTerm k t := by
  simp [setTerm, update_comm h, update_of_ne h, update_of_ne h.symm]

theorem setTerm_eq_self {t : Terminator β ρ} (h : (F.block l).term = some t) : F.setTerm l t = F := by
  have hb : { F.block l with term := some t } = F.block l := by rw [← h]
  rw [setTerm, hb, update_eq_self]

theorem Leaves.ne {exited : Bool} {k : Nat} (h : Leaves exited O F l' F') (hk : k ∈ O) : l' ≠ k := by
  rintro rfl
  obtain ⟨-, h⟩ := h
  cases exited with
  | true => exact h.2 ((h.1 l').mp hk).2
  | false => exact Cursor.notMem h hk

def emitFunc (result : ρ → Option ρ) (params : Code α β) (body : Body α β ρ) (l : Nat) (F : Func α β ρ) :
    Option (Nat × Func α β ρ) :=
  processBlock result body [] (emitCode params l F).1 (emitCode params l F).2

def closeFunc (kind : Kind ρ) (l : Nat) (F : Func α β ρ) : Func α β ρ :=
  match kind with
  | .constructor instanceValue => (F.setTerm 0 (.br 1)).setTerm l (.ret (some instanceValue))
  | .void => (F.setTerm 0 (.br 1)).setTerm l (.ret none)
  | .typed => F.setTerm 0 (.br 1)

theorem emitFunc_sound (ht : Tidy body) : Sound S [] (exits body) (emitFunc result params body)
    (fun fuel s => (ofCode (execCode S params s)).bind (execBlock S result fuel body)) :=
  (processBlock_sound body ht []).simple params

theorem defineFunc_emits (ht : Tidy body) (hs : Settled kind body) (h : defineFunc kind params body = some G) :
    ∃ l' F', emitFunc kind.result params body 1 (Func.empty.newBlocks 2) = some (l', F') ∧ G = closeFunc kind l' F' := by
  simp only [defineFunc, bind_eq_bind, bind_eq_some_iff, Prod.exists] at h
  obtain ⟨l', F', he, hG⟩ := h
  cases kind with
  | void | typed =>
    cases hG
    exact ⟨l', F', he, rfl⟩
  | constructor v =>
    cases hG
    obtain ⟨F'', he', hset, -⟩ := processBlock_overwrite body ht hs he
    have hl := (emitFunc_sound ht (S := (⟨fun _ s => s, fun _ _ => true⟩ : Semantics α β Unit))).leaves cursor_start he
    have hne : l' ≠ 0 := hl.ne rfl
    refine ⟨l', F'', he', ?_⟩
    rw [closeFunc, setTerm_comm hne, setTerm_comm hne, hset]

theorem closeFunc_exits (ht : Tidy body) (hx : exits body = true)
    (he : emitFunc kind.result params body l F = some (l', F')) (hne : l' ≠ 0) :
    closeFunc kind l' F' = F'.setTerm 0 (.br 1) := by
  obtain ⟨v, hv⟩ := processBlock_term body ht hx he
  have hterm : ((F'.setTerm 0 (.br 1)).block l').term = some (.ret (kind.result v)) := by
    simpa [setTerm, update_of_ne hne] using hv
  cases kind with
  | typed => rfl
  | void | constructor v => exact setTerm_eq_self hterm

theorem closes_of_exits (kind : Kind ρ) (hx : exits body = true) : Closes kind body := by
  cases kind with
  | typed => exact hx
  | void | constructor v => trivial

theorem closeFunc_spec (ht : Tidy body)
    (he : emitFunc kind.result params body 1 (Func.empty.newBlocks 2) = some (l', F'))
    (hl : Leaves (exits body) {0} (Func.empty.newBlocks 2) l' F') :
    Extends (F'.setTerm 0 (.br 1)) (closeFunc kind l' F') ∧ Cursor F' 0 (if exits body then ∅ else {l'}) ∧
      ((closeFunc kind l' F').Terminated ↔ Closes kind body) := by
  have hne : l' ≠ 0 := hl.ne rfl
  cases hx : exits body with
  | true =>
    rw [hx] at hl
    have hc : Cursor F' 0 ∅ := ⟨by simpa using hl.2.1, by simp⟩
    rw [closeFunc_exits ht hx he hne]
    exact ⟨.refl _, hc, iff_of_true ((hc.setTerm _).terminated.mpr rfl) (closes_of_exits kind hx)⟩
  | false =>
    rw [hx] at hl
    have hc : Cursor F' 0 {l'} := by
      refine ⟨?_, by simpa using hne.symm⟩
      rw [Set.pair_comm]
      exact Cursor.opens hl.2
    have hc' : Cursor (F'.setTerm 0 (.br 1)) l' ∅ := ⟨by simpa using hc.setTerm _, by simp⟩
    cases kind with
    | typed =>
      refine ⟨.refl _, hc, ?_⟩
      rw [closeFunc, (hc.setTerm _).terminated, Closes, hx]
      simp
    | void | constructor v =>
      exact ⟨(hc'.keeps_setTerm _).extend, hc, iff_of_true ((hc'.setTerm _).terminated.mpr rfl) trivial⟩

theorem step_closeFunc {c : Option ρ} (hl : Leaves false {0} F l' F') (hf : kind.finish s = .returned s c) :
    step S (closeFunc kind l' F') (F'.here l' s) = some (.returned s c) := by
  have hcur : Cursor F' l' {0} := hl.2
  have hlt : l' < (F'.setTerm 0 (.br 1)).size := hcur.lt
  rw [← here_setTerm (l := 0) (t := .br 1)]
  cases kind with
  | typed => contradiction
  | void | constructor v =>
    cases hf
    exact (Extends.refl _).step_term hlt

theorem finish_returned (h : Closes kind body) (hx : exits body = false) :
    ∃ c, ∀ s : σ, kind.finish s = .returned s c := by
  cases kind with
  | typed =>
    rw [Closes, hx] at h
    contradiction
  | void => exact ⟨none, fun _ => rfl⟩
  | constructor v => exact ⟨some v, fun _ => rfl⟩

theorem execFunc_reaches (ht : Tidy body) (hc : Closes kind body)
    (he : emitFunc kind.result params body 1 (Func.empty.newBlocks 2) = some (l', F')) (fuel : Nat) (s : σ) :
    Reaches S (closeFunc kind l' F') [] fuel (.run 0 0 s) (F'.here l') (execFunc S kind params body fuel s) ∧
      ∀ s', execFunc S kind params body fuel s ≠ .normal s' := by
  have hsound : Sound S [] (exits body) (emitFunc kind.result params body) _ := emitFunc_sound ht
  have hl := hsound.leaves cursor_start he
  obtain ⟨hext, hcur, -⟩ := closeFunc_spec ht he hl
  have hassoc : execFunc S kind params body fuel s =
      ((ofCode (execCode S params s)).bind (execBlock S kind.result fuel body)).bind kind.finish := by
    rw [execFunc]
    cases execCode S params s <;> rfl
  -- the block of the allocations is empty and leads to the one of the parameters
  have hentry : step S (closeFunc kind l' F') (.run 0 0 s) = some (.run 1 0 s) := by
    have hstep := hext.step_term (S := S) (s := s) hcur.lt
    rwa [hl.1.here rfl, show here _ 0 s = .run 0 0 s from here_newBlocks (F := .empty) (i := 0)
      (by decide)] at hstep
  have hreach : Reaches S (closeFunc kind l' F') [] fuel (here _ 1 s) _ _ :=
    hsound.reaches cursor_start he ((hcur.keeps_setTerm _).extend.trans hext)
  rw [show here _ 1 s = .run 1 0 s from here_newBlocks (F := .empty) (i := 1) (by decide)] at hreach
  rw [hassoc]
  cases hx : exits body with
  | true =>
    have hne := hsound.exit hx fuel s
    refine ⟨(hreach.head (.single hentry)).bind ?_, fun s' => bind_ne_normal_left hne⟩
    intro t ht
    exact absurd ht (hne t)
  | false =>
    rw [hx] at hl
    obtain ⟨c, hc⟩ := finish_returned hc hx
    refine ⟨(hreach.head (.single hentry)).bind ?_, fun s' => bind_ne_normal ?_⟩
    · intro t _
      rw [hc t]
      exact ⟨1, .single (step_closeFunc hl (hc t))⟩
    · intro t
      rw [hc t]
      simp

/-- For tidy bodies whose returns are settled, all blocks are terminated just when
the function may close, and then the graph does what the statements say. -/
theorem defineFunc_preserves (ht : Tidy body) (hs : Settled kind body) (h : defineFunc kind params body = some G) :
    (G.Terminated ↔ Closes kind body) ∧ (Closes kind body → ∀ {σ} (S : Semantics α β σ),
      Preserved S G (execFunc S kind params body)) := by
  obtain ⟨l', F', he, rfl⟩ := defineFunc_emits ht hs h
  have hl := (emitFunc_sound ht (S := (⟨fun _ s => s, fun _ _ => true⟩ : Semantics α β Unit))).leaves cursor_start he
  obtain ⟨-, -, hterm⟩ := closeFunc_spec ht he hl
  refine ⟨hterm, fun hc σ S => ?_⟩
  exact preserved_of_reaches (fun fuel s => (execFunc_reaches ht hc he fuel s).1)
    fun fuel s => (execFunc_reaches ht hc he fuel s).2

theorem defineFunc_preserves_loop :
    let body : Body Nat Bool Nat :=
      .foreach (.check true 0 (.inst 1 .done)) [2] true
        (.ifElse (.logical true true (.inst 3 .done) .done) false (.breakLoop .nil) .none (.simple (.inst 4 .done) .nil))
        [5] (.ret .done 6 .nil)
    ∃ G, defineFunc .typed .done body = some G ∧ G.Terminated ∧
      ∀ S : Semantics Nat Bool (List Nat), Preserved S G (execFunc S .typed .done body) := by
  intro body
  have ht : Tidy body := ⟨⟨trivial, trivial, trivial⟩, trivial⟩
  obtain ⟨hterm, hpres⟩ := @defineFunc_preserves Nat Bool Nat _ .typed .done body ht trivial rfl
  exact ⟨_, rfl, hterm.mpr rfl, fun S => hpres rfl S⟩

/-- If both branches of a conditional return, the block after it has no
terminator. If an atomic block returns, what follows it runs before. A `return`
in a branch of a constructor yields nothing. -/
theorem unterminated_join :
    let branches : Body Unit Unit Nat := .ifElse .done () (.ret .done 1 .nil) (.block (.ret .done 2 .nil)) .nil
    let atomic : Body Unit Unit Nat := .atomic (.ret .done 1 .nil) (.simple (.inst () .done) .nil)
    let S : Semantics Unit Unit Nat := ⟨fun _ n => n + 1, fun _ _ => true⟩
    (∃ G, defineFunc .typed .done branches = some G ∧ ¬ G.Terminated ∧
      ∀ (S : Semantics Unit Unit Nat) fuel s, ∃ v, execFunc S .typed .done branches fuel s = .returned s v) ∧
    (∃ G, defineFunc .typed .done atomic = some G ∧
      execFunc S .typed .done atomic 0 0 = .returned 0 (some 1) ∧ Steps S G 3 (.run 0 0 0) (.returned 1 (some 1))) ∧
    ∃ G, defineFunc (.constructor 7) .done branches = some G ∧
      execFunc S (.constructor 7) .done branches 0 0 = .returned 0 (some 7) ∧ Steps S G 3 (.run 0 0 0) (.returned 0 none) := by
  refine ⟨⟨_, rfl, ?_, ?_⟩, ⟨_, rfl, rfl, ?_⟩, _, rfl, rfl, ?_⟩
  · intro h
    exact h 3 (by decide) rfl
  · intro S fuel s
    cases hq : S.test () s with
    | true => exact ⟨some 1, by simp [execFunc, execCode, execBlock, ofCode, Outcome.bind, hq, Kind.result]⟩
    | false =>
      exact ⟨some 2, by
        simp [execFunc, execCode, execBlock, execAlternate, ofCode, Outcome.bind, hq, Kind.result]⟩
  · exact .head rfl (.head rfl (.head rfl (.refl _)))
  · exact .head rfl (.head rfl (.head rfl (.refl _)))

end Functions

end Picasso.Codegen.Blocks
