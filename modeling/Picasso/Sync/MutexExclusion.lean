import Picasso.Sync.Mutex
import Picasso.Lib.Parties
import Mathlib.Data.Fintype.Basic

namespace Picasso.Sync.MutexExclusion

open Lib.Transition Lib Mutex

variable {T : Type} [DecidableEq T]

@[simp] def locked : Pc T → Bool
  | .slowLoad | .slowStore | .slowReturn | .slowPush | .slowRelease => true
  | .unlockStore | .unlockPop | .unlockPush _ | .unlockRelease => true
  | _ => false

/-- The points of a call at which `mtx->state` is 1 on behalf of a task that
has not yet returned from `sync_mutex_lock` or has already called unlock. -/
@[simp] def claims : Pc T → Nat
  | .slowReturn | .unlockAcquire | .unlockStore => 1
  | _ => 0

@[simp] def weight (s : State T) (t : T) : Nat := s.holds t + claims (s.pc t)

/-- What a step of `t` can do to the mutex word and to the share of `t` in it. -/
inductive WordEffect (s s' : State T) (t : T) : Prop
  | quiet (hw : weight s' t = weight s t) (hs : s'.state = s.state)
      (hp : s'.pc t = .slowStore → s.state = 0)
  | enter (hp : s.pc t = .slowStore ∨ s.pc t = .fastCas ∧ s.state = 0) (hw : weight s' t = weight s t + 1)
      (hs : s'.state = 1) (hp' : s'.pc t ≠ .slowStore)
  | leave (hp : s.pc t = .unlockStore) (hw : weight s t = weight s' t + 1)
      (hs : s'.state = 0) (hp' : s'.pc t ≠ .slowStore)

@[simp] def inside (s : State T) (t : T) : Bool := locked (s.pc t)

variable {s s' : State T} {t u : T} {o : Option T}

theorem advance_other (h : advance s t = some s') (hu : u ≠ t) : s'.pc u = s.pc u ∧ s'.holds u = s.holds u := by
  cases hp : s.pc t <;> simp only [advance, hp] at h <;> try split at h
  all_goals cases h
  all_goals simp [hu]

theorem advance_word (h : advance s t = some s') : WordEffect s s' t := by
  cases hp : s.pc t with
  | fastCas =>
    simp only [advance, hp] at h
    split at h <;> cases h
    · next h0 =>
      exact .enter (.inr ⟨hp, h0⟩) (by simp [hp]) rfl
        (by simp)
    · exact .quiet (by simp [hp]) rfl (by simp)
  | slowStore =>
    simp only [advance, hp] at h
    cases h
    exact .enter (.inl hp) (by simp [hp]) rfl (by simp)
  | unlockStore =>
    simp only [advance, hp] at h
    cases h
    exact .leave hp (by simp [hp]) rfl (by simp)
  | idle | slowAcquire | slowLoad | slowReturn | slowPush | slowRelease | slowYield | asleep | unlockAcquire
  | unlockPop | unlockPush | unlockRelease =>
    simp only [advance, hp] at h
    try split at h
    all_goals cases h
    all_goals refine .quiet ?_ ?_ ?_ <;> simp_all

theorem advance_lock (h : advance s t = some s') : Lock.Effect s.lock s'.lock (inside s) (inside s') t := by
  cases hp : s.pc t with
  | slowAcquire | unlockAcquire =>
    simp only [advance, hp] at h
    split at h
    · next hf => cases h; exact .acquire hf rfl
    · cases h
  | slowReturn | slowRelease | unlockRelease =>
    simp only [advance, hp] at h
    cases h
    exact .release (by simp [hp]) (by simp)
  | idle | fastCas | slowLoad | slowStore | slowPush | slowYield | asleep | unlockStore | unlockPop | unlockPush =>
    simp only [advance, hp] at h
    try split at h
    all_goals cases h
    all_goals refine .keep ?_ ?_ <;> simp [hp]

structure Effect (s s' : State T) (t : T) : Prop where
  other : ∀ u, u ≠ t → s'.pc u = s.pc u ∧ s'.holds u = s.holds u
  word : WordEffect s s' t
  lock : Lock.Effect s.lock s'.lock (inside s) (inside s') t

theorem step_effect {a : Act T} (h : step s a = some s') : Effect s s' a.task := by
  cases a with
  | lock t =>
    simp only [step] at h
    split at h
    · next hp =>
      cases h
      exact ⟨fun u hu => by simp [Act.task] at hu ⊢; simp [hu],
        .quiet (by simp [Act.task, hp]) rfl (by simp [Act.task]),
        .keep rfl (by simp [Act.task, hp])⟩
    · cases h
  | unlock t =>
    simp only [step] at h
    split at h
    · next hp =>
      cases h
      exact ⟨fun u hu => by simp [Act.task] at hu ⊢; simp [hu],
        .quiet (by simp [Act.task, hp]; omega) rfl (by simp [Act.task]),
        .keep rfl (by simp [Act.task, hp])⟩
    · cases h
  | step t => exact ⟨fun u => advance_other h, advance_word h, advance_lock h⟩

/-- At most one task is between its return from `sync_mutex_lock` and its
call of `sync_mutex_unlock`. -/
def Exclusive (s : State T) : Prop := ∀ t u, 0 < s.holds t → 0 < s.holds u → t = u

/-- A fast-path compare-and-swap does not meet a free mutex while another task
stands between its slow-path load and its store. -/
def NoBarging (s : State T) (a : Act T) : Prop :=
  s.pc a.task = .fastCas → s.state = 0 → ∀ u, s.pc u ≠ .slowStore

instance [Fintype T] (s : State T) (a : Act T) : Decidable (NoBarging s a) :=
  inferInstanceAs (Decidable (_ → _ → _))

/-- The invariant names the task `o` on whose behalf the word is 1. A task
that has read 0 under `mtx->lock` relies on nobody owning the word. -/
structure Inv (s : State T) (o : Option T) : Prop where
  share : ∀ t, weight s t = if o = some t then 1 else 0
  word : s.state = if o = none then 0 else 1
  pending : ∀ t, s.pc t = .slowStore → o = none
  guarded : Lock.Guarded s.lock (inside s)

theorem Inv.exclusive (h : Inv s o) : Exclusive s := by
  have owner (t : T) (ht : 0 < s.holds t) : o = some t := by
    have hw := h.share t
    by_contra hne
    simp only [weight, hne, if_false] at hw
    omega
  intro t u ht hu
  exact Option.some.inj ((owner t ht).symm.trans (owner u hu))

omit [DecidableEq T] in
theorem weight_other (he : Effect s s' t) (hu : u ≠ t) : weight s' u = weight s u := by
  simp [he.other u hu]

theorem inv_step {a : Act T} (h : Inv s o) (hok : NoBarging s a) (hs : step s a = some s') : ∃ o', Inv s' o' := by
  have he := step_effect hs
  have hg : Lock.Guarded s'.lock (inside s') := by
    refine h.guarded.step he.lock fun u hu => ?_
    rw [inside, inside, (he.other u hu).1]
  cases he.word with
  | quiet hw hst hp =>
    refine ⟨o, fun u => ?_, by rw [hst, h.word], fun u hu => ?_, hg⟩
    · by_cases hut : u = a.task
      · rw [hut, hw, h.share]
      · rw [weight_other he hut, h.share]
    · by_cases hut : u = a.task
      · subst hut
        have h0 := hp hu
        by_contra hne
        simp [h.word, hne] at h0
      · exact h.pending u ((he.other u hut).1 ▸ hu)
  | enter hp hw hst hp' =>
    have ho : o = none := by
      rcases hp with hp | ⟨_, h0⟩
      · exact h.pending _ hp
      · by_contra hne
        simp [h.word, hne] at h0
    refine ⟨some a.task, fun u => ?_, by simp [hst], fun u hu => ?_, hg⟩
    · by_cases hut : u = a.task
      · rw [hut, hw, h.share]; simp [ho]
      · rw [weight_other he hut, h.share]; simp [ho, Ne.symm hut]
    · -- a second task between its load and its store would share `mtx->lock` or see a barging task
      exfalso
      have hut : u ≠ a.task := fun e => hp' (e ▸ hu)
      rw [(he.other u hut).1] at hu
      rcases hp with hp | ⟨hp, h0⟩
      · exact hut (h.guarded.unique (by simp [hu]) (by simp [hp]))
      · exact hok hp h0 u hu
  | leave hp hw hst hp' =>
    have ho : o = some a.task := by
      have hs := h.share a.task
      by_contra hne
      simp only [hne, if_false] at hs
      omega
    refine ⟨none, fun u => ?_, by simp [hst], fun _ _ => rfl, hg⟩
    by_cases hut : u = a.task
    · have hs := h.share a.task
      simp only [ho, if_true] at hs
      simp only [hut, reduceCtorEq, if_false]
      omega
    · rw [weight_other he hut, h.share]; simp [ho, Ne.symm hut]

theorem inv_create : Inv (create : State T) none := by
  constructor <;> simp [create, Lock.Guarded]

theorem run_exclusive (h : Run (machine T) NoBarging s) : Exclusive s := by
  have hi : ∃ o, Inv s o := by
    refine h.invariant (I := fun s => ∃ o, Inv s o) ?_ ?_
    · rintro s rfl
      exact ⟨none, inv_create⟩
    · rintro s a s' ⟨o, ho⟩ hok hs
      exact inv_step ho hok hs
  obtain ⟨o, ho⟩ := hi
  exact ho.exclusive

/-- A barging task enters at once, and the task it overtakes enters two of
its own steps later. -/
theorem barging_breaks (h : Reachable (machine T) s) (ht : s.pc t = .fastCas) (h0 : s.state = 0)
    (hu : s.pc u = .slowStore) : ∃ s', Reachable (machine T) s' ∧ ¬ Exclusive s' := by
  have hut : u ≠ t := by rintro rfl; simp [ht] at hu
  let s1 : State T := { s.enter t with state := 1 }
  let s2 : State T := { s1.goto u .slowReturn with state := 1 }
  let s3 : State T := { s2.enter u with lock := none }
  have h1 : (machine T).step s (.step t) = some s1 := by simp [machine, step, advance, ht, h0, s1]
  have h2 : (machine T).step s1 (.step u) = some s2 := by
    have hp : s1.pc u = .slowStore := by simp [s1, hut, hu]
    simp [machine, step, advance, hp, s2]
  have h3 : (machine T).step s2 (.step u) = some s3 := by
    have hp : s2.pc u = .slowReturn := by simp [s2]
    simp [machine, step, advance, hp, s3]
  refine ⟨s3, ((h.step h1).step h2).step h3, fun hx => ?_⟩
  have ht : 0 < s3.holds t := by simp [s3, s2, s1, hut.symm]
  have hu : 0 < s3.holds u := by simp [s3, s2, s1]
  exact hut (hx u t hu ht)

/-- The mutex excludes in every run whose fast-path swaps never overtake a
pending slow-path store, and any such overtaking can be continued to two
owners. -/
theorem mutex_exclusive_without_barging : (∀ s : State T, Run (machine T) NoBarging s → Exclusive s) ∧
      ∀ (s : State T) (a : Act T), Reachable (machine T) s → ¬ NoBarging s a →
        ∃ s', Reachable (machine T) s' ∧ ¬ Exclusive s' := by
  refine ⟨fun s => run_exclusive, fun s a hs hok => ?_⟩
  simp only [NoBarging, not_forall, not_not] at hok
  obtain ⟨ht, h0, u, hu⟩ := hok
  exact barging_breaks hs ht h0 hu

/-- Task 0 unlocks while task 1 waits in the slow path, then locks again
between the load and the store of task 1. -/
def bargingTrace : List (Act (Fin 2)) :=
  [.lock 0, .step 0, .lock 1, .step 1] ++ .unlock 0 :: List.replicate 4 (.step 0) ++
    [.step 1, .step 1, .lock 0, .step 0, .step 1, .step 1]

theorem mutex_not_exclusive : ¬ ∀ s : State (Fin 2), Reachable (machine (Fin 2)) s → Exclusive s := by
  intro h
  have hx : (walk (machine (Fin 2)) bargingTrace create).map (fun s => (s.holds 0, s.holds 1)) =
      some (1, 1) := by decide
  obtain ⟨s, hr, he⟩ := exec_reads hx (.init rfl)
  simp only [Prod.mk.injEq] at he
  exact absurd (h s hr 0 1 (by omega) (by omega)) (by decide)

/-- One task locks while the other is queued behind it. -/
theorem mutex_exclusive_queued :
    ∃ s : State (Fin 2), Run (machine (Fin 2)) NoBarging s ∧ 0 < s.holds 0 ∧ s.waiters = [1] ∧ Exclusive s := by
  have hx : (exec (machine (Fin 2)) NoBarging ([.lock 0, .step 0, .lock 1] ++ List.replicate 4 (.step 1)) create).map
      (fun s => (s.holds 0, s.waiters)) = some (1, [(1 : Fin 2)]) := by decide
  obtain ⟨s, hr, he⟩ := exec_reads hx (.init rfl)
  simp only [Prod.mk.injEq] at he
  exact ⟨s, hr, by omega, he.2, mutex_exclusive_without_barging.1 s hr⟩

end Picasso.Sync.MutexExclusion
