import Picasso.Gc.StopWorldCounts

namespace Picasso.Gc.StopWorldWake

open Lib.Transition StopWorld StopWorldCounts

variable {T : Type} [DecidableEq T]

/-- Thread `t` will signal `cv_mutators_stopped` if `total_threads` stays at `total`. -/
def Sending (s : State T) (total : Int) (t : T) : Prop :=
  s.pc t = .yieldSignal ∨ s.pc t = .yieldCompare (total - 1)

instance (s : State T) (total : Int) (t : T) : Decidable (Sending s total t) :=
  inferInstanceAs (Decidable (_ ∨ _))

/-- The collector is about to block, or blocked with no signal sent since. -/
def Waiting (s : State T) : Prop := s.gc = .stopWait ∨ s.gc = .stopBlocked ∧ s.signalled = false

instance (s : State T) : Decidable (Waiting s) := inferInstanceAs (Decidable (_ ∨ _))

/-- The collector is never asleep without a signal sent or a sender ahead
once enough threads are stopped, nor while every thread is stopped or idle. -/
structure Wakeful (s : State T) : Prop where
  signal : s.gc = .stopBlocked → s.totalThreads ≤ s.stoppedCount →
    s.signalled = true ∨ ∃ t, Sending s s.totalThreads t
  asleep : s.gc = .stopBlocked → s.signalled = false →
    ∃ t, Sending s s.totalThreads t ∨ counted (s.pc t) = true ∧ stopped (s.pc t) = false

/-- A thread that leaves is not the last one the collector waits for, and a
new stop begins only after every thread has left the waiting loop of the last. -/
def Considerate (s : State T) (a : Act T) : Prop :=
  (a.party = .collector → s.gc = .stopStore → ∀ t, stopped (s.pc t) = false) ∧
  ∀ t, a.party = .thread t → s.pc t = .subCount → Waiting s →
    s.stoppedCount < s.totalThreads - 1 ∨ ∃ u, Sending s (s.totalThreads - 1) u

instance [Fintype T] (s : State T) (a : Act T) : Decidable (Considerate s a) := by
  unfold Considerate
  infer_instance

variable {s s' : State T} {a : Act T} {t u : T}

theorem signalled_thread (hs : step s a = some s') (ha : a.party = .thread t) (h : s'.signalled = false) :
    s.signalled = false := by
  cases a with
  | collector | spuriousCollector => cases ha
  | thread u =>
    simp only [step] at hs
    cases hp : s.pc u <;> simp only [threadStep, hp] at hs <;> try split at hs
    all_goals cases hs
    all_goals simp_all
  | call u | switch u | preempt u | spuriousThread u =>
    simp only [step] at hs
    split at hs <;> cases hs
    exact h

theorem sending_self (hs : step s a = some s') (ha : a.party = .thread t) (h : Sending s s.totalThreads t) :
    s'.pc t = .yieldSignal ∨ (s.gc = .stopBlocked → s'.signalled = true) := by
  cases a with
  | collector | spuriousCollector => cases ha
  | thread u =>
    cases ha
    rcases h with hp | hp
    · right
      intro hg
      simp only [step, threadStep, hp] at hs
      cases hs
      simp [hg]
    · left
      simp only [step, threadStep, hp] at hs
      cases hs
      simp
  | call u | switch u | preempt u | spuriousThread u =>
    cases ha
    simp only [step] at hs
    split at hs <;> cases hs
    rcases h with hp | hp <;> simp_all

theorem compare_from_count {v : Int} (hs : step s a = some s') (ha : a.party = .thread t)
    (h : s'.pc t = .yieldCompare v) : s.pc t = .yieldCount := by
  cases a with
  | collector | spuriousCollector => cases ha
  | thread u =>
    cases ha
    simp only [step] at hs
    cases hp : s.pc t with
    | yieldCount => rfl
    | _ =>
      simp only [threadStep, hp] at hs
      try split at hs
      all_goals cases hs
      all_goals simp at h
  | call u | switch u | preempt u | spuriousThread u =>
    cases ha
    simp only [step] at hs
    split at hs <;> cases hs
    simp at h

omit [DecidableEq T] in
theorem collectorStep_waiting (hs : collectorStep s = some s') (hw : Waiting s') :
    s.gc = .stopWait ∨ ∃ v, s.gc = .stopLoadTotal v ∧ v < s.totalThreads := by
  cases hg : s.gc <;> simp only [collectorStep, hg] at hs <;> try split at hs
  all_goals cases hs
  all_goals simp_all [Waiting]

omit [DecidableEq T] in
theorem Sending.frame {p : Party T} {n : Int} (hm : Moves s s' p) (hu : p ≠ .thread u) (h : Sending s n u) :
    Sending s' n u := by
  rw [Sending, hm.thread u hu]
  exact h

omit [DecidableEq T] in
theorem Sending.locked {n : Int} (h : Sending s n u) : locked s (.thread u) = true := by
  rcases h with hp | hp <;> simp [StopWorldCounts.locked, hp]

variable [Fintype T]

structure Inv (s : State T) : Prop where
  base : Base s
  nonneg : 0 ≤ s.stoppedCount
  compare : ∀ t v, s.pc t = .yieldCompare v → s.stoppedCount = v + 1
  loaded : ∀ v, s.gc = .stopLoadTotal v → v = s.stoppedCount
  covered : s.worldStopped = true → count stopped s ≤ s.stoppedCount
  awake : Waiting s → s.stoppedCount < s.totalThreads ∨ ∃ t, Sending s s.totalThreads t

omit [DecidableEq T] in
theorem Inv.wakeful (h : Inv s) : Wakeful s := by
  have hawake : s.gc = .stopBlocked → s.signalled = false → _ := fun hg hs => h.awake (.inr ⟨hg, hs⟩)
  refine ⟨?_, ?_⟩
  · intro hg hle
    cases hs : s.signalled with
    | true => exact .inl rfl
    | false =>
      rcases hawake hg hs with hlt | hsend
      · omega
      · exact .inr hsend
  · intro hg hs
    rcases hawake hg hs with hlt | ⟨t, ht⟩
    · -- fewer threads are stopped than counted, so one of the counted is not stopped
      have htot := h.base.total
      have hcov := h.covered (by rw [h.base.world, hg]; rfl)
      have hsum : ∑ t, (stopped (s.pc t)).toNat < ∑ t, (counted (s.pc t)).toNat := by
        change count stopped s < count counted s
        omega
      obtain ⟨t, _, ht⟩ := Finset.exists_lt_of_sum_lt hsum
      refine ⟨t, .inr ?_⟩
      cases hc : counted (s.pc t) <;> cases hst : stopped (s.pc t) <;> simp_all
    · exact ⟨t, .inl ht⟩

omit [DecidableEq T] in
theorem Inv.alone (h : Inv s) (hg : collectorLocked s.gc = true) (t : T) : threadLocked (s.pc t) = false :=
  h.base.lock.outside (p := .collector) (q := .thread t) hg (by simp)

theorem inv_collectorStep (h : Inv s) (hok : Considerate s .collector) (hs : collectorStep s = some s') : Inv s' := by
  have hef := collectorStep_effect hs
  have hpc := hef.pc
  have hc := count_collector stopped (step_moves (a := .collector) hs)
  have hnn : 0 ≤ s'.stoppedCount := by
    have := h.nonneg
    rcases hef.stopped with he | ⟨_, he⟩ <;> omega
  refine ⟨base_step h.base (a := .collector) hs, hnn, ?_, hef.loaded, ?_, ?_⟩
  · intro t v hp
    rw [hpc] at hp
    rcases hef.stopped with he | ⟨hg, _⟩
    · rw [he]
      exact h.compare t v hp
    · have := h.alone (by simp [hg, collectorLocked]) t
      simp [hp] at this
  · intro hw
    rw [hc]
    rcases hef.stops hw with hws | hg
    · have hcov := h.covered hws
      rcases hef.stopped with he | ⟨hg, _⟩
      · omega
      · rw [h.base.world, hg] at hws
        cases hws
    · -- a new stop begins with nobody in the waiting loop
      have hnone : count stopped s = 0 := by simp [count, hok.1 rfl hg]
      omega
  · intro hw
    have htotal := hef.total
    have hsame : s'.stoppedCount = s.stoppedCount := by
      rcases hef.stopped with he | ⟨hg, _⟩
      · exact he
      · rcases collectorStep_waiting hs hw with hg' | ⟨v, hg', -⟩ <;> simp [hg] at hg'
    rw [htotal, hsame]
    rcases collectorStep_waiting hs hw with hg | ⟨v, hg, hlt⟩
    · simpa only [Sending, hpc] using h.awake (.inl hg)
    · rw [h.loaded v hg] at hlt
      exact .inl hlt

theorem awake_thread (h : Inv s) (hok : Considerate s a) (hs : step s a = some s') (ha : a.party = .thread t)
    (hw : Waiting s') : s'.stoppedCount < s'.totalThreads ∨ ∃ u, Sending s' s'.totalThreads u := by
  have hm := ha ▸ step_moves hs
  have hg := hm.collector (by simp)
  have hws : Waiting s := by
    rcases hw with hw | ⟨hw, hsig⟩
    · exact .inl (hg ▸ hw)
    · exact .inr ⟨hg ▸ hw, signalled_thread hs ha hsig⟩
  have hframe : ∀ {n u}, u ≠ t → Sending s n u → Sending s' n u :=
    fun hu hsend => hsend.frame hm (by simpa using Ne.symm hu)
  obtain ⟨he, _⟩ := step_effect hs ha
  rcases h.awake hws with hlt | ⟨u, hu⟩
  · cases he with
    | quiet es et | leave _ _ _ es et | add _ _ es et => left; omega
    | arrive hp hp' es et =>
      by_cases hlast : s.stoppedCount + 1 < s.totalThreads
      · left; omega
      · refine .inr ⟨t, .inr ?_⟩
        rw [hp', et]
        congr 1
        omega
    | sub hp hp' es et =>
      rcases hok.2 t ha hp hws with hlt | ⟨u, hu⟩
      · left; omega
      · refine .inr ⟨u, et ▸ hframe ?_ hu⟩
        rintro rfl
        rcases hu with hu | hu <;> simp [hp] at hu
  · by_cases hut : u = t
    · subst hut
      rcases sending_self hs ha hu with hp' | hsig
      · exact .inr ⟨u, .inl hp'⟩
      · rcases hw with hw | ⟨hw, hns⟩
        · -- the collector still owns the lock that the sender owns
          have := h.base.lock.unique (p := .collector) (q := .thread u)
            (by rw [hg] at hw; simp [hw, collectorLocked]) hu.locked
          cases this
        · simp [hsig (hg ▸ hw)] at hns
    · cases he with
      | quiet es et | leave _ _ _ es et | arrive _ _ es et => exact .inr ⟨u, et ▸ hframe hut hu⟩
      | add hp hp' es et =>
        rcases hu with hu | hu
        · exact .inr ⟨u, hframe hut (.inl hu)⟩
        · have := h.compare u _ hu
          left
          omega
      | sub hp hp' es et =>
        rcases hok.2 t ha hp hws with hlt | ⟨v, hv⟩
        · left; omega
        · refine .inr ⟨v, et ▸ hframe ?_ hv⟩
          rintro rfl
          rcases hv with hv | hv <;> simp [hp] at hv

theorem inv_thread (h : Inv s) (hok : Considerate s a) (hs : step s a = some s') (ha : a.party = .thread t) :
    Inv s' := by
  have hm := ha ▸ step_moves hs
  have hg := hm.collector (by simp)
  have hc := count_thread stopped hm
  obtain ⟨he, hw⟩ := step_effect hs ha
  have hnn := h.nonneg
  refine ⟨base_step h.base hs, ?_, ?_, ?_, ?_, awake_thread h hok hs ha⟩
  · cases he with
    | quiet es | leave _ _ _ es | arrive _ _ es | add _ _ es | sub _ _ es => omega
  · intro u v hu
    have halone : s.pc t = .yieldCount → u ≠ t → s.pc u ≠ .yieldCompare v := by
      intro hp hut hu
      have := h.base.lock.unique (p := .thread t) (q := .thread u)
        (by simp [hp]) (by simp [hu])
      cases this
      exact hut rfl
    by_cases hut : u = t
    · subst hut
      have hp := compare_from_count hs ha hu
      cases he with
      | arrive _ hp' es => rw [hp'] at hu; cases hu; exact es
      | quiet | leave hp' | add hp' | sub hp' => simp_all [stopped]
    · rw [hm.thread u (by simpa using Ne.symm hut)] at hu
      cases he with
      | arrive hp => exact absurd hu (halone hp hut)
      | quiet es | leave _ _ _ es | add _ _ es | sub _ _ es => rw [es]; exact h.compare u v hu
  · rw [hg]
    intro v hv
    cases he with
    | arrive hp =>
      have := h.base.lock.unique (p := .collector) (q := .thread t)
        (by simp [hv, collectorLocked]) (by simp [hp])
      cases this
    | quiet es | leave _ _ _ es | add _ _ es | sub _ _ es => rw [es]; exact h.loaded v hv
  · rw [hw]
    intro h1
    have hcov := h.covered h1
    cases he with
    | quiet es _ est _ => rw [est] at hc; omega
    | leave _ h0 => simp [h0] at h1
    | arrive hp hp' es _ | add hp hp' es _ | sub hp hp' es _ =>
      simp only [hp, hp', stopped, Bool.toNat_true, Bool.toNat_false] at hc
      omega

theorem inv_step (h : Inv s) (hok : Considerate s a) (hs : step s a = some s') : Inv s' := by
  cases ha : a.party with
  | thread t => exact inv_thread h hok hs ha
  | collector =>
    cases a with
    | collector => exact inv_collectorStep h hok hs
    | spuriousCollector =>
      have hb := base_step h.base hs
      simp only [step] at hs
      split at hs <;> cases hs
      refine ⟨hb, h.nonneg, h.compare, ?_, h.covered, ?_⟩ <;> simp [Waiting]
    | thread t | call t | switch t | preempt t | spuriousThread t => cases ha

omit [DecidableEq T] in
theorem inv_start : Inv (start : State T) := by
  refine ⟨base_start, ?_, ?_, ?_, ?_, ?_⟩ <;> simp [start, Waiting]

/-- In every run whose steps are considerate the collector that sleeps on
`cv_mutators_stopped` is woken or waits for a thread that can still stop. -/
theorem stop_world_wakeful {s : State T} (h : Run (machine T) Considerate s) : Wakeful s := by
  have hi : Inv s := by
    refine h.invariant ?_ ?_
    · rintro s rfl
      exact inv_start
    · intro s a s' hi hok hs
      exact inv_step hi hok hs
  exact hi.wakeful

/-- A thread starts a task, the collector falls asleep, and the thread's
arrival in `self_yield` is the one that signals. -/
theorem stop_world_wakeful_one :
    ∃ s : State (Fin 1), Run (machine (Fin 1)) Considerate s ∧ s.gc = .stopBlocked ∧ s.stoppedCount = 1 ∧
      s.signalled = true ∧ Wakeful s := by
  have hx : (exec (machine (Fin 1)) Considerate (threadSteps 0 5 ++ collectorSteps 6 ++ .call 0 :: threadSteps 0 7)
      start).map
      (fun s => (s.gc, s.stoppedCount, s.signalled)) = some (.stopBlocked, 1, true) := by decide
  obtain ⟨s, hr, he⟩ := exec_reads hx (.init rfl)
  simp only [Prod.mk.injEq] at he
  exact ⟨s, hr, he.1, he.2.1, he.2.2, stop_world_wakeful hr⟩

/-- One of two threads stops, which signals nobody because the other is still
counted, and the other then finishes its task: its decrement of
`total_threads` makes the condition true and wakes nobody. -/
theorem stop_world_not_wakeful : ¬ ∀ s : State (Fin 2), Reachable (machine (Fin 2)) s → Wakeful s := by
  intro h
  have hx : (walk (machine (Fin 2)) (threadSteps 0 5 ++ threadSteps 1 5 ++ collectorSteps 6 ++
      .call 0 :: threadSteps 0 6 ++ [.switch 1, .thread 1]) start).map
      (fun s => (s.gc, s.stoppedCount, s.totalThreads, s.signalled, s.pc 0, s.pc 1)) =
      some (.stopBlocked, 1, 1, false, .yieldBlocked, .idle) := by decide
  obtain ⟨s, hr, he⟩ := exec_reads hx (.init rfl)
  simp only [Prod.mk.injEq] at he
  obtain ⟨hg, hst, htot, hsig, h0, h1⟩ := he
  rcases (h s hr).signal hg (by omega) with hsig' | ⟨t, ht⟩
  · simp [hsig] at hsig'
  · have hcases : t = 0 ∨ t = 1 := by omega
    rcases hcases with rfl | rfl <;> rcases ht with ht | ht <;> simp_all

end Picasso.Gc.StopWorldWake
