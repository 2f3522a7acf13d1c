import Picasso.Gc.StopWorldCounts

namespace Picasso.Gc.StopWorldSafety

open Lib.Transition StopWorld StopWorldCounts

variable {T : Type} [DecidableEq T]

/-- The collector has left its waiting loop and nobody may start a task. -/
def sealing : Collector → Bool
  | .stopUnlock | .stopAddLock | .collecting => true
  | _ => false

/-- No thread adds itself between the collector's last look at the counters
and its `add_lock`, and no thread counts itself stopped in a running world. -/
def Orderly (s : State T) (a : Act T) : Prop :=
  ∀ t, a.party = .thread t →
    (s.pc t = .addCount → s.gc ≠ .stopUnlock ∧ s.gc ≠ .stopAddLock) ∧
    (s.pc t = .yieldCount → s.worldStopped = true)

instance [Fintype T] (s : State T) (a : Act T) : Decidable (Orderly s a) :=
  inferInstanceAs (Decidable (∀ _, _ → _))

/-- No scheduler thread executes task code while the collector collects. -/
def Quiescent (s : State T) : Prop := s.gc = .collecting → ∀ t, s.pc t ≠ .running

variable {s s' : State T}

omit [DecidableEq T] in
theorem collectorStep_resumes (h : collectorStep s = some s') (hw : s'.worldStopped = false)
    (hg' : s'.gc ≠ .resumeStoreCount) : s.worldStopped = false ∧ (s.gc ≠ .resumeStoreCount ∨ s'.stoppedCount = 0) := by
  cases hg : s.gc <;> simp only [collectorStep, hg] at h <;> try split at h
  all_goals cases h
  all_goals simp_all

omit [DecidableEq T] in
theorem collectorStep_sealing (h : collectorStep s = some s') (hseal : sealing s'.gc = true) :
    s'.stoppedCount = s.stoppedCount ∧ (sealing s.gc = true ∨ ∃ v, s.gc = .stopLoadTotal v ∧ s.totalThreads ≤ v) := by
  cases hg : s.gc <;> simp only [collectorStep, hg] at h <;> try split at h
  all_goals cases h
  all_goals simp_all [sealing]

variable [Fintype T]

structure Inv (s : State T) : Prop where
  base : Base s
  few : s.stoppedCount ≤ count stopped s
  fresh : s.worldStopped = false → s.gc ≠ .resumeStoreCount → s.stoppedCount = 0
  loaded : ∀ v, s.gc = .stopLoadTotal v → v = s.stoppedCount
  settled : sealing s.gc = true → s.totalThreads ≤ s.stoppedCount

omit [DecidableEq T] in
theorem Inv.quiescent (h : Inv s) : Quiescent s := by
  intro hg t hp
  have htot := h.base.total
  have hset := h.settled (by simp [hg, sealing])
  have hfew := h.few
  -- every counted thread is stopped, but a running one is counted only
  have hlt : count stopped s < count counted s := by
    refine Finset.sum_lt_sum (fun u _ => ?_) ⟨t, Finset.mem_univ t, by simp [hp, stopped, counted]⟩
    cases hs : stopped (s.pc u) with
    | false => simp
    | true => simp [stopped_counted hs]
  omega

theorem inv_collectorStep (h : Inv s) (hs : collectorStep s = some s') : Inv s' := by
  have hc := count_collector stopped (step_moves (a := .collector) hs)
  have hef := collectorStep_effect hs
  refine ⟨base_step h.base (a := .collector) hs, ?_, ?_, hef.loaded, ?_⟩
  · have hfew := h.few
    rcases hef.stopped with he | ⟨_, he⟩ <;> omega
  · intro hw hg'
    rcases hef.stopped with he | ⟨_, he⟩
    · obtain ⟨hws, hg⟩ := collectorStep_resumes hs hw hg'
      rcases hg with hg | hg
      · rw [he]
        exact h.fresh hws hg
      · exact hg
    · exact he
  · intro hseal
    obtain ⟨he, hg⟩ := collectorStep_sealing hs hseal
    rw [hef.total, he]
    rcases hg with hg | ⟨v, hg, hle⟩
    · exact h.settled hg
    · rwa [h.loaded v hg] at hle

theorem inv_thread {a : Act T} {t : T} (h : Inv s) (hok : Orderly s a) (hs : step s a = some s')
    (ha : a.party = .thread t) : Inv s' := by
  have hm := step_moves hs
  have hg := hm.collector (by simp [ha])
  have hc := count_thread stopped (ha ▸ hm)
  obtain ⟨he, hw⟩ := step_effect hs ha
  have hfew := h.few
  have hset := h.settled
  refine ⟨base_step h.base hs, ?_, ?_, ?_, ?_⟩
  · cases he with
    | quiet es _ est _ => rw [est] at hc; omega
    | arrive hp hp' es _ =>
      simp only [hp, hp', stopped, Bool.toNat_true, Bool.toNat_false] at hc
      omega
    | leave hp hw0 hp' es _ =>
      -- the count was cleared under the lock before the thread could see the world running
      have hgc : s.gc ≠ .resumeStoreCount := by
        intro hgc
        have := h.base.lock.unique (p := .collector) (q := .thread t)
          (by simp [hgc, collectorLocked]) (by simp [hp])
        cases this
      have := h.fresh hw0 hgc
      omega
    | add hp hp' es _ | sub hp hp' es _ =>
      simp only [hp, hp', stopped, Bool.toNat_false] at hc
      omega
  · rw [hw, hg]
    intro h0 hgc
    have hzero := h.fresh h0 hgc
    cases he with
    | arrive hp => simp [(hok t ha).2 hp] at h0
    | quiet es | leave _ _ _ es | add _ _ es | sub _ _ es => rw [es, hzero]
  · rw [hg]
    intro v hv
    cases he with
    | arrive hp =>
      have := h.base.lock.unique (p := .collector) (q := .thread t)
        (by simp [hv, collectorLocked]) (by simp [hp])
      cases this
    | quiet es | leave _ _ _ es | add _ _ es | sub _ _ es => rw [es]; exact h.loaded v hv
  · rw [hg]
    intro hseal
    have hle := hset hseal
    cases he with
    | add hp =>
      -- while the collector collects it owns `add_lock` itself
      obtain ⟨h1, h2⟩ := (hok t ha).1 hp
      have hcol : s.gc = .collecting := by
        cases hgc : s.gc <;> simp_all [sealing]
      have := h.base.add.unique (p := .collector) (q := .thread t)
        (by simp [hcol, collectorAdding]) (by simp [hp])
      cases this
    | quiet es et | arrive _ _ es et | leave _ _ _ es et | sub _ _ es et => omega

theorem inv_step {a : Act T} (h : Inv s) (hok : Orderly s a) (hs : step s a = some s') : Inv s' := by
  cases ha : a.party with
  | thread t => exact inv_thread h hok hs ha
  | collector =>
    cases a with
    | collector => exact inv_collectorStep h hs
    | spuriousCollector =>
      have hb := base_step h.base hs
      simp only [step] at hs
      split at hs <;> cases hs
      next hg =>
        obtain ⟨_, hfew, hfresh, hload, hset⟩ := h
        refine ⟨hb, hfew, ?_, ?_, ?_⟩ <;> simp_all [sealing]
    | thread t | call t | switch t | preempt t | spuriousThread t => cases ha

omit [DecidableEq T] in
theorem inv_start : Inv (start : State T) := by
  refine ⟨base_start, ?_, ?_, ?_, ?_⟩ <;> simp [start, count, stopped, sealing]

/-- In every run whose steps are orderly no scheduler thread executes task
code between the return of `gc_stop_the_world` and the next `gc_resume_world`. -/
theorem stop_world_quiescent {s : State T} (h : Run (machine T) Orderly s) : Quiescent s := by
  have hi : Inv s := by
    refine h.invariant ?_ ?_
    · rintro s rfl
      exact inv_start
    · intro s a s' hi hok hs
      exact inv_step hi hok hs
  exact hi.quiescent

/-- One thread counts itself and is stopped before the collector collects. -/
theorem stop_world_quiescent_one :
    ∃ s : State (Fin 1), Run (machine (Fin 1)) Orderly s ∧ s.gc = .collecting ∧ s.pc 0 = .yieldBlocked ∧
      Quiescent s := by
  have hx : (exec (machine (Fin 1)) Orderly (threadSteps 0 5 ++ collectorSteps 6 ++ .call 0 :: threadSteps 0 7 ++
      collectorSteps 6) start).map
      (fun s => (s.gc, s.pc 0)) = some (.collecting, .yieldBlocked) := by decide
  obtain ⟨s, hr, he⟩ := exec_reads hx (.init rfl)
  simp only [Prod.mk.injEq] at he
  exact ⟨s, hr, he.1, he.2, stop_world_quiescent hr⟩

/-- The collector sees no thread, a thread starts a task before the collector
takes `add_lock`, and the collector collects while the task runs. -/
theorem stop_world_not_quiescent : ¬ ∀ s : State (Fin 1), Reachable (machine (Fin 1)) s → Quiescent s := by
  intro h
  have hx : (walk (machine (Fin 1)) (collectorSteps 6 ++ threadSteps 0 5 ++ [.collector])
      start).map (fun s => (s.gc, s.pc 0)) =
      some (.collecting, .running) := by decide
  obtain ⟨s, hr, he⟩ := exec_reads hx (.init rfl)
  simp only [Prod.mk.injEq] at he
  exact h s hr he.1 0 he.2

end Picasso.Gc.StopWorldSafety
