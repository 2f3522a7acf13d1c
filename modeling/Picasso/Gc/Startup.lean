import Picasso.Gc.StopWorldCounts

namespace Picasso.Gc.Startup

open Lib.Transition StopWorld StopWorldCounts

variable {T : Type} [DecidableEq T] [Fintype T]

/-- The position of `main`, from `init_scheduler` to `wait_for_schedulers`.
Inside `gc_start` each constructor names the next operation. -/
inductive Main
  | initScheduler
  | gcInit
  | thread
  | storeWorld
  | storeStopped
  | storeTotal
  | initLock
  | initMutatorsStopped
  | initWorldResumed
  | initAddLock
  | createCollector
  | waitForSchedulers
  deriving DecidableEq

/-- `main`, the scheduler threads that it has created, the number of tasks in
the ready queue of each, the number of blocked tasks, and `gc_state`. -/
structure Boot (T : Type) where
  main : Main
  created : T → Bool
  ready : T → Nat
  blocked : Nat
  gc : State T

inductive BootAct (T : Type)
  | create (t : T)
  -- `kid` is the scheduler thread that `thread` picks
  | main (kid : T)
  | sched (a : Act T)
  -- the task that runs on `t` calls `thread`, or blocks
  | spawn (t kid : T)
  | block (t : T)
  | wake (t : T)

def Boot.push (s : Boot T) (t : T) : Boot T := { s with ready := Function.update s.ready t (s.ready t + 1) }

/-- The initialised mutexes are free, whoever has locked them. -/
def mainStep (s : Boot T) (kid : T) : Option (Boot T) :=
  match s.main with
  | .initScheduler => if ∀ t, s.created t = true then some { s with main := .gcInit } else none
  | .gcInit => some { s with main := .thread }
  | .thread => some { s.push kid with main := .storeWorld }
  | .storeWorld => some { s with main := .storeStopped, gc := { s.gc with worldStopped := false } }
  | .storeStopped => some { s with main := .storeTotal, gc := { s.gc with stoppedCount := 0 } }
  | .storeTotal => some { s with main := .initLock, gc := { s.gc with totalThreads := 0 } }
  | .initLock => some { s with main := .initMutatorsStopped, gc := { s.gc with lock := none } }
  | .initMutatorsStopped => some { s with main := .initWorldResumed, gc := { s.gc with signalled := false } }
  | .initWorldResumed => some { s with main := .initAddLock, gc := { s.gc with woken := fun _ => false } }
  | .initAddLock => some { s with main := .createCollector, gc := { s.gc with addLock := none } }
  | .createCollector => some { s with main := .waitForSchedulers }
  | .waitForSchedulers => none

/-- A scheduler thread takes a task from its queue before it does anything with
it, and a preempted task is put back there. -/
def schedStep (s : Boot T) (a : Act T) : Option (Boot T) := do
  let gc ← StopWorld.step s.gc a
  match a.party with
  | .collector => if s.main = .waitForSchedulers then some { s with gc := gc } else none
  | .thread t =>
    if s.created t = false then none
    else
      match s.gc.pc t with
      | .idle => if 0 < s.ready t then some { s with gc := gc, ready := Function.update s.ready t (s.ready t - 1) } else none
      | .yieldPush => some { s.push t with gc := gc }
      | _ => some { s with gc := gc }

def bootStep (s : Boot T) : BootAct T → Option (Boot T)
  | .create t =>
    if s.main = .initScheduler ∧ s.created t = false then some { s with created := Function.update s.created t true } else none
  | .main kid => mainStep s kid
  | .sched a => schedStep s a
  | .spawn t kid => if s.gc.pc t = .running then some (s.push kid) else none
  | .block t => (schedStep s (.switch t)).map fun s => { s with blocked := s.blocked + 1 }
  | .wake t => if 0 < s.blocked then some { s.push t with blocked := s.blocked - 1 } else none

def boot : Boot T := ⟨.initScheduler, fun _ => false, fun _ => 0, 0, start⟩

def machine (T : Type) [DecidableEq T] [Fintype T] : Machine (Boot T) (BootAct T) := ⟨(· = boot), bootStep⟩

/-- `total_threads` is the number of scheduler threads between their increment
and their decrement. -/
def Counted (s : Boot T) : Prop := s.gc.totalThreads = count counted s.gc ∧ 0 ≤ s.gc.totalThreads

/-- `gc_start` stores to `total_threads` while no thread is between the two. -/
def Quiet (s : Boot T) (a : BootAct T) : Prop :=
  ∀ kid, a = .main kid → s.main = .storeTotal → ∀ t, counted (s.gc.pc t) = false

instance (s : Boot T) : (a : BootAct T) → Decidable (Quiet s a)
  | .main kid => decidable_of_iff (s.main = .storeTotal → ∀ t, counted (s.gc.pc t) = false)
      ⟨fun h _ _ => h, fun h => h kid rfl⟩
  | .create _ | .sched _ | .spawn _ _ | .block _ | .wake _ => .isTrue (by simp [Quiet])

variable {s s' : Boot T}

omit [DecidableEq T] in
theorem counted_of_total (h : s.gc.totalThreads = count counted s.gc) : Counted s :=
  ⟨h, h ▸ Int.natCast_nonneg _⟩

omit [Fintype T] in
theorem schedStep_gc {a : Act T} (h : schedStep s a = some s') : StopWorld.step s.gc a = some s'.gc := by
  obtain ⟨gc, hgc, h⟩ := Option.bind_eq_some_iff.mp h
  rw [hgc]
  cases hp : a.party with
  | collector =>
    simp only [hp] at h
    split at h <;> cases h
    rfl
  | thread t =>
    simp only [hp] at h
    split at h
    · cases h
    · split at h
      · split at h <;> cases h
        rfl
      · cases h
        rfl
      · cases h
        rfl

theorem mainStep_gc {kid : T} (h : mainStep s kid = some s') (hne : s.main ≠ .storeTotal) :
    s'.gc.totalThreads = s.gc.totalThreads ∧ s'.gc.pc = s.gc.pc := by
  cases hm : s.main with
  | storeTotal => exact absurd hm hne
  | initScheduler =>
    simp only [mainStep, hm] at h
    split at h <;> cases h
    exact ⟨rfl, rfl⟩
  | waitForSchedulers => simp [mainStep, hm] at h
  | gcInit | thread | storeWorld | storeStopped | initLock | initMutatorsStopped | initWorldResumed | initAddLock
  | createCollector =>
    simp only [mainStep, hm] at h
    cases h
    exact ⟨rfl, rfl⟩

theorem storeTotal_gc {kid : T} (h : mainStep s kid = some s') (hm : s.main = .storeTotal) :
    s'.gc.totalThreads = 0 ∧ s'.gc.pc = s.gc.pc := by
  simp only [mainStep, hm] at h
  cases h
  exact ⟨rfl, rfl⟩

omit [DecidableEq T] in
theorem count_congr {s s' : State T} (f : Pc → Bool) (h : s'.pc = s.pc) : count f s' = count f s := by rw [count, count, h]

omit [DecidableEq T] in
theorem count_eq_zero {s : State T} : count counted s = 0 ↔ ∀ t, counted (s.pc t) = false := by
  simp [count, Finset.sum_eq_zero_iff]

theorem counted_step {a : BootAct T} (hI : s.gc.totalThreads = count counted s.gc) (hq : Quiet s a)
    (h : bootStep s a = some s') : s'.gc.totalThreads = count counted s'.gc := by
  cases a with
  | create t | spawn t kid | wake t =>
    simp only [bootStep] at h
    split at h <;> cases h
    exact hI
  | main kid =>
    by_cases hm : s.main = .storeTotal
    · obtain ⟨h0, hpc⟩ := storeTotal_gc h hm
      rw [h0, count_congr counted hpc, count_eq_zero.mpr (hq kid rfl hm)]
      rfl
    · obtain ⟨htot, hpc⟩ := mainStep_gc h hm
      rw [htot, count_congr counted hpc, hI]
  | sched a => exact total_step hI (schedStep_gc h)
  | block t =>
    obtain ⟨u, hu, rfl⟩ := Option.map_eq_some_iff.mp h
    have hgc := schedStep_gc hu
    exact total_step hI hgc

/-- The count is right in every run in which `gc_start` resets it while no
thread is counted, and wrong after any other reset. -/
theorem mutators_counted : (∀ s : Boot T, Run (machine T) Quiet s → Counted s) ∧
      ∀ (s s' : Boot T) (a : BootAct T), Reachable (machine T) s → ¬ Quiet s a → bootStep s a = some s' → ¬ Counted s' := by
  refine ⟨fun s hr => counted_of_total ?_, fun s s' a _ hq h hc => hq ?_⟩
  · refine Run.invariant (I := fun s => s.gc.totalThreads = (count counted s.gc : Int)) ?_ ?_ hr
    · rintro s rfl
      exact (base_start (T := T)).total
    · intro s a s' hI hq hs
      exact counted_step hI hq hs
  · rintro kid rfl hm
    obtain ⟨h0, hpc⟩ := storeTotal_gc h hm
    have htot := hc.1
    rw [h0, count_congr counted hpc] at htot
    exact count_eq_zero.mp (by omega)

def handover (t : Fin 1) : List (BootAct (Fin 1)) := [.create t, .main t, .main t, .main t]

def counting (t : Fin 1) : List (BootAct (Fin 1)) := List.replicate 3 (.sched (.thread t))

theorem mutators_counted_late : ∃ s : Boot (Fin 1), Run (machine (Fin 1)) Quiet s ∧ s.gc.totalThreads = 1 ∧ Counted s := by
  have hx : (exec (machine (Fin 1)) Quiet (handover 0 ++ List.replicate 3 (.main 0) ++ counting 0) boot).map
      (fun s => s.gc.totalThreads) = some 1 := by decide
  obtain ⟨s, hr, he⟩ := exec_reads hx (.init rfl)
  exact ⟨s, hr, he, mutators_counted.1 s hr⟩

/-- The thread takes the task while `main` has still to reset the count; the
thread that finishes it brings the count below zero. -/
theorem mutators_miscounted : ∃ s : Boot (Fin 1), Reachable (machine (Fin 1)) s ∧ s.gc.totalThreads = -1 ∧ ¬ Counted s := by
  have hx : (walk (machine (Fin 1)) (handover 0 ++ counting 0 ++ List.replicate 3 (.main 0) ++
      [.sched (.thread 0), .sched (.thread 0), .sched (.switch 0), .sched (.thread 0)]) boot).map
      (fun s => s.gc.totalThreads) = some (-1) := by decide
  obtain ⟨s, hr, he⟩ := exec_reads hx (.init rfl)
  refine ⟨s, hr, he, fun hc => ?_⟩
  have := hc.2
  omega

end Picasso.Gc.Startup
