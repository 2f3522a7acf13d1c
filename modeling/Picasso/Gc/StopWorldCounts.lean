import Picasso.Gc.StopWorld
import Picasso.Lib.Parties

namespace Picasso.Gc.StopWorldCounts

open Lib.Counting Lib StopWorld

variable {T : Type} [DecidableEq T]

def collectorLocked : Collector → Bool
  | .stopStore | .stopLoadStopped | .stopLoadTotal _ | .stopWait | .stopUnlock => true
  | .resumeStoreWorld | .resumeStoreCount | .resumeBroadcast | .resumeUnlock => true
  | _ => false

@[simp] def threadLocked : Pc → Bool
  | .yieldCount | .yieldCompare _ | .yieldSignal | .yieldLoop | .yieldWait | .yieldUnlock => true
  | _ => false

@[simp] def locked (s : State T) : Party T → Bool
  | .collector => collectorLocked s.gc
  | .thread t => threadLocked (s.pc t)

def collectorAdding : Collector → Bool
  | .collecting | .resumeLock | .resumeStoreWorld | .resumeStoreCount => true
  | .resumeBroadcast | .resumeUnlock | .resumeUnlockAdd => true
  | _ => false

@[simp] def threadAdding : Pc → Bool
  | .addCount | .addUnlock => true
  | _ => false

@[simp] def adding (s : State T) : Party T → Bool
  | .collector => collectorAdding s.gc
  | .thread t => threadAdding (s.pc t)

/-- Between the increment before a task and the decrement after it. -/
def counted : Pc → Bool
  | .idle | .addLock | .addCount => false
  | _ => true

/-- Between the increment of `stopped_count` and the exit of the waiting loop. -/
def stopped : Pc → Bool
  | .yieldCompare _ | .yieldSignal | .yieldLoop | .yieldWait | .yieldBlocked | .yieldRelock => true
  | _ => false

theorem stopped_counted {p : Pc} (h : stopped p = true) : counted p = true := by
  cases p <;> simp_all [stopped, counted]

def stopping : Collector → Bool
  | .stopLoadStopped | .stopLoadTotal _ | .stopWait | .stopBlocked | .stopRelock | .stopUnlock => true
  | .stopAddLock | .collecting | .resumeLock | .resumeStoreWorld => true
  | _ => false

structure Moves (s s' : State T) (p : Party T) : Prop where
  thread : ∀ u, p ≠ .thread u → s'.pc u = s.pc u
  collector : p ≠ .collector → s'.gc = s.gc

variable {s s' : State T} {t : T} {a : Act T}

structure CollectorEffect (s s' : State T) : Prop where
  pc : s'.pc = s.pc
  total : s'.totalThreads = s.totalThreads
  stopped : s'.stoppedCount = s.stoppedCount ∨ s.gc = .resumeStoreCount ∧ s'.stoppedCount = 0
  loaded : ∀ v, s'.gc = .stopLoadTotal v → v = s'.stoppedCount
  stops : s'.worldStopped = true → s.worldStopped = true ∨ s.gc = .stopStore
  world : s.worldStopped = stopping s.gc → s'.worldStopped = stopping s'.gc

omit [DecidableEq T] in
theorem collectorStep_effect (h : collectorStep s = some s') : CollectorEffect s s' := by
  cases hg : s.gc <;> simp only [collectorStep, hg] at h <;> try split at h
  all_goals cases h
  all_goals constructor <;> simp_all [stopping]

theorem step_collector (h : step s a = some s') (ha : a.party = .collector) : CollectorEffect s s' := by
  cases a with
  | collector => exact collectorStep_effect h
  | spuriousCollector =>
    simp only [step] at h
    split at h <;> cases h
    constructor <;> simp_all [stopping]
  | thread t | call t | switch t | preempt t | spuriousThread t => cases ha

theorem threadStep_frame (h : threadStep s t = some s') :
    s'.gc = s.gc ∧ s'.worldStopped = s.worldStopped ∧ ∀ u, u ≠ t → s'.pc u = s.pc u := by
  cases hp : s.pc t <;> simp only [threadStep, hp] at h <;> try split at h
  all_goals cases h
  all_goals exact ⟨rfl, rfl, fun u hu => by simp [hu]⟩

theorem step_moves (h : step s a = some s') : Moves s s' a.party := by
  cases a with
  | collector | spuriousCollector =>
    exact ⟨fun u _ => by rw [(step_collector h rfl).pc], fun hp => absurd rfl hp⟩
  | thread t =>
    refine ⟨fun u hu => (threadStep_frame h).2.2 u ?_, fun _ => (threadStep_frame h).1⟩
    rintro rfl
    exact hu rfl
  | call t | switch t | preempt t | spuriousThread t =>
    simp only [step] at h
    split at h <;> cases h
    refine ⟨fun u hu => ?_, fun _ => rfl⟩
    have hut : u ≠ t := by rintro rfl; exact hu rfl
    simp [hut]

omit [DecidableEq T] in
theorem collectorStep_lock (h : collectorStep s = some s') :
    Lock.Effect s.lock s'.lock (locked s) (locked s') .collector := by
  cases hg : s.gc with
  | stopLock | stopRelock | resumeLock =>
    simp only [collectorStep, hg] at h
    split at h
    · next hf => cases h; exact .acquire hf rfl
    · cases h
  | stopWait | stopUnlock | resumeUnlock =>
    simp only [collectorStep, hg] at h
    cases h
    exact .release (by simp [hg, collectorLocked]) rfl
  | _ =>
    simp only [collectorStep, hg] at h
    try split at h
    all_goals cases h
    all_goals refine .keep ?_ ?_ <;> simp [hg, collectorLocked]

theorem threadStep_lock (h : threadStep s t = some s') :
    Lock.Effect s.lock s'.lock (locked s) (locked s') (.thread t) := by
  cases hp : s.pc t with
  | yieldLock | yieldRelock =>
    simp only [threadStep, hp] at h
    split at h
    · next hf => cases h; exact .acquire hf rfl
    · cases h
  | yieldWait | yieldUnlock =>
    simp only [threadStep, hp] at h
    cases h
    exact .release (by simp [hp]) (by simp)
  | _ =>
    simp only [threadStep, hp] at h
    try split at h
    all_goals cases h
    all_goals refine .keep ?_ ?_ <;> simp [hp]

theorem step_lock (h : step s a = some s') : Lock.Effect s.lock s'.lock (locked s) (locked s') a.party := by
  cases a with
  | collector => exact collectorStep_lock h
  | thread t => exact threadStep_lock h
  | spuriousCollector =>
    simp only [step] at h
    split at h <;> cases h
    next hg => exact .keep rfl (by simp [Act.party, hg, collectorLocked])
  | call t | switch t | preempt t | spuriousThread t =>
    simp only [step] at h
    split at h <;> cases h
    next hp => exact .keep rfl (by simp [Act.party, hp])

omit [DecidableEq T] in
theorem collectorStep_add (h : collectorStep s = some s') :
    Lock.Effect s.addLock s'.addLock (adding s) (adding s') .collector := by
  cases hg : s.gc with
  | stopAddLock =>
    simp only [collectorStep, hg] at h
    split at h
    · next hf => cases h; exact .acquire hf rfl
    · cases h
  | resumeUnlockAdd =>
    simp only [collectorStep, hg] at h
    cases h
    exact .release (by simp [hg, collectorAdding]) rfl
  | _ =>
    simp only [collectorStep, hg] at h
    try split at h
    all_goals cases h
    all_goals refine .keep ?_ ?_ <;> simp [hg, collectorAdding]

theorem threadStep_add (h : threadStep s t = some s') :
    Lock.Effect s.addLock s'.addLock (adding s) (adding s') (.thread t) := by
  cases hp : s.pc t with
  | addLock =>
    simp only [threadStep, hp] at h
    split at h
    · next hf => cases h; exact .acquire hf rfl
    · cases h
  | addUnlock =>
    simp only [threadStep, hp] at h
    cases h
    exact .release (by simp [hp]) (by simp)
  | _ =>
    simp only [threadStep, hp] at h
    try split at h
    all_goals cases h
    all_goals refine .keep ?_ ?_ <;> simp [hp]

theorem step_add (h : step s a = some s') : Lock.Effect s.addLock s'.addLock (adding s) (adding s') a.party := by
  cases a with
  | collector => exact collectorStep_add h
  | thread t => exact threadStep_add h
  | spuriousCollector =>
    simp only [step] at h
    split at h <;> cases h
    next hg => exact .keep rfl (by simp [Act.party, hg, collectorAdding])
  | call t | switch t | preempt t | spuriousThread t =>
    simp only [step] at h
    split at h <;> cases h
    next hp => exact .keep rfl (by simp [Act.party, hp])

/-- What a step of thread `t` can do to the two counters and to its own part in them. -/
inductive ThreadEffect (s s' : State T) (t : T) : Prop
  | quiet (hs : s'.stoppedCount = s.stoppedCount) (ht : s'.totalThreads = s.totalThreads)
      (hst : stopped (s'.pc t) = stopped (s.pc t)) (hct : counted (s'.pc t) = counted (s.pc t))
  | arrive (hp : s.pc t = .yieldCount) (hp' : s'.pc t = .yieldCompare s.stoppedCount)
      (hs : s'.stoppedCount = s.stoppedCount + 1) (ht : s'.totalThreads = s.totalThreads)
  | leave (hp : s.pc t = .yieldLoop) (hw : s.worldStopped = false) (hp' : s'.pc t = .yieldUnlock)
      (hs : s'.stoppedCount = s.stoppedCount) (ht : s'.totalThreads = s.totalThreads)
  | add (hp : s.pc t = .addCount) (hp' : s'.pc t = .addUnlock)
      (hs : s'.stoppedCount = s.stoppedCount) (ht : s'.totalThreads = s.totalThreads + 1)
  | sub (hp : s.pc t = .subCount) (hp' : s'.pc t = .idle)
      (hs : s'.stoppedCount = s.stoppedCount) (ht : s'.totalThreads = s.totalThreads - 1)

theorem threadStep_effect (h : threadStep s t = some s') : ThreadEffect s s' t := by
  cases hp : s.pc t with
  | yieldCount =>
    simp only [threadStep, hp] at h
    cases h
    exact .arrive hp (by simp) rfl rfl
  | addCount =>
    simp only [threadStep, hp] at h
    cases h
    exact .add hp (by simp) rfl rfl
  | subCount =>
    simp only [threadStep, hp] at h
    cases h
    exact .sub hp (by simp) rfl rfl
  | yieldLoop =>
    simp only [threadStep, hp] at h
    split at h <;> cases h
    · exact .quiet rfl rfl (by simp [hp, stopped]) (by simp [hp, counted])
    · next hw => exact .leave hp (by simpa using hw) (by simp) rfl rfl
  | _ =>
    simp only [threadStep, hp] at h
    try split at h
    all_goals cases h
    all_goals refine .quiet ?_ ?_ ?_ ?_ <;> simp [hp, stopped, counted]

theorem step_effect (h : step s a = some s') (ha : a.party = .thread t) :
    ThreadEffect s s' t ∧ s'.worldStopped = s.worldStopped := by
  cases a with
  | collector | spuriousCollector => cases ha
  | thread u =>
    cases ha
    exact ⟨threadStep_effect h, (threadStep_frame h).2.1⟩
  | call u | switch u | preempt u | spuriousThread u =>
    cases ha
    simp only [step] at h
    split at h <;> cases h
    refine ⟨.quiet ?_ ?_ ?_ ?_, rfl⟩ <;> simp_all [stopped, counted]

theorem step_world (h : step s a = some s') (hw : s.worldStopped = stopping s.gc) :
    s'.worldStopped = stopping s'.gc := by
  cases hp : a.party with
  | thread t =>
    rw [(step_effect h hp).2, (step_moves h).collector (by simp [hp]), hw]
  | collector => exact (step_collector h hp).world hw

omit [DecidableEq T] in
theorem moved_other {p q : Party T} (h : Moves s s' p) (hq : q ≠ p) :
    locked s' q = locked s q ∧ adding s' q = adding s q := by
  cases q with
  | collector => simp [h.collector (Ne.symm hq)]
  | thread u => simp [h.thread u (Ne.symm hq)]

section Counting

variable [Fintype T]

def count (f : Pc → Bool) (s : State T) : Nat := ∑ t, (f (s.pc t)).toNat

variable {s s' : State T}

omit [DecidableEq T] in
theorem count_collector (f : Pc → Bool) (h : Moves s s' .collector) : count f s' = count f s :=
  Finset.sum_congr rfl fun u _ => by rw [h.thread u (by simp)]

theorem count_thread {t : T} (f : Pc → Bool) (h : Moves s s' (.thread t)) :
    count f s' + (f (s.pc t)).toNat = count f s + (f (s'.pc t)).toNat := by
  refine sum_point (f := fun u => (f (s.pc u)).toNat) (g := fun u => (f (s'.pc u)).toNat) fun u hu => ?_
  rw [h.thread u (by simpa using Ne.symm hu)]

/-- The facts that need no condition on the steps: who owns the two locks,
what `total_threads` counts, and when `world_stopped` is set. -/
structure Base (s : State T) : Prop where
  lock : Lock.Guarded s.lock (locked s)
  add : Lock.Guarded s.addLock (adding s)
  total : s.totalThreads = count counted s
  world : s.worldStopped = stopping s.gc

omit [DecidableEq T] in
theorem base_start : Base (start : State T) := by
  refine ⟨?_, ?_, ?_, rfl⟩
  · rintro (_ | t) h <;> simp [start, collectorLocked] at h
  · rintro (_ | t) h <;> simp [start, collectorAdding] at h
  · simp [start, count, counted]

theorem total_step {a : Act T} (htot : s.totalThreads = count counted s) (hs : step s a = some s') :
    s'.totalThreads = count counted s' := by
  have hm := step_moves hs
  cases hp : a.party with
  | collector =>
    have hsame := (step_collector hs hp).total
    have hc := count_collector counted (hp ▸ hm)
    omega
  | thread t =>
    have hc := count_thread counted (hp ▸ hm)
    cases (step_effect hs hp).1 with
    | quiet _ ht _ hct => rw [hct] at hc; omega
    | arrive hp hp' _ ht | leave hp _ hp' _ ht | add hp hp' _ ht | sub hp hp' _ ht =>
      simp only [hp, hp', counted, Bool.toNat_true, Bool.toNat_false] at hc
      omega

theorem base_step {a : Act T} (h : Base s) (hs : step s a = some s') : Base s' := by
  have hm := step_moves hs
  refine ⟨?_, ?_, total_step h.total hs, step_world hs h.world⟩
  · exact h.lock.step (step_lock hs) fun q hq => (moved_other hm hq).1
  · exact h.add.step (step_add hs) fun q hq => (moved_other hm hq).2

end Counting

def threadSteps (t : T) (n : Nat) : List (Act T) := List.replicate n (.thread t)

def collectorSteps (n : Nat) : List (Act T) := List.replicate n .collector

end Picasso.Gc.StopWorldCounts
