import Picasso.Lib.Transition

namespace Picasso.Gc.StopWorld

open Lib.Transition

variable {T : Type} [DecidableEq T]

/-- The collector inside `gc_stop_the_world` and `gc_resume_world`. The two
loads of the waiting condition are taken from left to right. -/
inductive Collector
  | rest
  | stopLock
  | stopStore
  | stopLoadStopped
  | stopLoadTotal (stopped : Int)
  | stopWait
  | stopBlocked
  | stopRelock
  | stopUnlock
  | stopAddLock
  | collecting
  | resumeLock
  | resumeStoreWorld
  | resumeStoreCount
  | resumeBroadcast
  | resumeUnlock
  | resumeUnlockAdd
  deriving DecidableEq

/-- A scheduler thread inside `scheduler_run`, a task, or `self_yield` called
by the task. -/
inductive Pc
  | idle
  | addLock
  | addCount
  | addUnlock
  | resume
  | running
  | yieldLoad
  | yieldPush
  | yieldLock
  | yieldCount
  | yieldCompare (before : Int)
  | yieldSignal
  | yieldLoop
  | yieldWait
  | yieldBlocked
  | yieldRelock
  | yieldUnlock
  | subCount
  deriving DecidableEq

inductive Party (T : Type)
  | collector
  | thread (t : T)
  deriving DecidableEq

/-- `gc_state` with the position of every party. `signalled` records a signal
on `cv_mutators_stopped` since the collector blocked on it, and `woken t` a
broadcast on `cv_world_resumed` since `t` blocked. -/
structure State (T : Type) where
  worldStopped : Bool
  stoppedCount : Int
  totalThreads : Int
  lock : Option (Party T)
  addLock : Option (Party T)
  signalled : Bool
  woken : T → Bool
  gc : Collector
  pc : T → Pc

inductive Act (T : Type)
  | collector
  | thread (t : T)
  -- the running task calls `self_yield`, blocks elsewhere or finishes
  | call (t : T)
  | switch (t : T)
  -- the preemption flag is seen set
  | preempt (t : T)
  -- `pthread_cond_wait` may return without a signal
  | spuriousCollector
  | spuriousThread (t : T)

def Act.party : Act T → Party T
  | .collector | .spuriousCollector => .collector
  | .thread t | .call t | .switch t | .preempt t | .spuriousThread t => .thread t

@[simp] def State.goto (s : State T) (t : T) (p : Pc) : State T := { s with pc := Function.update s.pc t p }

def collectorStep (s : State T) : Option (State T) :=
  match s.gc with
  | .rest => some { s with gc := .stopLock }
  | .stopLock => if s.lock = none then some { s with gc := .stopStore, lock := some .collector } else none
  | .stopStore => some { s with gc := .stopLoadStopped, worldStopped := true }
  | .stopLoadStopped => some { s with gc := .stopLoadTotal s.stoppedCount }
  | .stopLoadTotal stopped =>
    some { s with gc := if stopped < s.totalThreads then .stopWait else .stopUnlock }
  | .stopWait => some { s with gc := .stopBlocked, lock := none, signalled := false }
  | .stopBlocked => if s.signalled then some { s with gc := .stopRelock } else none
  | .stopRelock => if s.lock = none then some { s with gc := .stopLoadStopped, lock := some .collector } else none
  | .stopUnlock => some { s with gc := .stopAddLock, lock := none }
  | .stopAddLock => if s.addLock = none then some { s with gc := .collecting, addLock := some .collector } else none
  | .collecting => some { s with gc := .resumeLock }
  | .resumeLock => if s.lock = none then some { s with gc := .resumeStoreWorld, lock := some .collector } else none
  | .resumeStoreWorld => some { s with gc := .resumeStoreCount, worldStopped := false }
  | .resumeStoreCount => some { s with gc := .resumeBroadcast, stoppedCount := 0 }
  | .resumeBroadcast =>
    some { s with gc := .resumeUnlock, woken := fun t => s.woken t || decide (s.pc t = .yieldBlocked) }
  | .resumeUnlock => some { s with gc := .resumeUnlockAdd, lock := none }
  | .resumeUnlockAdd => some { s with gc := .rest, addLock := none }

def threadStep (s : State T) (t : T) : Option (State T) :=
  match s.pc t with
  | .idle => some (s.goto t .addLock)
  | .addLock => if s.addLock = none then some { s.goto t .addCount with addLock := some (.thread t) } else none
  | .addCount => some { s.goto t .addUnlock with totalThreads := s.totalThreads + 1 }
  | .addUnlock => some { s.goto t .resume with addLock := none }
  | .resume => some (s.goto t .running)
  | .running => none
  | .yieldLoad => some (s.goto t (if s.worldStopped then .yieldLock else .running))
  | .yieldPush => some (s.goto t .subCount)
  | .yieldLock => if s.lock = none then some { s.goto t .yieldCount with lock := some (.thread t) } else none
  | .yieldCount =>
    some { s.goto t (.yieldCompare s.stoppedCount) with stoppedCount := s.stoppedCount + 1 }
  | .yieldCompare before =>
    some (s.goto t (if before + 1 = s.totalThreads then .yieldSignal else .yieldLoop))
  | .yieldSignal =>
    some { s.goto t .yieldLoop with signalled := s.signalled || decide (s.gc = .stopBlocked) }
  | .yieldLoop => some (s.goto t (if s.worldStopped then .yieldWait else .yieldUnlock))
  | .yieldWait =>
    some { s.goto t .yieldBlocked with lock := none, woken := Function.update s.woken t false }
  | .yieldBlocked => if s.woken t then some (s.goto t .yieldRelock) else none
  | .yieldRelock => if s.lock = none then some { s.goto t .yieldLoop with lock := some (.thread t) } else none
  | .yieldUnlock => some { s.goto t .running with lock := none }
  | .subCount => some { s.goto t .idle with totalThreads := s.totalThreads - 1 }

def step (s : State T) : Act T → Option (State T)
  | .collector => collectorStep s
  | .thread t => threadStep s t
  | .call t => if s.pc t = .running then some (s.goto t .yieldLoad) else none
  | .switch t => if s.pc t = .running then some (s.goto t .subCount) else none
  | .preempt t => if s.pc t = .yieldLoad ∧ s.worldStopped = false then some (s.goto t .yieldPush) else none
  | .spuriousCollector => if s.gc = .stopBlocked then some { s with gc := .stopRelock } else none
  | .spuriousThread t => if s.pc t = .yieldBlocked then some (s.goto t .yieldRelock) else none

def start : State T := ⟨false, 0, 0, none, none, false, fun _ => false, .rest, fun _ => .idle⟩

def machine (T : Type) [DecidableEq T] : Machine (State T) (Act T) := ⟨fun s => s = start, step⟩

end Picasso.Gc.StopWorld
