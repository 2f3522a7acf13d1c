import Picasso.Lib.Transition

namespace Picasso.Sync.Mutex

open Lib.Transition

variable {T : Type} [DecidableEq T]

/-- The point a task has reached inside `sync_mutex_lock` or
`sync_mutex_unlock`. Each constructor names the atomic operation that the
task performs next. -/
inductive Pc (T : Type)
  | idle
  | fastCas
  | slowAcquire
  | slowLoad
  | slowStore
  | slowReturn
  | slowPush
  | slowRelease
  | slowYield
  | asleep
  | unlockAcquire
  | unlockStore
  | unlockPop
  | unlockPush (w : T)
  | unlockRelease
  deriving DecidableEq

/-- One mutex and the tasks that use it. `holds t` counts the calls of
`sync_mutex_lock` that returned to `t` less its calls of
`sync_mutex_unlock`; `ready` joins the ready queues of all kernel threads. -/
structure State (T : Type) where
  state : Int
  lock : Option T
  waiters : List T
  ready : List T
  pc : T → Pc T
  holds : T → Nat

inductive Act (T : Type)
  | lock (t : T)
  | unlock (t : T)
  | step (t : T)

def Act.task : Act T → T
  | .lock t | .unlock t | .step t => t

@[simp] def State.goto (s : State T) (t : T) (p : Pc T) : State T :=
  { s with pc := Function.update s.pc t p }

/-- `sync_mutex_lock` returns to its caller. -/
@[simp] def State.enter (s : State T) (t : T) : State T :=
  { s.goto t .idle with holds := Function.update s.holds t (s.holds t + 1) }

def advance (s : State T) (t : T) : Option (State T) :=
  match s.pc t with
  | .idle => none
  | .fastCas => if s.state = 0 then some { s.enter t with state := 1 } else some (s.goto t .slowAcquire)
  | .slowAcquire => if s.lock = none then some { s.goto t .slowLoad with lock := some t } else none
  | .slowLoad => some (s.goto t (if s.state = 0 then .slowStore else .slowPush))
  | .slowStore => some { s.goto t .slowReturn with state := 1 }
  | .slowReturn => some { s.enter t with lock := none }
  | .slowPush => some { s.goto t .slowRelease with waiters := s.waiters ++ [t] }
  | .slowRelease => some { s.goto t .slowYield with lock := none }
  | .slowYield => some (s.goto t .asleep)
  -- the scheduler resumes a task that an unlock has put into a ready queue
  | .asleep => if t ∈ s.ready then some { s.goto t .slowAcquire with ready := s.ready.erase t } else none
  | .unlockAcquire => if s.lock = none then some { s.goto t .unlockStore with lock := some t } else none
  | .unlockStore => some { s.goto t .unlockPop with state := 0 }
  | .unlockPop => match s.waiters with
    | [] => some (s.goto t .unlockRelease)
    | w :: ws => some { s.goto t (.unlockPush w) with waiters := ws }
  | .unlockPush w => some { s.goto t .unlockRelease with ready := s.ready ++ [w] }
  | .unlockRelease => some { s.goto t .idle with lock := none }

/-- A task calls `sync_mutex_unlock` only while it holds the mutex. -/
def step (s : State T) : Act T → Option (State T)
  | .lock t => if s.pc t = .idle then some (s.goto t .fastCas) else none
  | .unlock t =>
    if s.pc t = .idle ∧ 0 < s.holds t then
      some { s.goto t .unlockAcquire with holds := Function.update s.holds t (s.holds t - 1) }
    else none
  | .step t => advance s t

def create : State T := ⟨0, none, [], [], fun _ => .idle, fun _ => 0⟩

def machine (T : Type) [DecidableEq T] : Machine (State T) (Act T) := ⟨fun s => s = create, step⟩

end Picasso.Sync.Mutex
