import Picasso.Lib.Transition

namespace Picasso.Sync.RwMutex

open Lib.Transition Function

variable {T : Type} [DecidableEq T]

def WRITER_BIT : Int := 1

def READER_INC : Int := 2

-- `old & WRITER_BIT` and `old | WRITER_BIT` on a two's complement word
def writerBit (old : Int) : Bool := old % 2 = 1

def withWriterBit (old : Int) : Int := if writerBit old then old else old + WRITER_BIT

inductive Mode
  | reader
  | writer
  deriving DecidableEq

/-- The point a task has reached in one of the four calls. The waiting part
of `rwmutex_rlock` and `rwmutex_rwlock` differs in the queue only and is
indexed by `Mode`. -/
inductive Pc (T : Type)
  | idle
  | load (m : Mode)
  | acquire (m : Mode)
  | recheck (m : Mode)
  | push (m : Mode)
  | pushRelease (m : Mode)
  | yield (m : Mode)
  | asleep (m : Mode)
  | retryRelease (m : Mode)
  | cas (m : Mode) (old : Int)
  | drain
  | drainYield
  | drainAsleep
  | runlockSub
  | runlockAcquire
  | runlockPop
  | runlockPush (w : T)
  | runlockRelease
  | rwunlockAcquire
  | rwunlockStore
  | rwunlockPopWriter
  | rwunlockPushWriter (w : T)
  | rwunlockPopReader
  | rwunlockPushReader (r : T)
  | rwunlockRelease
  deriving DecidableEq

/-- One read-write mutex and the tasks that use it. `reads` and `writes`
count, for each task, the lock calls that returned to it less its unlock calls. -/
structure State (T : Type) where
  -- an `int64_t`; every holder adds at most `READER_INC`, far below its range
  state : Int
  lock : Option T
  readers : List T
  writers : List T
  ready : List T
  pc : T → Pc T
  reads : T → Nat
  writes : T → Nat

inductive Act (T : Type)
  | rlock (t : T)
  | runlock (t : T)
  | rwlock (t : T)
  | rwunlock (t : T)
  | step (t : T)
  -- a weak compare-and-swap may fail although the word has the expected value
  | spurious (t : T)

def Act.task : Act T → T
  | .rlock t | .runlock t | .rwlock t | .rwunlock t | .step t | .spurious t => t

@[simp] def State.goto (s : State T) (t : T) (p : Pc T) : State T :=
  { s with pc := update s.pc t p }

def State.queue (s : State T) (m : Mode) (t : T) : State T :=
  match m with
  | .reader => { s with readers := s.readers ++ [t] }
  | .writer => { s with writers := s.writers ++ [t] }

/-- The successful exchange: a reader returns with its increment, a writer
goes on to wait for the readers to drain. -/
def State.exchange (s : State T) (m : Mode) (t : T) (old : Int) : State T :=
  match m with
  | .reader => { s.goto t .idle with
      state := old + READER_INC
      reads := update s.reads t (s.reads t + 1) }
  | .writer => { s.goto t .drain with state := withWriterBit old }

def advance (s : State T) (t : T) : Option (State T) :=
  match s.pc t with
  | .idle => none
  | .load m => some (s.goto t (if writerBit s.state then .acquire m else .cas m s.state))
  | .acquire m => if s.lock = none then some { s.goto t (.recheck m) with lock := some t } else none
  | .recheck m => some (s.goto t (if writerBit s.state then .push m else .retryRelease m))
  | .push m => some ((s.goto t (.pushRelease m)).queue m t)
  | .pushRelease m => some { s.goto t (.yield m) with lock := none }
  | .yield m => some (s.goto t (.asleep m))
  | .asleep m => if t ∈ s.ready then some { s.goto t (.load m) with ready := s.ready.erase t } else none
  | .retryRelease m => some { s.goto t (.load m) with lock := none }
  | .cas m old => if s.state = old then some (s.exchange m t old) else some (s.goto t (.load m))
  | .drain =>
    if s.state = WRITER_BIT then
      some { s.goto t .idle with writes := update s.writes t (s.writes t + 1) }
    else some (s.goto t .drainYield)
  | .drainYield => some (s.goto t .drainAsleep)
  | .drainAsleep => if t ∈ s.ready then some { s.goto t .drain with ready := s.ready.erase t } else none
  | .runlockSub =>
    -- the last reader under a waiting writer wakes one
    some { s.goto t (if s.state - READER_INC = WRITER_BIT then .runlockAcquire else .idle) with
      state := s.state - READER_INC }
  | .runlockAcquire => if s.lock = none then some { s.goto t .runlockPop with lock := some t } else none
  | .runlockPop => match s.writers with
    | [] => some (s.goto t .runlockRelease)
    | w :: ws => some { s.goto t (.runlockPush w) with writers := ws }
  | .runlockPush w => some { s.goto t .runlockRelease with ready := s.ready ++ [w] }
  | .runlockRelease => some { s.goto t .idle with lock := none }
  | .rwunlockAcquire => if s.lock = none then some { s.goto t .rwunlockStore with lock := some t } else none
  | .rwunlockStore => some { s.goto t .rwunlockPopWriter with state := 0 }
  | .rwunlockPopWriter => match s.writers with
    | [] => some (s.goto t .rwunlockPopReader)
    | w :: ws => some { s.goto t (.rwunlockPushWriter w) with writers := ws }
  | .rwunlockPushWriter w => some { s.goto t .rwunlockRelease with ready := s.ready ++ [w] }
  | .rwunlockPopReader => match s.readers with
    | [] => some (s.goto t .rwunlockRelease)
    | r :: rs => some { s.goto t (.rwunlockPushReader r) with readers := rs }
  | .rwunlockPushReader r => some { s.goto t .rwunlockPopReader with ready := s.ready ++ [r] }
  | .rwunlockRelease => some { s.goto t .idle with lock := none }

/-- Tasks unlock only what they hold. -/
def step (s : State T) : Act T → Option (State T)
  | .rlock t => if s.pc t = .idle then some (s.goto t (.load .reader)) else none
  | .rwlock t => if s.pc t = .idle then some (s.goto t (.load .writer)) else none
  | .runlock t =>
    if s.pc t = .idle ∧ 0 < s.reads t then
      some { s.goto t .runlockSub with reads := update s.reads t (s.reads t - 1) }
    else none
  | .rwunlock t =>
    if s.pc t = .idle ∧ 0 < s.writes t then
      some { s.goto t .rwunlockAcquire with writes := update s.writes t (s.writes t - 1) }
    else none
  | .step t => advance s t
  | .spurious t => match s.pc t with
    | .cas m _ => some (s.goto t (.load m))
    | _ => none

def create : State T := ⟨0, none, [], [], [], fun _ => .idle, fun _ => 0, fun _ => 0⟩

def machine (T : Type) [DecidableEq T] : Machine (State T) (Act T) := ⟨fun s => s = create, step⟩

end Picasso.Sync.RwMutex
