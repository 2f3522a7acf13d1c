import Picasso.Lib.Queues
import Picasso.Sync.RwMutex

namespace Picasso.Sched.Tasking

open Lib.Queues Lib.Transition Function
open Picasso.Sync.RwMutex (Mode WRITER_BIT READER_INC writerBit withWriterBit)

variable {T : Type} [DecidableEq T]

def SCHEDULER_THREAD_POOL_SIZE : Nat := 12

/-- The queues that hold task pointers: the ready queue of each kernel thread,
the waiter queues of the sync objects, the submitted requests of each
`io_uring` and the registration of each polled descriptor. -/
inductive Place
  | ready (k : Nat)
  | mutexWaiters (m : Nat)
  | readers (r : Nat)
  | writers (r : Nat)
  | groupWaiters (w : Nat)
  | ring (k : Nat)
  | poll (fd : Nat)
  deriving DecidableEq

def waitersOf (r : Nat) : Mode → Place
  | .reader => .readers r
  | .writer => .writers r

inductive IoOp
  | stdinRead
  | stdoutWrite
  | fileRead
  | fileWrite
  deriving DecidableEq

inductive Resume
  | code
  | lockSlow (m : Nat)
  | rwLoad (r : Nat) (mode : Mode)
  | drain (r : Nat)
  | groupCheck (w : Nat)
  | getSqe (op : IoOp)
  deriving DecidableEq

/-- The next operation of a task: task code, a `task_yield`, or an operation
of a runtime call. A section under the lock of a sync object is one
operation, as the queues of the object change only under that lock. -/
inductive Point (T : Type)
  | code
  | switch (next : Resume)
  | lockFast (m : Nat)
  | lockSlow (m : Nat)
  | unlock (m : Nat)
  | rwLoad (r : Nat) (mode : Mode)
  | rwSlow (r : Nat) (mode : Mode)
  | rwCas (r : Nat) (mode : Mode) (old : Int)
  | drain (r : Nat)
  | runlock (r : Nat)
  | runlockWake (r : Nat)
  | rwunlock (r : Nat)
  | groupAdd (w : Nat) (delta : Int)
  | groupWake (w : Nat)
  | groupCheck (w : Nat)
  | groupWait (w : Nat)
  | yieldCheck
  | getSqe (op : IoOp)
  | ioPush (op : IoOp)
  | submit (op : IoOp)
  | netAdd (fd : Nat)
  | netMod (fd : Nat)
  | netPush
  | spawnCount (child : T) (kid : Nat)
  | spawnPush (child : T) (kid : Nat)
  deriving DecidableEq

def Resume.point : Resume → Point T
  | .code => .code
  | .lockSlow m => .lockSlow m
  | .rwLoad r mode => .rwLoad r mode
  | .drain r => .drain r
  | .groupCheck w => .groupCheck w
  | .getSqe op => .getSqe op

inductive Status (T : Type)
  | absent
  | born
  | live (p : Point T)
  | finished
  deriving DecidableEq

inductive Thread (T : Type)
  | popWait
  | running (t : T)
  | destroy (t : T)
  | recheck
  | sentinel (i : Nat)
  | exited
  deriving DecidableEq

structure Io where
  doneN : Int
  ioErr : Nat
  ioDone : Bool
  deriving DecidableEq

structure State (T : Type) where
  queue : Place → List (Option T)
  thread : Nat → Thread T
  status : T → Status T
  schedId : T → Nat
  -- entries taken by `io_uring_get_sqe` and not yet submitted
  prepared : Nat → List T
  mutex : Nat → Int
  rwmutex : Nat → Int
  waitgroup : Nat → Int
  taskCount : Int
  preempt : Nat → Bool
  waitQ : Nat → List T
  -- whether `t->wq` is set
  wq : T → Bool
  io : T → Io

inductive Outcome
  | ok
  | spurious
  | full
  | accepted (n : Nat)
  | failed (errno : Nat)
  | already
  deriving DecidableEq

inductive Call (T : Type)
  | mutexLock (m : Nat)
  | mutexUnlock (m : Nat)
  | rlock (r : Nat)
  | runlock (r : Nat)
  | rwlock (r : Nat)
  | rwunlock (r : Nat)
  | add (w : Nat) (delta : Int)
  | wait (w : Nat)
  | selfYield
  | disk (op : IoOp)
  | net (fd : Nat)
  | thread (child : T) (kid : Nat)
  | finish

/-- What the network worker does with a task whose descriptor is ready. -/
inductive Event
  | done (n : Int) (errno : Nat)
  | rearmed
  | rearmFailed
  deriving DecidableEq

inductive Act (T : Type)
  | sched (k : Nat)
  | call (k : Nat) (c : Call T)
  | step (k : Nat) (o : Outcome)
  | tick (k : Nat)
  | diskio (k : Nat) (t : T) (res : Int)
  | netio (fd : Nat) (e : Event)

namespace State

def goto (s : State T) (t : T) (p : Point T) : State T :=
  { s with status := update s.status t (.live p) }

/-- `safe_q_push(&kernel_thread_map[w->sched_id]->ready_q, w)` -/
def makeReady (s : State T) (w : T) : State T :=
  { s with queue := push s.queue (.ready (s.schedId w)) (some w) }

/-- `safe_q_pop` followed by a push to the ready queue if a task was popped. -/
def wake (s : State T) (p : Place) : State T :=
  match s.queue p with
  | [] => s
  | none :: l => { s with queue := update s.queue p l }
  | some w :: l => makeReady { s with queue := update s.queue p l } w

/-- The loop that pops and wakes until `safe_q_pop` returns `NULL`. -/
def wakeAll (s : State T) (p : Place) : List (Option T) → State T
  | [] => s
  | none :: _ => s.wake p
  | some _ :: l => (s.wake p).wakeAll p l

/-- The task puts itself into a queue and has its switch ahead. -/
def block (s : State T) (t : T) (p : Place) (next : Resume) : State T :=
  { s with queue := push s.queue p (some t) }.goto t (.switch next)

def taskYield (s : State T) (t : T) (next : Resume) : State T :=
  match s.thread (s.schedId t) with
  | .running _ =>
    { s.goto t next.point with thread := update s.thread (s.schedId t) .popWait }
  | _ => s.goto t next.point

def unsafeIoqPush (s : State T) (k : Nat) (t : T) : State T :=
  { s with waitQ := update s.waitQ k (t :: s.waitQ k), wq := update s.wq t true }

def unsafeIoqRemove (s : State T) (k : Nat) (t : T) : State T :=
  if s.wq t ∧ s.waitQ k ≠ [] then
    { s with waitQ := update s.waitQ k ((s.waitQ k).erase t), wq := update s.wq t false }
  else s

end State

open State

def callPoint : Call T → Point T
  | .mutexLock m => .lockFast m
  | .mutexUnlock m => .unlock m
  | .rlock r => .rwLoad r .reader
  | .runlock r => .runlock r
  | .rwlock r => .rwLoad r .writer
  | .rwunlock r => .rwunlock r
  | .add w delta => .groupAdd w delta
  | .wait w => .groupCheck w
  | .selfYield => .yieldCheck
  | .disk op => .getSqe op
  | .net fd => .netAdd fd
  | .thread child kid => .spawnCount child kid
  | .finish => .code

def callStep (s : State T) (k : Nat) (t : T) : Call T → Option (State T)
  | .thread child kid =>
    if s.status child = .absent ∧ kid < SCHEDULER_THREAD_POOL_SIZE then
      some { s.goto t (.spawnCount child kid) with
        status := update (s.goto t (.spawnCount child kid)).status child .born
        schedId := update s.schedId child kid }
    else none
  | .finish =>
    some { s with
      status := update s.status t .finished
      thread := update s.thread k (.destroy t) }
  | .disk op => some { s.goto t (.getSqe op) with io := update s.io t ⟨0, 0, false⟩ }
  | .net fd => some { s.goto t (.netAdd fd) with io := update s.io t ⟨0, 0, false⟩ }
  | c => some (s.goto t (callPoint c))

def submitStep (s : State T) (t : T) (op : IoOp) : Outcome → Option (State T)
  | .failed errno =>
    -- `async_file_read` alone yields after a failed submit
    some { s.goto t (if op = .fileRead then .switch .code else .code) with
      io := update s.io t ⟨-1, errno, true⟩ }
  | .accepted n =>
    let k := s.schedId t
    some { s.goto t (.switch .code) with
      queue := update s.queue (.ring k) (s.queue (.ring k) ++ ((s.prepared k).take n).map some)
      prepared := update s.prepared k ((s.prepared k).drop n) }
  | _ => none

def netStep (s : State T) (t : T) (fd : Nat) : Outcome → Option (State T)
  | .ok =>
    if s.queue (.poll fd) = [] then some ({ s with queue := push s.queue (.poll fd) (some t) }.goto t .netPush)
    else none
  | .already => some (s.goto t (.netMod fd))
  | .failed _ => some (s.goto t .code)
  | _ => none

def pointStep (s : State T) (t : T) (o : Outcome) : Point T → Option (State T)
  | .code => none
  | .switch next => some (s.taskYield t next)
  | .lockFast m =>
    if s.mutex m = 0 then some { s.goto t .code with mutex := update s.mutex m 1 }
    else some (s.goto t (.lockSlow m))
  | .lockSlow m =>
    if s.mutex m = 0 then some { s.goto t .code with mutex := update s.mutex m 1 }
    else some (s.block t (.mutexWaiters m) (.lockSlow m))
  | .unlock m =>
    some { (s.wake (.mutexWaiters m)).goto t .code with mutex := update s.mutex m 0 }
  | .rwLoad r mode =>
    some (s.goto t (if writerBit (s.rwmutex r) then .rwSlow r mode else .rwCas r mode (s.rwmutex r)))
  | .rwSlow r mode =>
    if writerBit (s.rwmutex r) then some (s.block t (waitersOf r mode) (.rwLoad r mode))
    else some (s.goto t (.rwLoad r mode))
  | .rwCas r mode old =>
    if o ≠ .spurious ∧ s.rwmutex r = old then
      match mode with
      | .reader =>
        some { s.goto t .code with rwmutex := update s.rwmutex r (old + READER_INC) }
      | .writer =>
        some { s.goto t (.drain r) with rwmutex := update s.rwmutex r (withWriterBit old) }
    else some (s.goto t (.rwLoad r mode))
  | .drain r => some (s.goto t (if s.rwmutex r = WRITER_BIT then .code else .switch (.drain r)))
  | .runlock r =>
    some { s.goto t (if s.rwmutex r - READER_INC = WRITER_BIT then .runlockWake r else .code) with
      rwmutex := update s.rwmutex r (s.rwmutex r - READER_INC) }
  | .runlockWake r => some ((s.wake (.writers r)).goto t .code)
  | .rwunlock r =>
    let s₁ := s.wake (.writers r)
    let s₂ := if ((s.queue (.writers r)).head?.join).isSome then s₁
      else s₁.wakeAll (.readers r) (s₁.queue (.readers r))
    some { s₂.goto t .code with rwmutex := update s.rwmutex r 0 }
  | .groupAdd w delta =>
    -- the assertion stops the program when the counter becomes negative
    if s.waitgroup w + delta < 0 then none
    else
      some { s.goto t (if s.waitgroup w + delta = 0 ∧ delta < 0 then .groupWake w else .code) with
        waitgroup := update s.waitgroup w (s.waitgroup w + delta) }
  | .groupWake w => some ((s.wakeAll (.groupWaiters w) (s.queue (.groupWaiters w))).goto t .code)
  | .groupCheck w => some (s.goto t (if s.waitgroup w = 0 then .code else .groupWait w))
  | .groupWait w =>
    if s.waitgroup w = 0 then some (s.goto t .code)
    else some (s.block t (.groupWaiters w) (.groupCheck w))
  | .yieldCheck =>
    if s.preempt (s.schedId t) then
      some { s.block t (.ready (s.schedId t)) .code with
        preempt := update s.preempt (s.schedId t) false }
    else some (s.goto t .code)
  | .getSqe op =>
    if o = .full then some (s.goto t (.switch (.getSqe op)))
    else some { s.goto t (.ioPush op) with
      prepared := update s.prepared (s.schedId t) (s.prepared (s.schedId t) ++ [t]) }
  | .ioPush op => some ((s.unsafeIoqPush (s.schedId t) t).goto t (.submit op))
  | .submit op => submitStep s t op o
  | .netAdd fd => netStep s t fd o
  | .netMod fd =>
    match o with
    | .ok => some ({ s with queue := update s.queue (.poll fd) [some t] }.goto t .netPush)
    -- the result of `netpoll_mod` is not looked at
    | .failed _ => some (s.goto t .netPush)
    | _ => none
  | .netPush => some ((s.unsafeIoqPush (s.schedId t) t).goto t (.switch .code))
  | .spawnCount child kid => some { s.goto t (.spawnPush child kid) with taskCount := s.taskCount + 1 }
  | .spawnPush child kid =>
    some ({ s with
      queue := push s.queue (.ready kid) (some child)
      status := update s.status child (.live .code) }.goto t .code)

def schedStep (s : State T) (k : Nat) : Option (State T) :=
  match s.thread k with
  | .popWait => match s.queue (.ready k) with
    | [] => none
    | none :: l =>
      some { s with
        queue := update s.queue (.ready k) l, thread := update s.thread k .exited }
    | some t :: l =>
      some ({ s with
        queue := update s.queue (.ready k) l
        thread := update s.thread k (.running t) }.unsafeIoqRemove k t)
  | .running _ => none
  -- `task_destroy` releases the record, which a later `task_create` may get
  | .destroy t =>
    some { s with
      status := update s.status t .absent
      taskCount := s.taskCount - 1
      thread := update s.thread k (if s.taskCount - 1 = 0 then .recheck else .popWait) }
  | .recheck =>
    some { s with thread := update s.thread k (if s.taskCount = 0 then .sentinel 0 else .popWait) }
  | .sentinel i =>
    if i < SCHEDULER_THREAD_POOL_SIZE then
      some { s with
        queue := push s.queue (.ready i) none, thread := update s.thread k (.sentinel (i + 1)) }
    else some { s with thread := update s.thread k .exited }
  | .exited => none

def netioStep (s : State T) (fd : Nat) (t : T) : Event → State T
  | .done n errno =>
    { makeReady { s with queue := remove s.queue (.poll fd) (some t) } t with
      io := update s.io t ⟨n, errno, true⟩ }
  | .rearmed => s
  | .rearmFailed => { s with queue := remove s.queue (.poll fd) (some t) }

def step (s : State T) : Act T → Option (State T)
  | .sched k => schedStep s k
  | .call k c => match s.thread k with
    | .running t => if s.status t = .live .code then callStep s k t c else none
    | _ => none
  | .step k o => match s.thread k with
    | .running t => match s.status t with
      | .live p => pointStep s t o p
      | _ => none
    | _ => none
  | .tick k => some { s with preempt := update s.preempt k true }
  | .diskio k t res =>
    if some t ∈ s.queue (.ring k) then
      some { makeReady { s with queue := remove s.queue (.ring k) (some t) } t with
        io := update s.io t (if res < 0 then ⟨-1, res.natAbs, true⟩ else ⟨res, 0, true⟩) }
    else none
  | .netio fd e => match s.queue (.poll fd) with
    | some t :: _ => some (netioStep s fd t e)
    | _ => none

/-- The state after `init_scheduler` and the `thread` call for the first task. -/
def start (t : T) (kid : Nat) : State T where
  queue := fun p => if p = .ready kid then [some t] else []
  thread := fun k => if k < SCHEDULER_THREAD_POOL_SIZE then .popWait else .exited
  status := update (fun _ => .absent) t (.live .code)
  schedId := fun _ => kid
  prepared := fun _ => []
  mutex := fun _ => 0
  rwmutex := fun _ => 0
  waitgroup := fun _ => 0
  taskCount := 1
  preempt := fun _ => false
  waitQ := fun _ => []
  wq := fun _ => false
  io := fun _ => ⟨0, 0, false⟩

def machine (T : Type) [DecidableEq T] : Machine (State T) (Act T) :=
  ⟨fun s => ∃ t kid, kid < SCHEDULER_THREAD_POOL_SIZE ∧ s = start t kid, step⟩

end Picasso.Sched.Tasking
