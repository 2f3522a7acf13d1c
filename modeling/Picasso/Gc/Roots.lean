import Picasso.Lib.Transition

namespace Picasso.Gc.Roots

open Lib.Transition Function

variable {P T : Type} [DecidableEq P] [DecidableEq T]

/-- The point a thread has reached inside `safe_gcq_push` or `safe_gcq_remove`,
with the task and its node. Each constructor names what the thread does next. -/
inductive Pc (T : Type)
  | idle
  | pushLock (t : T) (n : Nat)
  | pushUpdate (t : T) (n : Nat)
  | pushUnlock (t : T)
  | removeLock (t : T)
  | removeTest (t : T)
  | removeLast (t : T) (n : Nat)
  | removeLastUnlock (t : T) (n : Nat)
  | removeSplice (t : T) (n : Nat)
  | removeClear (t : T) (n : Nat)
  | removeUnlock (t : T) (n : Nat)
  | removeRelease (t : T) (n : Nat)
  deriving DecidableEq

/-- What a call has done with the lock: how often it has acquired and released
it, and whether it held it at each release. -/
structure Record where
  acquired : Nat
  released : Nat
  owned : Bool
  deriving DecidableEq

/-- `roots`, the nodes and the tasks; the null pointer is 0. `registered` are
the tasks whose node has been put into the list and not been taken out, the
last one first. `busy` tasks are in the hands of a call, and `call` is the
record of the last call of a thread. -/
structure State (P T : Type) where
  lock : Option P
  head : Nat
  fd : Nat → Nat
  bk : Nat → Nat
  task : Nat → Option T
  gcq : T → Nat
  allocated : Nat → Bool
  busy : T → Bool
  registered : List T
  pc : P → Pc T
  call : P → Option Record

/-- A task is created and destroyed by one thread at a time, and created with
a node that the global arena has not handed out. -/
inductive Act (P T : Type)
  | push (p : P) (t : T) (n : Nat)
  | remove (p : P) (t : T)
  | step (p : P)

def State.goto (s : State P T) (p : P) (c : Pc T) : State P T := { s with pc := update s.pc p c }

def State.begin (s : State P T) (p : P) (t : T) (c : Pc T) : State P T :=
  { s.goto p c with busy := update s.busy t true, call := update s.call p (some ⟨0, 0, true⟩) }

def State.leave (s : State P T) (p : P) (t : T) : State P T :=
  { s.goto p .idle with busy := update s.busy t false }

def State.acquire (s : State P T) (p : P) : State P T :=
  { s with
    lock := some p
    call := update s.call p ((s.call p).map fun r => { r with acquired := r.acquired + 1 }) }

/-- `pthread_mutex_unlock`, which frees the mutex whoever has it. -/
def State.release (s : State P T) (p : P) : State P T :=
  { s with
    lock := none
    call := update s.call p
      ((s.call p).map fun r => { r with released := r.released + 1, owned := r.owned && decide (s.lock = some p) }) }

def State.insert (s : State P T) (t : T) (n : Nat) : State P T :=
  if s.head = 0 then
    { s with
      fd := update s.fd n n, bk := update s.bk n n, head := n, registered := t :: s.registered }
  else
    let bk := update s.bk n (s.bk s.head)
    { s with
      fd := update (update s.fd n s.head) (bk s.head) n
      bk := update bk s.head n
      head := n
      registered := t :: s.registered }

def State.splice (s : State P T) (t : T) (n : Nat) : State P T :=
  let bk := update s.bk (s.fd n) (s.bk n)
  let fd := update s.fd (bk n) (s.fd n)
  { s with fd := fd, bk := bk, head := if s.head = n then fd n else s.head, registered := s.registered.erase t }

def advance (s : State P T) (p : P) : Option (State P T) :=
  match s.pc p with
  | .idle => none
  | .pushLock t n => if s.lock = none then some ((s.acquire p).goto p (.pushUpdate t n)) else none
  | .pushUpdate t n => some ((s.insert t n).goto p (.pushUnlock t))
  | .pushUnlock t => some ((s.release p).leave p t)
  | .removeLock t => if s.lock = none then some ((s.acquire p).goto p (.removeTest t)) else none
  | .removeTest t =>
    let n := s.gcq t
    -- the call returns 0 without an unlock
    if n = 0 ∨ s.head = 0 then some (s.leave p t)
    else some (s.goto p (if s.fd n = n then .removeLast t n else .removeSplice t n))
  | .removeLast t n => some ({ s with head := 0, registered := s.registered.erase t }.goto p (.removeLastUnlock t n))
  | .removeLastUnlock t n => some ((s.release p).goto p (.removeClear t n))
  | .removeSplice t n => some ((s.splice t n).goto p (.removeClear t n))
  | .removeClear t n =>
    some ({ s with
      fd := update s.fd n 0, bk := update s.bk n 0, gcq := update s.gcq t 0 }.goto p
        (.removeUnlock t n))
  | .removeUnlock t n => some ((s.release p).goto p (.removeRelease t n))
  | .removeRelease t n => some ({ s with allocated := update s.allocated n false }.leave p t)

def step (s : State P T) : Act P T → Option (State P T)
  | .push p t n =>
    if s.pc p = .idle ∧ s.busy t = false ∧ t ∉ s.registered ∧ n ≠ 0 ∧ s.allocated n = false then
      some ({ s with
        task := update s.task n (some t)
        gcq := update s.gcq t n
        allocated := update s.allocated n true }.begin p t (.pushLock t n))
    else none
  | .remove p t => if s.pc p = .idle ∧ s.busy t = false then some (s.begin p t (.removeLock t)) else none
  | .step p => advance s p

def init : State P T :=
  ⟨none, 0, fun _ => 0, fun _ => 0, fun _ => none, fun _ => 0, fun _ => false, fun _ => false, [], fun _ => .idle, fun _ => none⟩

def machine (P T : Type) [DecidableEq P] [DecidableEq T] : Machine (State P T) (Act P T) := ⟨(· = init), step⟩

end Picasso.Gc.Roots
