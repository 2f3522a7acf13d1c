import Picasso.Lib.Transition

namespace Picasso.Net

open Lib.Transition Function

section Poller

/-- What a descriptor is watched for; all watches are one-shot. -/
inductive Interest
  | input | output
  deriving DecidableEq

/-- The entry of a descriptor, which is no longer armed once an event has been
delivered. -/
structure Entry (T : Type) where
  events : Interest
  ud : T
  armed : Bool
  deriving DecidableEq

abbrev Netpoll (T : Type) := Int → Option (Entry T)

variable {T : Type}

/-- Fails for a descriptor that has an entry. -/
def netpollAdd (p : Netpoll T) (fd : Int) (events : Interest) (ud : T) : Option (Netpoll T) :=
  match p fd with
  | none => some (update p fd (some ⟨events, ud, true⟩))
  | some _ => none

/-- Without an entry nothing is changed, and the callers ignore the failure. -/
def netpollMod (p : Netpoll T) (fd : Int) (events : Interest) (ud : T) : Netpoll T :=
  match p fd with
  | none => p
  | some _ => update p fd (some ⟨events, ud, true⟩)

def netpollDel (p : Netpoll T) (fd : Int) : Netpoll T := update p fd none

def disarm (p : Netpoll T) (fds : List Int) : Netpoll T :=
  fun fd => if fd ∈ fds then (p fd).map fun e => { e with armed := false } else p fd

end Poller

section Operations

inductive Op
  | accept | read | write | connect
  deriving DecidableEq

def Op.events : Op → Interest
  | .accept | .read => .input
  | .write | .connect => .output

/-- The operation of a task; its buffer and its address are left out. -/
structure Io where
  fd : Int
  op : Op
  reqN : Int
  doneN : Int
  offset : Int
  ioErr : Nat
  ioDone : Bool

inductive Result
  | value (n : Nat)
  | error (errno : Nat)

def eagain : Nat := 11

inductive Next
  | rearm | del | finish

def Io.fail (io : Io) (errno : Nat) : Io := { io with ioErr := errno, doneN := -1 }

def Io.handleConnect (io : Io) : Result → Io × Next
  | .value _ => ({ io with doneN := io.fd }, .finish)
  | .error e => (io.fail e, .del)

def Io.handleAccept (io : Io) : Result → Io × Next
  | .value n => ({ io with doneN := n }, .finish)
  | .error e => if e = eagain then (io, .rearm) else (io.fail e, .finish)

/-- The end of the stream is a read of nothing. -/
def Io.handleRead (io : Io) : Result → Io × Next
  | .value n => ({ io with offset := io.offset + n, doneN := io.offset + n }, if n = 0 then .del else .finish)
  | .error e => if e = eagain then (io, .rearm) else (io.fail e, .del)

def Io.handleWrite (io : Io) : Result → Io × Next
  | .value n =>
    ({ io with offset := io.offset + n, doneN := io.offset + n },
      if io.offset + n < io.reqN then .rearm else .finish)
  | .error e => if e = eagain then (io, .rearm) else (io.fail e, .del)

/-- What the worker makes of an event, by the result of the system call of the
operation. -/
def Io.handle (io : Io) (r : Result) : Io × Next :=
  match io.op with
  | .connect => { io with ioErr := 0 }.handleConnect r
  | .accept => { io with ioErr := 0 }.handleAccept r
  | .read => { io with ioErr := 0 }.handleRead r
  | .write => { io with ioErr := 0 }.handleWrite r

/-- The system calls return no more than they are asked for, which is asserted
for what is read. -/
def Io.possible (io : Io) : Result → Bool
  | .value n => (io.op = .read ∨ io.op = .write) → io.offset + n ≤ io.reqN
  | .error _ => true

end Operations

section Machines

variable {T : Type} [DecidableEq T]

inductive Pc
  | idle | add | mod | yield | waiting
  deriving DecidableEq

inductive Turn (T : Type)
  | take
  | rearm (t : T)
  | del (t : T)
  | finish (t : T)

def Turn.task : Turn T → Option T
  | .take => none
  | .rearm t | .del t | .finish t => some t

/-- The poller with the events that the worker has been given and has not yet
looked at; `ready` joins the ready queues of all kernel threads. -/
structure State (T : Type) where
  net : Netpoll T
  io : T → Io
  pc : T → Pc
  events : List T
  turn : Turn T
  ready : List T

inductive Act (T : Type)
  | issue (t : T) (op : Op) (fd reqN : Int)
  | fail (t : T)
  | step (t : T)
  | wait (fds : List Int)
  | result (r : Result)
  | turn

@[simp] def State.goto (s : State T) (t : T) (p : Pc) : State T := { s with pc := update s.pc t p }

def advance (s : State T) (t : T) : Option (State T) :=
  match s.pc t with
  | .idle => none
  | .add =>
    match netpollAdd s.net (s.io t).fd (s.io t).op.events t with
    | some p => some { s.goto t .yield with net := p }
    | none => some (s.goto t .mod)
  | .mod => some { s.goto t .yield with net := netpollMod s.net (s.io t).fd (s.io t).op.events t }
  | .yield => some (s.goto t .waiting)
  -- the scheduler resumes a task that the worker has put into a ready queue
  | .waiting => if t ∈ s.ready then some { s.goto t .idle with ready := s.ready.erase t } else none

def Next.turn (t : T) : Next → Turn T
  | .rearm => .rearm t
  | .del => .del t
  | .finish => .finish t

def State.armed (s : State T) (fd : Int) : Bool := (s.net fd).any Entry.armed

def step (s : State T) : Act T → Option (State T)
  | .issue t op fd reqN =>
    if s.pc t = .idle then
      some { s.goto t .add with io := update s.io t ⟨fd, op, reqN, 0, 0, 0, false⟩ }
    else none
  -- an entry cannot be added for another reason, and the operation returns
  | .fail t => if s.pc t = .add then some (s.goto t .idle) else none
  | .step t => advance s t
  | .wait fds =>
    match s.turn, s.events with
    | .take, [] =>
      if fds.Nodup ∧ fds.length ≤ 128 ∧ ∀ fd ∈ fds, s.armed fd = true then
        some { s with events := fds.filterMap fun fd => (s.net fd).map Entry.ud, net := disarm s.net fds }
      else none
    | _, _ => none
  | .result r =>
    match s.turn, s.events with
    | .take, t :: rest =>
      if (s.io t).possible r then
        some { s with
          io := update s.io t ((s.io t).handle r).1
          events := rest
          turn := ((s.io t).handle r).2.turn t }
      else none
    | _, _ => none
  | .turn =>
    match s.turn with
    | .take => none
    | .rearm t => some { s with net := netpollMod s.net (s.io t).fd (s.io t).op.events t, turn := .take }
    | .del t => some { s with net := netpollDel s.net (s.io t).fd, turn := .finish t }
    | .finish t =>
      some { s with
        io := update s.io t { s.io t with ioDone := true }
        ready := s.ready ++ [t]
        turn := .take }

def noIo : Io := ⟨-1, .accept, 0, 0, 0, 0, false⟩

def start : State T := ⟨fun _ => none, fun _ => noIo, fun _ => .idle, [], .take, []⟩

def machine (T : Type) [DecidableEq T] : Machine (State T) (Act T) := ⟨fun s => s = start, step⟩

end Machines

end Picasso.Net
