import Picasso.Lib.Transition
import Mathlib.Data.List.Nodup

namespace Picasso.Sched.TaskQueue

open Lib.Transition List Function

variable {T τ : Type} [DecidableEq T]

/-- The queue with its nodes and its condition variable: `woken` are the threads
that are to lock again. A task is `none` for `NULL`. The logs `pushed` and
`popped` are of the sections under the lock. -/
structure State (T τ : Type) where
  head : Option Nat
  tail : Option Nat
  next : Nat → Option Nat
  task : Nat → Option τ
  live : List Nat
  waiting : List T
  woken : List T
  result : T → Option τ
  pushed : List (Option τ)
  popped : List (Option τ)

inductive Act (T τ : Type)
  | push (t : Option τ) (n : Nat) (signalled : Option T)
  | pop (u : T)
  | popWait (u : T)
  | wake (u : T)
  | relock (u : T)

/-- A new node behind the last one. It is out of reach of the other threads
before the section, so that it is made here. -/
def State.link (s : State T τ) (t : Option τ) (n : Nat) : State T τ :=
  { s with
    head := if s.tail = none then some n else s.head
    tail := some n
    next := match s.tail with
      | none => update s.next n none
      | some l => update (update s.next n none) l (some n)
    task := update s.task n t
    live := n :: s.live
    pushed := s.pushed ++ [t] }

/-- `pthread_cond_signal` and a spurious wake-up. -/
def State.wake (s : State T τ) (v : T) : Option (State T τ) :=
  if v ∈ s.waiting then some { s with waiting := s.waiting.erase v, woken := v :: s.woken } else none

/-- The first node is taken out, its task is read and it is released. -/
def State.unlink (s : State T τ) (u : T) (n : Nat) : State T τ :=
  { s with
    head := s.next n
    tail := if s.next n = none then none else s.tail
    live := s.live.erase n
    result := update s.result u (s.task n)
    popped := s.popped ++ [s.task n] }

def State.popOr (s : State T τ) (u : T) (empty : State T τ) : State T τ :=
  match s.head with
  | none => empty
  | some n => s.unlink u n

def State.popWait (s : State T τ) (u : T) : State T τ := s.popOr u { s with waiting := u :: s.waiting }

def step (s : State T τ) : Act T τ → Option (State T τ)
  | .push t n signalled =>
    if n ∉ s.live then
      match signalled with
      | none => if s.waiting = [] then some (s.link t n) else none
      | some v => (s.link t n).wake v
    else none
  | .pop u =>
    if u ∉ s.waiting ++ s.woken then some (s.popOr u { s with result := update s.result u none }) else none
  | .popWait u => if u ∉ s.waiting ++ s.woken then some (s.popWait u) else none
  | .wake u => s.wake u
  | .relock u => if u ∈ s.woken then some (State.popWait { s with woken := s.woken.erase u } u) else none

def machine (T τ : Type) [DecidableEq T] : Machine (State T τ) (Act T τ) where
  init s := s.head = none ∧ s.tail = none ∧ s.waiting = [] ∧ s.pushed = [] ∧ s.popped = []
  step := step

def Links (next : Nat → Option Nat) : Option Nat → List Nat → Prop
  | h, [] => h = none
  | h, n :: ns => h = some n ∧ Links next (next n) ns

/-- The queue is the list of the nodes `ns`. -/
structure Queue (s : State T τ) (ns : List Nat) : Prop where
  links : Links s.next s.head ns
  tail : s.tail = ns.getLast?
  nodup : ns.Nodup
  live : ∀ n ∈ ns, n ∈ s.live
  log : s.popped ++ ns.map s.task = s.pushed

/-- While a thread waits there is a woken one for each task. -/
structure Inv (s : State T τ) (ns : List Nat) : Prop extends Queue s ns where
  served : s.waiting ≠ [] → ns.length ≤ s.woken.length

section Lists

variable {next next' : Nat → Option Nat} {h : Option Nat} {n l : Nat} {ns : List Nat}

theorem Links.congr (hl : Links next h ns) (hn : ∀ n ∈ ns, next' n = next n) : Links next' h ns := by
  induction ns generalizing h with
  | nil => exact hl
  | cons m ns ih =>
    refine ⟨hl.1, ?_⟩
    rw [hn m mem_cons_self]
    exact ih hl.2 fun n h => hn n (mem_cons_of_mem _ h)

theorem Links.append (hl : Links next h (ns ++ [l])) (hnodup : (ns ++ [l]).Nodup) (hn : n ≠ l) (hnext : next n = none) :
    Links (update next l (some n)) h (ns ++ [l] ++ [n]) := by
  induction ns generalizing h with
  | nil => exact ⟨hl.1, by simp, by simp [update_of_ne hn, hnext, Links]⟩
  | cons m ns ih =>
    obtain ⟨hm, hnodup⟩ := nodup_cons.mp hnodup
    have hne : m ≠ l := by
      rintro rfl
      exact hm (by simp)
    refine ⟨hl.1, ?_⟩
    rw [update_of_ne hne]
    exact ih hl.2 hnodup

end Lists

section Steps

variable {s s' : State T τ} {ns : List Nat} {u : T} {n : Nat} {t : Option τ}

omit [DecidableEq T] in
theorem Queue.link (h : Queue s ns) (hn : n ∉ s.live) : Queue (s.link t n) (ns ++ [n]) := by
  have hne : ∀ m ∈ ns, m ≠ n := fun m hm heq => hn (heq ▸ h.live m hm)
  have htask : ns.map (update s.task n t) = ns.map s.task :=
    map_congr_left fun m hm => update_of_ne (hne m hm) _ _
  have hlinks : Links (update s.next n none) s.head ns :=
    h.links.congr fun m hm => update_of_ne (hne m hm) _ _
  refine ⟨?_, by simp [State.link], ?_, ?_, ?_⟩
  · rcases eq_nil_or_concat' ns with rfl | ⟨ns, l, rfl⟩
    · have htail : s.tail = none := h.tail
      simp [State.link, htail, Links]
    · have htail : s.tail = some l := by rw [h.tail, getLast?_concat]
      simp only [State.link, htail]
      exact hlinks.append h.nodup (fun he => hne l (by simp) he.symm) (update_self _ _ _)
  · exact nodup_append.mpr ⟨h.nodup, nodup_singleton n, by simpa using hne⟩
  · intro m hm
    rcases mem_append.mp hm with hm | hm
    · exact mem_cons_of_mem _ (h.live m hm)
    · exact mem_singleton.mp hm ▸ mem_cons_self
  · simp only [State.link, map_append, htask, map_singleton, update_self]
    rw [← append_assoc, h.log]

theorem Queue.unlink (h : Queue s (n :: ns)) : Queue (s.unlink u n) ns := by
  obtain ⟨hn, hnodup⟩ := nodup_cons.mp h.nodup
  refine ⟨h.links.2, ?_, hnodup, fun m hm => ?_, (append_assoc ..).trans h.log⟩
  · have hnext := h.links.2
    have htail := h.tail
    cases ns with
    | nil => simp [State.unlink, show s.next n = none from hnext]
    | cons m ns => simpa [State.unlink, hnext.1] using htail
  · have hne : m ≠ n := by
      rintro rfl
      exact hn hm
    exact (mem_erase_of_ne hne).mpr (h.live m (mem_cons_of_mem _ hm))

section Served

variable (h : Queue s ns) (hlen : s.waiting ≠ [] → ns.length ≤ s.woken.length + 1)

include h hlen

theorem wake_inv {v : T} (hs : s.wake v = some s') : Inv s' ns := by
  rw [State.wake] at hs
  split at hs
  · next hv =>
    cases hs
    exact { h with served := fun _ => hlen (ne_nil_of_mem hv) }
  · cases hs

theorem popOr_inv {empty : State T τ} (hempty : ns = [] → Inv empty []) : ∃ ns', Inv (s.popOr u empty) ns' := by
  rw [State.popOr]
  cases ns with
  | nil =>
    rw [show s.head = none from h.links]
    exact ⟨[], hempty rfl⟩
  | cons n ns =>
    rw [h.links.1]
    exact ⟨ns, { h.unlink with served := fun hw => Nat.le_of_succ_le_succ (hlen hw) }⟩

theorem popWait_inv : ∃ ns', Inv (s.popWait u) ns' := by
  refine popOr_inv h hlen fun hns => ?_
  subst hns
  exact { h with served := fun _ => Nat.zero_le _ }

end Served

theorem step_inv {a : Act T τ} (h : Inv s ns) (hs : step s a = some s') : ∃ ns', Inv s' ns' := by
  have hlen : s.waiting ≠ [] → ns.length ≤ s.woken.length + 1 := fun hw => Nat.le_succ_of_le (h.served hw)
  cases a with
  | push t n signalled =>
    simp only [step] at hs
    split at hs
    · next hn =>
      refine ⟨ns ++ [n], ?_⟩
      cases signalled with
      | none =>
        dsimp only at hs
        split at hs
        · next hw =>
          cases hs
          exact { h.toQueue.link hn with served := fun hne => absurd hw hne }
        · cases hs
      | some v =>
        refine wake_inv (h.toQueue.link hn) (fun hw => ?_) hs
        rw [length_append]
        exact Nat.succ_le_succ (h.served hw)
    · cases hs
  | pop u =>
    simp only [step] at hs
    split at hs <;> cases hs
    exact popOr_inv h.toQueue hlen fun hns => by subst hns; exact { h with }
  | popWait u =>
    simp only [step] at hs
    split at hs <;> cases hs
    exact popWait_inv h.toQueue hlen
  | wake u => exact ⟨ns, wake_inv h.toQueue hlen hs⟩
  | relock u =>
    simp only [step] at hs
    split at hs <;> cases hs
    next hu =>
    refine popWait_inv (s := { s with woken := s.woken.erase u }) { h.toQueue with } fun hw => ?_
    have hpos := length_pos_of_mem hu
    have := h.served hw
    show ns.length ≤ (s.woken.erase u).length + 1
    rw [length_erase_of_mem hu]
    omega

end Steps

section Fifo

variable {s s' : State T τ} {u : T}

theorem inv_reachable (h : Reachable (machine T τ) s) : ∃ ns, Inv s ns := by
  refine h.invariant (I := fun s => ∃ ns, Inv s ns) ?_ fun s a s' ⟨ns, hns⟩ _ hs => step_inv hns hs
  rintro s ⟨hhead, htail, hwaiting, hpushed, hpopped⟩
  exact ⟨[], ⟨hhead, htail, nodup_nil, by simp, by simp [hpushed, hpopped]⟩, fun hw => absurd hwaiting hw⟩

/-- The sections take out what they have put in, in this order. -/
theorem task_queue_fifo (h : Reachable (machine T τ) s) :
    (∃ ns, Links s.next s.head ns ∧ s.tail = ns.getLast? ∧ s.popped ++ ns.map s.task = s.pushed) ∧
      (∀ u s', step s (.pop u) = some s' → s'.result u = none → s.popped = s.pushed ∨ ∃ l, s.popped ++ none :: l = s.pushed) ∧
      (s.waiting ≠ [] → s.popped ≠ s.pushed → s.woken ≠ []) := by
  obtain ⟨ns, hns⟩ := inv_reachable h
  refine ⟨⟨ns, hns.links, hns.tail, hns.log⟩, fun u s' hs hnull => ?_, fun hw hne => ?_⟩
  · have hlinks := hns.links
    have hlog := hns.log
    simp only [step] at hs
    split at hs <;> cases hs
    cases ns with
    | nil => exact .inl (by simpa using hlog)
    | cons n ns =>
      rw [State.popOr, hlinks.1] at hnull
      refine .inr ⟨ns.map s.task, ?_⟩
      rw [← hlog, map_cons, show s.task n = none by simpa [State.unlink] using hnull]
  · have hlen := hns.served hw
    rintro hwoken
    rw [hwoken, length_nil, Nat.le_zero, length_eq_zero_iff] at hlen
    exact hne (by simpa [hlen] using hns.log)

def start : State Nat Nat := ⟨none, none, fun _ => none, fun _ => none, [], [], [], fun _ => none, [], []⟩

/-- Two threads wait and a task is pushed. -/
theorem task_queue_fifo_waits : ∃ s : State Nat Nat, s.waiting = [0] ∧ s.pushed = [some 7] ∧ s.woken ≠ [] := by
  have hx : (walk (machine Nat Nat) [.popWait 0, .popWait 1, .push (some 7) 64 (some 1)] start).map
      (fun s => (s.waiting, s.popped, s.pushed)) = some ([0], [], [some 7]) := by decide
  obtain ⟨s, hr, he⟩ := exec_reads hx (.init ⟨rfl, rfl, rfl, rfl, rfl⟩)
  simp only [Prod.mk.injEq] at he
  refine ⟨s, he.1, he.2.2, (task_queue_fifo hr).2.2 ?_ ?_⟩
  · simp [he.1]
  · simp [he.2]

end Fifo

end Picasso.Sched.TaskQueue
