import Picasso.Gc.RootList

namespace Picasso.Sched.WaitRing

open Lib.Transition Lib.Ring Gc Gc.RootList Function List

/-- The wait queue of a thread with its nodes and the tasks; the null pointer is
0. `members` are the tasks pushed and not yet removed, the last one first. -/
structure State (T : Type) where
  head : Nat
  fd : Nat → Nat
  bk : Nat → Nat
  task : Nat → Option T
  wq : T → Nat
  allocated : Nat → Bool
  members : List T

inductive Act (T : Type)
  | push (t : T) (n : Nat)
  | remove (t : T)

variable {T : Type} {s : State T} {t : T} {n : Nat} {l : List Nat}

def State.link (s : State T) (n : Nat) : State T :=
  if s.head = 0 then { s with fd := update s.fd n n, bk := update s.bk n n, head := n }
  else
    let bk := update s.bk n (s.bk s.head)
    { s with
      fd := update (update s.fd n s.head) (bk s.head) n
      bk := update bk s.head n
      head := n }

def State.unlink (s : State T) (n : Nat) : State T :=
  if s.fd n = n then { s with head := 0 }
  else
    let bk := update s.bk (s.fd n) (s.bk n)
    let fd := update s.fd (bk n) (s.fd n)
    { s with fd := fd, bk := bk, head := if s.head = n then fd n else s.head }

/-- The queue as a list of roots, which is linked in the same way. -/
def State.roots (s : State T) : Roots.State Empty T :=
  { Roots.init with
    head := s.head, fd := s.fd, bk := s.bk, task := s.task, gcq := s.wq, allocated := s.allocated, registered := s.members }

open State

theorem link_roots : { s.link n with members := t :: s.members }.roots = s.roots.insert t n := by
  by_cases hz : s.head = 0
  · rw [link, if_pos hz]
    exact (if_pos hz).symm
  · rw [link, if_neg hz]
    exact (if_neg hz).symm

theorem link_wq : (s.link n).wq = s.wq := by
  rw [link]
  split <;> rfl

theorem unlink_wq : (s.unlink n).wq = s.wq := by
  rw [unlink]
  split <;> rfl

structure Inv (s : State T) : Prop where
  shape : ∃ l, Shape s.roots l
  out : ∀ t ∉ s.members, s.wq t = 0

variable [DecidableEq T]

def State.place (s : State T) (t : T) (n : Nat) : State T :=
  { s with
    task := update s.task n (some t)
    wq := update s.wq t n
    allocated := update s.allocated n true }

def State.discard (s : State T) (t : T) (n : Nat) : State T :=
  { s with
    fd := update s.fd n 0
    bk := update s.bk n 0
    wq := update s.wq t 0
    allocated := update s.allocated n false }

def unsafeIoqPush (s : State T) (t : T) (n : Nat) : State T := (s.place t n).link n

def unsafeIoqRemove (s : State T) (t : T) : Bool × State T :=
  let n := s.wq t
  if n = 0 ∨ s.head = 0 then (false, s) else (true, (s.unlink n).discard t n)

/-- A task that is not in the queue is pushed with a node that the arena has not
handed out; any task may be removed. -/
def step (s : State T) : Act T → Option (State T)
  | .push t n =>
    if t ∉ s.members ∧ n ≠ 0 ∧ s.allocated n = false then some { unsafeIoqPush s t n with members := t :: s.members } else none
  | .remove t => some { (unsafeIoqRemove s t).2 with members := s.members.erase t }

def machine (T : Type) [DecidableEq T] : Machine (State T) (Act T) where
  init s := s.head = 0 ∧ (∀ t, s.wq t = 0) ∧ s.members = []
  step := step

theorem unlink_shape (hl : Shape s.roots l) (ht : t ∈ s.members) :
    ∃ l', Shape { s.unlink (s.wq t) with members := s.members.erase t }.roots l' ∧ s.wq t ∉ l' := by
  obtain ⟨hmem, htask⟩ : s.wq t ∈ l ∧ s.task (s.wq t) = some t := hl.gcq_mem ht
  rw [unlink]
  rcases Nat.lt_or_ge l.length 2 with hlt | hlen
  · -- the only node is its own neighbour, and the queue is empty without it
    obtain ⟨m, rfl⟩ := List.length_eq_one_iff.mp (Nat.le_antisymm (Nat.le_of_lt_succ hlt) (length_pos_of_mem hmem))
    obtain rfl : s.wq t = m := mem_singleton.mp hmem
    have htasks : [s.task (s.wq t)] = s.members.map some := hl.tasks
    rw [htask] at htasks
    have hone : s.members = [t] := by simpa using htasks.symm
    rw [if_pos (show s.fd (s.wq t) = s.wq t from hl.circle.2.1)]
    exact ⟨[], ⟨trivial, rfl, by simp [roots, hone], by simp [roots, hone], by simp⟩, by simp⟩
  · have hself : s.fd (s.wq t) ≠ s.wq t := (hl.circle.neighbours_ne hmem hlen).1
    rw [if_neg hself]
    obtain ⟨l', hl', hout, -⟩ := hl.splice rfl ht (by rwa [← hl.length_eq])
    exact ⟨l', hl', hout⟩

section Steps

variable (hI : Inv s)

include hI

theorem push_inv (ht : t ∉ s.members) (h0 : n ≠ 0) (hfree : s.allocated n = false) :
    Inv { unsafeIoqPush s t n with members := t :: s.members } := by
  obtain ⟨l, hl⟩ := hI.shape
  have hn : n ∉ l := by
    intro hm
    have hheld : s.allocated n = true := (hl.held n hm).2.1
    simp [hfree] at hheld
  have hplace : Shape (s.place t n).roots l := by
    refine hl.aside hn ht rfl rfl (fun m hm => ?_) fun u hu => ?_
    · simp [roots, place, hm]
    · simp [roots, place, hu]
  refine ⟨⟨n :: l, ?_⟩, fun u hu => ?_⟩
  · refine link_roots (s := s.place t n) ▸ hplace.insert hn h0 ?_ ?_ ?_ ht <;> simp [roots, place]
  · simp only [mem_cons, not_or] at hu
    simp [unsafeIoqPush, link_wq, place, hu.1, hI.out u hu.2]

theorem remove_fst (t : T) : (unsafeIoqRemove s t).1 = true ↔ t ∈ s.members := by
  obtain ⟨l, hl⟩ := hI.shape
  rw [unsafeIoqRemove]
  constructor
  · intro h
    by_contra ht
    simp [hI.out t ht] at h
  · intro ht
    have hmem : s.wq t ∈ l := (hl.gcq_mem ht).1
    have hhead : s.head ≠ 0 := hl.head_ne (ne_nil_of_mem hmem)
    simp [(hl.held _ hmem).1, hhead]

theorem remove_inv (t : T) : Inv { (unsafeIoqRemove s t).2 with members := s.members.erase t } := by
  by_cases ht : t ∈ s.members
  · -- the node leaves the circle with its task, and only then is it given back
    have hfound := (remove_fst hI t).mpr ht
    obtain ⟨l, hl⟩ := hI.shape
    obtain ⟨l', hl', hout⟩ := unlink_shape hl ht
    rw [unsafeIoqRemove] at hfound ⊢
    split at hfound
    · cases hfound
    next hn =>
    rw [if_neg hn]
    refine ⟨⟨l', hl'.aside hout hl.nodup.not_mem_erase rfl rfl (fun m hm => ?_) fun u hu => ?_⟩, fun u hu => ?_⟩
    · simp [roots, State.discard, hm]
    · simp [roots, State.discard, hu]
    · by_cases hut : u = t
      · simp [State.discard, hut]
      · have hum : u ∉ s.members := fun hm => hu ((mem_erase_of_ne hut).mpr hm)
        simp [State.discard, hut, unlink_wq, hI.out u hum]
  · rw [unsafeIoqRemove, if_pos (.inl (hI.out t ht)), erase_of_not_mem ht]
    exact hI

end Steps

theorem reachable_inv (h : Reachable (machine T) s) : Inv s := by
  refine Run.invariant (I := Inv) ?_ ?_ h
  · rintro s ⟨hhead, hwq, hmembers⟩
    refine ⟨⟨[], trivial, hhead, ?_, ?_, by simp⟩, fun t _ => hwq t⟩ <;> simp [roots, hmembers]
  · intro s a s' hI _ hs
    cases a with
    | push t n =>
      obtain ⟨⟨ht, h0, hfree⟩, hs⟩ := Option.ite_none_right_eq_some.mp hs
      cases hs
      exact push_inv hI ht h0 hfree
    | remove t =>
      cases hs
      exact remove_inv hI t

/-- The queue is a circle of the nodes of its members, and a task is removed
exactly if it is a member. -/
theorem wait_ring (h : Reachable (machine T) s) :
    (∃ l : List Nat, Circle s.fd s.bk l ∧ 0 ∉ l ∧ s.head = l.headD 0 ∧ l.map s.task = s.members.map some ∧
      ∀ t ∈ s.members, s.wq t ∈ l ∧ s.task (s.wq t) = some t) ∧
    s.members.Nodup ∧ (s.head = 0 ↔ s.members = []) ∧ ∀ t, (unsafeIoqRemove s t).1 = true ↔ t ∈ s.members := by
  have hI := reachable_inv h
  obtain ⟨l, hl⟩ := hI.shape
  refine ⟨⟨l, hl.circle, fun h0 => (hl.held 0 h0).1 rfl, hl.head, hl.tasks, fun t => hl.gcq_mem⟩, hl.nodup, ?_, remove_fst hI⟩
  have hlen : l.length = s.members.length := hl.length_eq
  rw [← List.length_eq_zero_iff, ← hlen, List.length_eq_zero_iff]
  refine ⟨fun hhead => ?_, fun hnil => hl.head.trans (by rw [hnil]; rfl)⟩
  by_contra hne
  exact hl.head_ne hne hhead

/-- Of three tasks the one in the middle is removed, and then again. -/
theorem wait_ring_three : ∃ s : State (Fin 3), Reachable (machine (Fin 3)) s ∧ s.members = [2, 0] ∧
    (unsafeIoqRemove s 1).1 = false ∧ (unsafeIoqRemove s 2).1 = true := by
  have hx : (walk (machine (Fin 3)) [.push 0 16, .push 1 48, .push 2 80, .remove 1]
      ⟨0, id, id, fun _ => none, fun _ => 0, fun _ => false, []⟩).map State.members = some [2, 0] := by decide
  obtain ⟨s, hr, he⟩ := exec_reads hx (.init ⟨rfl, fun _ => rfl, rfl⟩)
  obtain ⟨-, -, -, hremove⟩ := wait_ring hr
  refine ⟨s, hr, he, ?_, (hremove 2).mpr (by simp [he])⟩
  rw [← Bool.not_eq_true, hremove, he]
  decide

end Picasso.Sched.WaitRing
