import Picasso.Lib.Transition
import Picasso.Lib.Parties
import Mathlib.Tactic.SplitIfs

namespace Picasso.Sync.WaitGroup

open Lib.Transition Lib Function Int64

variable {T : Type} [DecidableEq T]

/-- The point a task has reached inside `sync_waitgroup_add` or
`sync_waitgroup_wait`, named after the atomic operation that comes next. -/
inductive Pc (T : Type)
  | idle
  | addFetch (delta : Int64)
  | aborted
  | drainAcquire
  | drainPop
  | drainPush (w : T)
  | drainRelease
  | waitLoad
  | waitAcquire
  | waitRecheck
  | waitReturn
  | waitPush
  | waitRelease
  | waitYield
  | asleep
  deriving DecidableEq

/-- One wait group and the tasks that use it; `ready` joins the ready queues
of all kernel threads. -/
structure State (T : Type) where
  count : Int64
  lock : Option T
  waiters : List T
  ready : List T
  pc : T → Pc T

inductive Act (T : Type)
  | add (t : T) (delta : Int64)
  | done (t : T)
  | wait (t : T)
  | step (t : T)

def Act.task : Act T → T
  | .add t _ | .done t | .wait t | .step t => t

@[simp] def State.goto (s : State T) (t : T) (p : Pc T) : State T := { s with pc := update s.pc t p }

/-- Where `sync_waitgroup_add` goes on with the new count: a negative one
fails the assertion. -/
def afterFetch (count delta : Int64) : Pc T :=
  if count < 0 then .aborted else if count = 0 ∧ delta < 0 then .drainAcquire else .idle

def advance (s : State T) (t : T) : Option (State T) :=
  match s.pc t with
  | .idle | .aborted => none
  | .addFetch delta => some { s.goto t (afterFetch (s.count + delta) delta) with count := s.count + delta }
  | .drainAcquire => if s.lock = none then some { s.goto t .drainPop with lock := some t } else none
  | .drainPop => match s.waiters with
    | [] => some (s.goto t .drainRelease)
    | w :: ws => some { s.goto t (.drainPush w) with waiters := ws }
  | .drainPush w => some { s.goto t .drainPop with ready := s.ready ++ [w] }
  | .drainRelease => some { s.goto t .idle with lock := none }
  | .waitLoad => some (s.goto t (if s.count = 0 then .idle else .waitAcquire))
  | .waitAcquire => if s.lock = none then some { s.goto t .waitRecheck with lock := some t } else none
  | .waitRecheck => some (s.goto t (if s.count = 0 then .waitReturn else .waitPush))
  | .waitReturn => some { s.goto t .idle with lock := none }
  | .waitPush => some { s.goto t .waitRelease with waiters := s.waiters ++ [t] }
  | .waitRelease => some { s.goto t .waitYield with lock := none }
  | .waitYield => some (s.goto t .asleep)
  -- the scheduler resumes a task that a drain has put into a ready queue
  | .asleep => if t ∈ s.ready then some { s.goto t .waitLoad with ready := s.ready.erase t } else none

def step (s : State T) : Act T → Option (State T)
  | .add t delta => if s.pc t = .idle then some (s.goto t (.addFetch delta)) else none
  | .done t => if s.pc t = .idle then some (s.goto t (.addFetch (-1))) else none
  | .wait t => if s.pc t = .idle then some (s.goto t .waitLoad) else none
  | .step t => advance s t

def create : State T := ⟨0, none, [], [], fun _ => .idle⟩

def machine (T : Type) [DecidableEq T] : Machine (State T) (Act T) := ⟨fun s => s = create, step⟩

/-- The step does not drive the counter negative. -/
def KeepsCount (s : State T) (a : Act T) : Prop := ∀ s', step s a = some s' → 0 ≤ s'.count

instance (s : State T) (a : Act T) : Decidable (KeepsCount s a) :=
  match h : step s a with
  | none => isTrue fun _ h' => by simp [h] at h'
  | some s' => decidable_of_iff (0 ≤ s'.count)
      ⟨fun hs _ h' => by rw [h] at h'; cases h'; exact hs, fun hk => hk s' h⟩

section Wakeup

/-- The task has decremented the counter to zero and has not seen the queue of
the waiters empty since. -/
@[simp] def draining : Pc T → Bool
  | .drainAcquire | .drainPop | .drainPush _ => true
  | _ => false

@[simp] def locked : Pc T → Bool
  | .drainPop | .drainPush _ | .drainRelease => true
  | .waitRecheck | .waitReturn | .waitPush | .waitRelease => true
  | _ => false

@[simp] def inside (s : State T) (t : T) : Bool := locked (s.pc t)

/-- The counter has still to come down to zero, or a drain is under way. -/
def Attended (s : State T) : Prop := s.count ≠ 0 ∨ ∃ t, draining (s.pc t) = true

structure Inv (s : State T) : Prop where
  count : 0 ≤ s.count
  guarded : Lock.Guarded s.lock (inside s)
  queued : s.waiters ≠ [] → Attended s
  queueing : ∀ t, s.pc t = .waitPush → Attended s

theorem add_eq_zero {c d : Int64} (hc : 0 ≤ c) (hd : 0 ≤ d) (h : c + d = 0) : c = 0 := by
  have hs := congrArg toInt h
  rw [toInt_add, toInt_zero] at hs
  rw [le_iff_toInt_le, toInt_zero] at hc hd
  have hlc := c.toInt_lt
  have hld := d.toInt_lt
  have hdvd := Int.dvd_of_bmod_eq_zero hs
  apply Int64.toInt_inj.mp
  rw [toInt_zero]
  omega

variable {s s' : State T} {t : T}

theorem advance_other {u : T} (h : advance s t = some s') (hu : u ≠ t) : s'.pc u = s.pc u := by
  cases hp : s.pc t <;> simp only [advance, hp] at h <;> try split at h
  all_goals cases h
  all_goals simp [hu]

theorem advance_lock (h : advance s t = some s') : Lock.Effect s.lock s'.lock (inside s) (inside s') t := by
  cases hp : s.pc t with
  | drainAcquire | waitAcquire =>
    simp only [advance, hp] at h
    split at h
    · next hf => cases h; exact .acquire hf rfl
    · cases h
  | drainRelease | waitReturn | waitRelease =>
    simp only [advance, hp] at h
    cases h
    exact .release (by simp [hp]) (by simp)
  | idle | aborted | drainPop | drainPush | waitPush | waitYield | asleep =>
    simp only [advance, hp] at h
    try split at h
    all_goals cases h
    all_goals refine .keep ?_ ?_ <;> simp [hp]
  | addFetch | waitLoad | waitRecheck =>
    simp only [advance, hp, afterFetch] at h
    cases h
    refine .keep rfl ?_
    simp only [inside, State.goto, update_self, hp]
    split_ifs <;> rfl

/-- What a step of `t` can do to the counter and to the waiters, and how it
bears on the tasks that look after them. -/
inductive Effect (s s' : State T) (t : T) : Prop
  | quiet (hc : s'.count = s.count) (hw : s'.waiters = s.waiters) (hp : s'.pc t ≠ .waitPush)
      (hd : draining (s.pc t) = true → draining (s'.pc t) = true)
  | fetch (hw : s'.waiters = s.waiters) (hp : draining (s.pc t) = false) (hp' : s'.pc t ≠ .waitPush)
      (hz : s'.count = 0 → 0 ≤ s.count → s.count = 0 ∨ draining (s'.pc t) = true)
  | recheck (hc : s'.count = s.count) (h0 : s.count ≠ 0)
  | push (hc : s'.count = s.count) (hp : s.pc t = .waitPush)
  | pop (hp' : draining (s'.pc t) = true)
  | finish (hp : inside s t = true) (hp' : s'.pc t ≠ .waitPush) (hw : s'.waiters = [])

omit [DecidableEq T] in
theorem fetch_zero {c d : Int64} (h0 : c + d = 0) (hc : 0 ≤ c) :
    c = 0 ∨ draining (afterFetch (c + d) d : Pc T) = true := by
  by_cases hd : d < 0
  · right
    simp [afterFetch, h0, hd]
  · exact .inl (add_eq_zero hc (Int64.not_lt.mp hd) h0)

theorem advance_effect (h : advance s t = some s') : Effect s s' t := by
  cases hp : s.pc t with
  | addFetch d =>
    simp only [advance, hp] at h
    cases h
    refine .fetch rfl (by rw [hp]; rfl) ?_ ?_
    · simp only [State.goto, update_self, afterFetch]
      split_ifs <;> simp
    · simp only [State.goto, update_self]
      exact fetch_zero
  | drainPop =>
    simp only [advance, hp] at h
    split at h <;> cases h
    · next hw => exact .finish (by simp [hp]) (by simp) hw
    · exact .pop (by simp)
  | waitRecheck =>
    simp only [advance, hp] at h
    cases h
    by_cases h0 : s.count = 0
    · exact .quiet rfl rfl (by simp [h0]) (by simp [hp])
    · exact .recheck rfl h0
  | waitPush =>
    simp only [advance, hp] at h
    cases h
    exact .push rfl hp
  | waitLoad =>
    simp only [advance, hp] at h
    cases h
    refine .quiet rfl rfl ?_ (by simp [hp])
    simp only [State.goto, update_self]
    split_ifs <;> simp
  | idle | aborted | drainAcquire | drainPush | drainRelease | waitAcquire | waitReturn | waitRelease | waitYield
  | asleep =>
    simp only [advance, hp] at h
    try split at h
    all_goals cases h
    all_goals refine .quiet rfl rfl ?_ ?_ <;> simp [hp]

structure Moved (s s' : State T) (t : T) : Prop where
  other : ∀ u, u ≠ t → s'.pc u = s.pc u
  lock : Lock.Effect s.lock s'.lock (inside s) (inside s') t
  effect : Effect s s' t

theorem goto_moved {p : Pc T} (h : s.pc t = .idle) (hl : locked p = false) (hp : p ≠ .waitPush) :
    Moved s (s.goto t p) t :=
  ⟨fun u hu => by simp [hu], .keep rfl (by simp [h, hl, -locked]; rfl),
    .quiet rfl rfl (by simpa using hp) (by simp [h])⟩

theorem step_moved {a : Act T} (h : step s a = some s') : Moved s s' a.task := by
  cases a with
  | add t d | done t | wait t =>
    simp only [step] at h
    split at h <;> cases h
    next hp => exact goto_moved hp rfl (by simp)
  | step t => exact ⟨fun u => advance_other h, advance_lock h, advance_effect h⟩

theorem Attended.of_same (h : Attended s) (hc : s'.count = s.count) (ho : ∀ u, u ≠ t → s'.pc u = s.pc u)
    (hd : draining (s.pc t) = true → draining (s'.pc t) = true) : Attended s' := by
  rcases h with h | ⟨u, hu⟩
  · exact .inl (hc ▸ h)
  · right
    by_cases hut : u = t
    · exact ⟨t, hd (hut ▸ hu)⟩
    · exact ⟨u, by rw [ho u hut, hu]⟩

omit [DecidableEq T] in
/-- A fetch leaves the waiters attended: it either leaves the counter other
than zero or takes the drain upon itself. -/
theorem Attended.of_fetch (h : Attended s) (hp : draining (s.pc t) = false)
    (hz : s'.count = 0 → s.count = 0 ∨ draining (s'.pc t) = true) (ho : ∀ u, u ≠ t → s'.pc u = s.pc u) :
    Attended s' := by
  by_cases h0 : s'.count = 0
  · rcases hz h0 with hs | hd
    · rcases h with h | ⟨u, hu⟩
      · exact absurd hs h
      · refine .inr ⟨u, ?_⟩
        rw [ho u fun e => by simp [← e, hu, -draining] at hp, hu]
    · exact .inr ⟨t, hd⟩
  · exact .inl h0

theorem inv_step {a : Act T} (hI : Inv s) (hok : KeepsCount s a) (hs : step s a = some s') : Inv s' := by
  have hm := step_moved hs
  have hg : Lock.Guarded s'.lock (inside s') := by
    refine hI.guarded.step hm.lock fun u hu => ?_
    rw [inside, inside, hm.other u hu]
  -- a task other than the one that moves has not come to its push just now
  have hpush {u : T} (hu : s'.pc u = .waitPush) (hn : s'.pc a.task ≠ .waitPush) : u ≠ a.task ∧ s.pc u = .waitPush := by
    have hne : u ≠ a.task := fun e => hn (e ▸ hu)
    exact ⟨hne, hm.other u hne ▸ hu⟩
  cases hm.effect with
  | quiet hc hw hp hd =>
    have keep (h : Attended s) : Attended s' := h.of_same hc hm.other hd
    exact ⟨hok s' hs, hg, fun hne => keep (hI.queued (hw ▸ hne)), fun u hu => keep (hI.queueing u (hpush hu hp).2)⟩
  | fetch hw hp hp' hz =>
    have keep (h : Attended s) : Attended s' :=
      h.of_fetch hp (fun h0 => hz h0 hI.count) hm.other
    exact ⟨hok s' hs, hg, fun hne => keep (hI.queued (hw ▸ hne)), fun u hu => keep (hI.queueing u (hpush hu hp').2)⟩
  | recheck hc h0 =>
    have hA : Attended s' := .inl (hc ▸ h0)
    exact ⟨hok s' hs, hg, fun _ => hA, fun _ _ => hA⟩
  | push hc hp =>
    have hA : Attended s' := (hI.queueing _ hp).of_same hc hm.other (by simp [hp])
    exact ⟨hok s' hs, hg, fun _ => hA, fun _ _ => hA⟩
  | pop hd =>
    have hA : Attended s' := .inr ⟨_, hd⟩
    exact ⟨hok s' hs, hg, fun _ => hA, fun _ _ => hA⟩
  | finish hp hp' hw =>
    refine ⟨hok s' hs, hg, fun hne => absurd hw hne, fun u hu => ?_⟩
    -- the lock keeps everybody else away from the push
    obtain ⟨hne, hu⟩ := hpush hu hp'
    have hin : inside s u = true := by simp [hu]
    exact absurd (hI.guarded.unique hin hp) hne

theorem run_inv (h : Run (machine T) KeepsCount s) : Inv s := by
  refine h.invariant ?_ fun s a s' => inv_step
  rintro s rfl
  refine ⟨by simp [create], ?_, ?_, ?_⟩ <;> simp [create, Lock.Guarded]

end Wakeup

section Returns

/-- The wait group with the tasks in whose current call of
`sync_waitgroup_wait` the counter has been zero. -/
structure Watched (T : Type) where
  base : State T
  zero : T → Bool

/-- A call of `sync_waitgroup_wait` starts with the counter of its first
moment; afterwards every moment counts. -/
def Watched.note (s : Watched T) (a : Act T) (s' : State T) (t : T) : Bool :=
  match a with
  | .wait u => if t = u then s'.count = 0 else s.zero t || s'.count = 0
  | _ => s.zero t || s'.count = 0

def watch (s : Watched T) (a : Act T) : Option (Watched T) := (step s.base a).map fun s' => ⟨s', s.note a s'⟩

def watched (T : Type) [DecidableEq T] : Machine (Watched T) (Act T) :=
  ⟨fun s => s = ⟨create, fun _ => false⟩, watch⟩

def waiting : Pc T → Bool
  | .waitLoad | .waitAcquire | .waitRecheck | .waitReturn | .waitPush | .waitRelease | .waitYield | .asleep => true
  | _ => false

/-- The step returns from the call of `sync_waitgroup_wait` that `t` is in. -/
def Returns (s s' : State T) (t : T) : Prop := waiting (s.pc t) = true ∧ s'.pc t = .idle

def Noticed (s : Watched T) : Prop :=
  (∀ t, waiting (s.base.pc t) = true → s.base.count = 0 → s.zero t = true) ∧
    ∀ t, s.base.pc t = .waitReturn → s.zero t = true

variable {s : Watched T} {s' : State T} {t : T} {a : Act T}

theorem advance_return {s : State T} (h : advance s t = some s') (hr : Returns s s' t) :
    s.count = 0 ∨ s.pc t = .waitReturn := by
  obtain ⟨hw, hi⟩ := hr
  cases hp : s.pc t <;> simp only [hp, waiting, Bool.false_eq_true] at hw <;> simp only [advance, hp] at h <;>
    try split at h
  all_goals cases h
  all_goals simp_all

theorem advance_waitReturn {s : State T} (h : advance s t = some s') (hp' : s'.pc t = .waitReturn) :
    s.count = 0 ∧ waiting (s.pc t) = true := by
  cases hp : s.pc t <;> simp only [advance, hp, afterFetch] at h <;> try split at h
  all_goals cases h
  all_goals simp only [State.goto, update_self] at hp'
  all_goals try split_ifs at hp'
  all_goals simp_all [waiting]

theorem Watched.note_of_zero (h : s'.count = 0) : s.note a s' t = true := by
  cases a <;> simp [Watched.note, h]

theorem Watched.note_of_seen (h : s.zero t = true) (ha : a ≠ .wait t) : s.note a s' t = true := by
  cases a with
  | add u d | done u | step u => simp [Watched.note, h]
  | wait u =>
    have hne : t ≠ u := fun e => ha (e ▸ rfl)
    simp [Watched.note, hne, h]

theorem step_waitReturn {s : State T} (h : step s a = some s') (hp : s'.pc t = .waitReturn) :
    a ≠ .wait t ∧ (s.pc t = .waitReturn ∨ waiting (s.pc t) = true ∧ s.count = 0) := by
  by_cases ht : t = a.task
  · subst ht
    cases a with
    | add u d | done u | wait u =>
      simp only [step] at h
      split at h <;> cases h
      simp [Act.task] at hp
    | step u =>
      obtain ⟨h0, hw⟩ := advance_waitReturn h hp
      exact ⟨by simp, .inr ⟨hw, h0⟩⟩
  · rw [(step_moved h).other t ht] at hp
    exact ⟨fun e => ht (by rw [e]; rfl), .inl hp⟩

theorem noticed_step {s' : Watched T} (hI : Noticed s) (h : watch s a = some s') : Noticed s' := by
  obtain ⟨b, hb, rfl⟩ := Option.map_eq_some_iff.mp h
  refine ⟨fun t _ h0 => Watched.note_of_zero h0, fun t hp => ?_⟩
  obtain ⟨ha, hr | ⟨hw, h0⟩⟩ := step_waitReturn hb hp
  · exact Watched.note_of_seen (hI.2 t hr) ha
  · exact Watched.note_of_seen (hI.1 t hw h0) ha

theorem run_noticed (h : Reachable (watched T) s) : Noticed s := by
  refine Run.invariant (I := Noticed) ?_ (fun s a s' hI _ hs => noticed_step hI hs) h
  rintro s rfl
  exact ⟨by simp [create, waiting], by simp [create]⟩

theorem step_return {s : State T} (h : step s a = some s') (hr : Returns s s' t) :
    s.count = 0 ∨ s.pc t = .waitReturn := by
  by_cases ht : t = a.task
  · subst ht
    cases a with
    | add u d | done u | wait u =>
      simp only [step] at h
      split at h <;> cases h
      simp [Returns, Act.task] at hr
    | step u => exact advance_return h hr
  · rw [Returns, (step_moved h).other t ht] at hr
    simp [hr.2, waiting] at hr

theorem return_seen {s' : Watched T} (hs : Reachable (watched T) s) (h : watch s a = some s')
    (hr : Returns s.base s'.base t) : s.zero t = true := by
  obtain ⟨b, hb, rfl⟩ := Option.map_eq_some_iff.mp h
  obtain ⟨hz, hw⟩ := run_noticed hs
  rcases step_return hb hr with h0 | hp
  · exact hz t hr.1 h0
  · exact hw t hp

end Returns

/-- The waiters of a wait group are attended to as long as there are any, and a
call of `sync_waitgroup_wait` returns only after the counter has been zero
during it. -/
theorem waitgroup_wakes : (∀ s : State T, Run (machine T) KeepsCount s → s.waiters ≠ [] →
      s.count ≠ 0 ∨ ∃ t, draining (s.pc t) = true) ∧
    ∀ (s s' : Watched T) (a : Act T) (t : T), Reachable (watched T) s → watch s a = some s' →
      Returns s.base s'.base t → s.zero t = true :=
  ⟨fun _ hs hw => (run_inv hs).queued hw, fun _ _ _ _ hs h hr => return_seen hs h hr⟩

def queueing (t u : Fin 2) : List (Act (Fin 2)) :=
  [.add t 1, .step t, .wait u] ++ List.replicate 5 (.step u) ++ [.done t, .step t]

def waking (t u : Fin 2) : List (Act (Fin 2)) := queueing t u ++ List.replicate 3 (.step t) ++ [.step u, .step u]

/-- The counter is back at zero with the drain still ahead, and after the
drain the waiter returns. -/
theorem waitgroup_wakes_queued :
    (∃ s : State (Fin 2), Run (machine (Fin 2)) KeepsCount s ∧ s.waiters = [1] ∧ s.count = 0 ∧
      ∃ t, draining (s.pc t) = true) ∧
    ∃ s s' : Watched (Fin 2), Reachable (watched (Fin 2)) s ∧ watch s (.step 1) = some s' ∧
      Returns s.base s'.base 1 ∧ s.zero 1 = true := by
  constructor
  · have hx : (exec (machine (Fin 2)) KeepsCount (queueing 0 1) create).map (fun s => (s.waiters, s.count)) =
        some ([(1 : Fin 2)], 0) := by decide
    obtain ⟨s, hr, he⟩ := exec_reads hx (.init rfl)
    simp only [Prod.mk.injEq] at he
    refine ⟨s, hr, he.1, he.2, ?_⟩
    exact (waitgroup_wakes.1 s hr (by simp [he.1])).resolve_left (by simp [he.2])
  · have hx : ((walk (watched (Fin 2)) (waking 0 1) ⟨create, fun _ => false⟩).bind fun s =>
        (watch s (.step 1)).map fun s' => (waiting (s.base.pc 1), s'.base.pc 1)) = some (true, .idle) := by decide
    obtain ⟨s, hr, hx⟩ := exec_reads_bind hx (.init rfl)
    obtain ⟨s', hs', he⟩ := Option.map_eq_some_iff.mp hx
    have hret : Returns s.base s'.base 1 := by simpa [Returns] using he
    exact ⟨s, s', hr, hs', hret, waitgroup_wakes.2 s s' _ 1 hr hs' hret⟩

end Picasso.Sync.WaitGroup
