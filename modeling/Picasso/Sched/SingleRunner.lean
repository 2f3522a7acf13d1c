import Picasso.Sched.NoLostTask

namespace Picasso.Sched.SingleRunner

open Lib.Queues Lib.Transition Tasking Placement NoLostTask Function

variable {T : Type} [DecidableEq T]

section Effects

def kernel : Act T → Option Nat
  | .sched k | .call k _ | .step k _ => some k
  | .tick _ | .diskio .. | .netio .. => none

/-- What a step, taken by a kernel thread or from outside, does to the kernel
threads, to the tasks and their count and to the wait queues. -/
inductive Effect (s s' : State T) : Act T → Prop
  | quiet {a} (hs : s'.status = s.status) (ht : s'.thread = s.thread) (hc : s'.taskCount = s.taskCount)
      (hw : s'.waitQ = s.waitQ) : Effect s s' a
  | run {a k t p q} (hk : kernel a = some k) (ha : Active s k t p)
      (hp : spawning (.live p) = none) (hq : spawning (.live q) = none)
      (hs : s'.status = update s.status t (.live q)) (ht : s'.thread = s.thread) (hc : s'.taskCount = s.taskCount)
      (hw : ∀ j, j ≠ s.schedId t → s'.waitQ j = s.waitQ j) : Effect s s' a
  | yield {a k t next} (ha : Active s k t (.switch next))
      (hs : s'.status = update s.status t (.live next.point))
      (ht : s'.thread = s.thread ∨ s'.thread = update s.thread (s.schedId t) .popWait)
      (hc : s'.taskCount = s.taskCount) (hw : s'.waitQ = s.waitQ) : Effect s s' a
  | create {a k t child kid} (ha : Active s k t .code) (hb : s.status child = .absent)
      (hs : s'.status = update (update s.status t (.live (.spawnCount child kid))) child .born)
      (ht : s'.thread = s.thread) (hc : s'.taskCount = s.taskCount) (hw : s'.waitQ = s.waitQ) : Effect s s' a
  | count {a k t child kid} (ha : Active s k t (.spawnCount child kid))
      (hs : s'.status = update s.status t (.live (.spawnPush child kid))) (ht : s'.thread = s.thread)
      (hc : s'.taskCount = s.taskCount + 1) (hw : s'.waitQ = s.waitQ) : Effect s s' a
  | publish {a k t child kid} (ha : Active s k t (.spawnPush child kid))
      (hs : s'.status = update (update s.status child (.live .code)) t (.live .code))
      (ht : s'.thread = s.thread) (hc : s'.taskCount = s.taskCount) (hw : s'.waitQ = s.waitQ) : Effect s s' a
  | finish {a k t} (ha : Active s k t .code) (hs : s'.status = update s.status t .finished)
      (ht : s'.thread = update s.thread k (.destroy t)) (hc : s'.taskCount = s.taskCount)
      (hw : s'.waitQ = s.waitQ) : Effect s s' a
  | resume {k t l} (hk : s.thread k = .popWait) (hq : s.queue (.ready k) = some t :: l) (hs : s'.status = s.status)
      (ht : s'.thread = update s.thread k (.running t)) (hc : s'.taskCount = s.taskCount)
      (hw : ∀ j, j ≠ k → s'.waitQ j = s.waitQ j) : Effect s s' (.sched k)
  | exit {k} (hk : s.thread k = .popWait ∨ ∃ i, s.thread k = .sentinel i) (hs : s'.status = s.status)
      (ht : s'.thread = update s.thread k .exited) (hc : s'.taskCount = s.taskCount)
      (hw : s'.waitQ = s.waitQ) : Effect s s' (.sched k)
  | destroy {k t} (hk : s.thread k = .destroy t) (hs : s'.status = update s.status t .absent)
      (ht : s'.thread = update s.thread k (if s.taskCount - 1 = 0 then .recheck else .popWait))
      (hc : s'.taskCount = s.taskCount - 1) (hw : s'.waitQ = s.waitQ) : Effect s s' (.sched k)
  | recheck {k} (hk : s.thread k = .recheck) (hs : s'.status = s.status)
      (ht : s'.thread = update s.thread k (if s.taskCount = 0 then .sentinel 0 else .popWait))
      (hc : s'.taskCount = s.taskCount) (hw : s'.waitQ = s.waitQ) : Effect s s' (.sched k)
  | sentinel {k i} (hk : s.thread k = .sentinel i) (hi : i < SCHEDULER_THREAD_POOL_SIZE) (hs : s'.status = s.status)
      (ht : s'.thread = update s.thread k (.sentinel (i + 1))) (hc : s'.taskCount = s.taskCount)
      (hw : s'.waitQ = s.waitQ) : Effect s s' (.sched k)

omit [DecidableEq T] in
theorem wake_frame (s : State T) (p : Place) : ∃ q, s.wake p = { s with queue := q } := by
  unfold State.wake
  split
  · exact ⟨_, rfl⟩
  · exact ⟨_, rfl⟩
  · exact ⟨_, rfl⟩

omit [DecidableEq T] in
theorem wakeAll_frame (s : State T) (p : Place) (l : List (Option T)) : ∃ q, s.wakeAll p l = { s with queue := q } := by
  induction l generalizing s with
  | nil => exact ⟨_, rfl⟩
  | cons o l ih =>
    cases o with
    | none => exact wake_frame s p
    | some w =>
      obtain ⟨q, hq⟩ := wake_frame s p
      obtain ⟨q', hq'⟩ := ih (s.wake p)
      rw [hq] at hq'
      exact ⟨q', by rw [State.wakeAll, hq, hq']⟩

variable {s s' : State T} {a : Act T} {k : Nat} {t : T}

/-- A task goes from one point to another, neither of them within a spawn, and nothing else changes. -/
theorem Effect.jump {p q : Point T} (ha : Active s k t p)
    (h : (s'.status, s'.thread, s'.taskCount, s'.waitQ, kernel a, spawning (.live p), spawning (.live q)) =
      (update s.status t (.live q), s.thread, s.taskCount, s.waitQ, some k, none, none)) : Effect s s' a := by
  simp only [Prod.mk.injEq] at h
  obtain ⟨hs, ht, hc, hw, hk, hp, hq⟩ := h
  exact .run hk ha hp hq hs ht hc fun j _ => by rw [hw]

theorem submitStep_effect {op : IoOp} {o : Outcome} (ha : Active s k t (.submit op))
    (hs : submitStep s t op o = some s') : Effect s s' (.step k o) := by
  cases o with
  | failed e =>
    cases hs
    split
    · exact .jump (q := .switch .code) ha rfl
    · exact .jump (q := .code) ha rfl
  | accepted n =>
    cases hs
    exact .jump (q := .switch .code) ha rfl
  | ok | spurious | full | already => cases hs

theorem netStep_effect {fd : Nat} {o : Outcome} (ha : Active s k t (.netAdd fd)) (hs : netStep s t fd o = some s') :
    Effect s s' (.step k o) := by
  cases o with
  | ok =>
    simp only [netStep] at hs
    split at hs <;> cases hs
    exact .jump ha rfl
  | already | failed =>
    cases hs
    exact .jump ha rfl
  | spurious | full | accepted => cases hs

theorem pointStep_effect {p : Point T} {o : Outcome} (ha : Active s k t p) (hs : pointStep s t o p = some s') :
    Effect s s' (.step k o) := by
  cases p with
  | code => cases hs
  | switch next =>
    cases hs
    refine .yield ha ?_ ?_ ?_ ?_ <;> unfold State.taskYield <;> split <;> simp [State.goto]
  | lockFast m | lockSlow m | groupWait w | rwSlow r mode | yieldCheck | getSqe op =>
    simp only [pointStep] at hs
    split at hs <;> cases hs <;> exact .jump ha rfl
  | unlock m =>
    obtain ⟨q, hq⟩ := wake_frame s (.mutexWaiters m)
    rw [pointStep, hq] at hs
    cases hs
    exact .jump ha rfl
  | rwLoad r mode | drain r | groupCheck w =>
    cases hs
    split <;> exact .jump ha rfl
  | rwCas r mode old =>
    simp only [pointStep] at hs
    split at hs
    · cases mode <;> cases hs <;> exact .jump ha rfl
    · cases hs
      exact .jump ha rfl
  | runlock r =>
    cases hs
    split
    · exact .jump (q := .runlockWake r) ha rfl
    · exact .jump (q := .code) ha rfl
  | runlockWake r =>
    obtain ⟨q, hq⟩ := wake_frame s (.writers r)
    rw [pointStep, hq] at hs
    cases hs
    exact .jump ha rfl
  | rwunlock r =>
    obtain ⟨q, hq⟩ := wake_frame s (.writers r)
    simp only [pointStep, hq] at hs
    cases hs
    split
    · exact .jump (q := .code) ha rfl
    · obtain ⟨q', hq'⟩ := wakeAll_frame { s with queue := q } (.readers r) (q (.readers r))
      rw [hq']
      exact .jump (q := .code) ha rfl
  | groupAdd w delta =>
    simp only [pointStep] at hs
    split at hs <;> cases hs
    split
    · exact .jump (q := .groupWake w) ha rfl
    · exact .jump (q := .code) ha rfl
  | groupWake w =>
    obtain ⟨q, hq⟩ := wakeAll_frame s (.groupWaiters w) (s.queue (.groupWaiters w))
    rw [pointStep, hq] at hs
    cases hs
    exact .jump ha rfl
  | ioPush op =>
    cases hs
    exact .run (q := .submit op) rfl ha rfl rfl rfl rfl rfl fun j hj => update_of_ne hj _ _
  | submit op => exact submitStep_effect ha hs
  | netAdd fd => exact netStep_effect ha hs
  | netMod fd =>
    cases o with
    | ok | failed =>
      cases hs
      exact .jump ha rfl
    | spurious | full | accepted | already => cases hs
  | netPush =>
    cases hs
    exact .run (q := .switch .code) rfl ha rfl rfl rfl rfl rfl fun j hj => update_of_ne hj _ _
  | spawnCount child kid =>
    cases hs
    exact .count ha rfl rfl rfl rfl
  | spawnPush child kid =>
    cases hs
    exact .publish ha rfl rfl rfl rfl

theorem callStep_effect {c : Call T} (ha : Active s k t .code) (hs : callStep s k t c = some s') : Effect s s' (.call k c) := by
  cases c with
  | thread child kid =>
    simp only [callStep] at hs
    split at hs <;> cases hs
    next hb => exact .create ha hb.1 rfl rfl rfl rfl
  | finish =>
    cases hs
    exact .finish ha rfl rfl rfl rfl
  | disk op =>
    cases hs
    exact .jump (q := .getSqe op) ha rfl
  | net fd =>
    cases hs
    exact .jump (q := .netAdd fd) ha rfl
  | mutexLock | mutexUnlock | rlock | runlock | rwlock | rwunlock | add | wait | selfYield =>
    cases hs
    exact .jump ha rfl

theorem schedStep_effect (hs : schedStep s k = some s') : Effect s s' (.sched k) := by
  cases hk : s.thread k with
  | popWait =>
    simp only [schedStep, hk] at hs
    split at hs <;> cases hs
    · exact .exit (.inl hk) rfl rfl rfl rfl
    · next t l hq =>
      unfold State.unsafeIoqRemove
      split
      · exact .resume hk hq rfl rfl rfl fun j hj => update_of_ne hj _ _
      · exact .resume hk hq rfl rfl rfl fun _ _ => rfl
  | running t | exited =>
    simp only [schedStep, hk] at hs
    cases hs
  | destroy t =>
    simp only [schedStep, hk] at hs
    cases hs
    exact .destroy hk rfl rfl rfl rfl
  | recheck =>
    simp only [schedStep, hk] at hs
    cases hs
    exact .recheck hk rfl rfl rfl rfl
  | sentinel i =>
    simp only [schedStep, hk] at hs
    split at hs <;> cases hs
    · next hi => exact .sentinel hk hi rfl rfl rfl rfl
    · exact .exit (.inr ⟨i, hk⟩) rfl rfl rfl rfl

theorem step_effect (hs : step s a = some s') : Effect s s' a := by
  cases a with
  | sched k => exact schedStep_effect hs
  | call k c =>
    simp only [step] at hs
    split at hs
    · next t hk =>
      split at hs
      · next hp => exact callStep_effect ⟨hk, hp⟩ hs
      · cases hs
    · cases hs
  | step k o =>
    simp only [step] at hs
    split at hs
    · next t hk =>
      split at hs
      · next p hp => exact pointStep_effect ⟨hk, hp⟩ hs
      · cases hs
    · cases hs
  | tick k =>
    cases hs
    exact .quiet rfl rfl rfl rfl
  | diskio k t res =>
    simp only [step] at hs
    split at hs <;> cases hs
    exact .quiet rfl rfl rfl rfl
  | netio fd e =>
    simp only [step] at hs
    split at hs <;> cases hs
    cases e <;> exact .quiet rfl rfl rfl rfl

end Effects

/-- A task runs on the kernel thread of its `sched_id` only, and it is resumed
only when it runs nowhere and has left the point at which it switched out. A
wait queue is touched by its own kernel thread only. -/
structure OneRunner (s : State T) : Prop where
  single : ∀ t j k, s.thread j = .running t → s.thread k = .running t → j = k
  pinned : ∀ k t, s.thread k = .running t → k = s.schedId t
  resumed : ∀ a s' k t, step s a = some s' → s'.thread k = .running t → s.thread k ≠ .running t →
    (∀ j, s.thread j ≠ .running t) ∧ ∃ p, s.status t = .live p ∧ leaving p = false
  waiting : ∀ a s' k, step s a = some s' → s'.waitQ k ≠ s.waitQ k → kernel a = some k

section Runner

variable {b : Bool} {s s' : State T} {a : Act T}

theorem Effect.popped (h : Effect s s' a) {k : Nat} {t : T} (hk : s'.thread k = .running t)
    (hn : s.thread k ≠ .running t) : s.thread k = .popWait ∧ ∃ l, s.queue (.ready k) = some t :: l := by
  have hset {j : Nat} {th : Thread T} (ht : s'.thread = update s.thread j th) : j = k ∧ th = .running t := by
    rw [ht] at hk
    by_cases hj : k = j
    · subst hj
      exact ⟨rfl, by simpa using hk⟩
    · rw [update_of_ne hj] at hk
      exact absurd hk hn
  cases h with
  | quiet _ ht | run _ _ _ _ _ ht | create _ _ _ ht | count _ _ ht | publish _ _ ht => exact absurd (ht ▸ hk) hn
  | yield _ _ ht =>
    rcases ht with ht | ht
    · exact absurd (ht ▸ hk) hn
    · cases (hset ht).2
  | finish _ _ ht | exit _ _ ht | sentinel _ _ _ ht => cases (hset ht).2
  | destroy _ _ ht | recheck _ _ ht =>
    have := (hset ht).2
    split at this <;> cases this
  | resume hpop hq _ ht =>
    obtain ⟨rfl, hth⟩ := hset ht
    cases hth
    exact ⟨hpop, _, hq⟩

theorem tracked_resumed (h : Tracked b s) (hs : step s a = some s') {k : Nat} {t : T} (hk : s'.thread k = .running t)
    (hn : s.thread k ≠ .running t) :
    (∀ j, s.thread j ≠ .running t) ∧ ∃ p, s.status t = .live p ∧ leaving p = false := by
  obtain ⟨hpop, l, hq⟩ := (step_effect hs).popped hk hn
  have hm : some t ∈ spots s.queue s.prepared (.inl (.ready k)) := by simp [spots, hq]
  have hid := h.home k t hm
  have hrun : ¬ Running s.thread s.schedId t := by simp [Running, hid, hpop]
  refine ⟨fun j hj => ?_, ((h.located t).settled hm hrun).1⟩
  exact hrun (by rw [Running, h.owner j t hj, hj])

theorem tracked_waiting (h : Tracked b s) (hs : step s a = some s') {k : Nat} (hk : s'.waitQ k ≠ s.waitQ k) :
    kernel a = some k := by
  cases step_effect hs with
  | quiet _ _ _ hw | yield _ _ _ _ hw | create _ _ _ _ _ hw | count _ _ _ _ hw | publish _ _ _ _ hw
  | finish _ _ _ _ hw | exit _ _ _ _ hw | destroy _ _ _ _ hw | recheck _ _ _ _ hw | sentinel _ _ _ _ _ hw =>
    exact absurd (congrFun hw k) hk
  | run hkernel ha _ _ _ _ _ hw =>
    by_contra hne
    refine hk (hw k fun e => hne ?_)
    rw [hkernel, e, h.schedId ha]
  | resume _ _ _ _ _ hw =>
    by_contra hne
    exact hk (hw k fun e => hne (e ▸ rfl))

theorem oneRunner_of_tracked (h : Tracked b s) : OneRunner s where
  single t j k hj hk := (h.owner j t hj).symm.trans (h.owner k t hk)
  pinned k t hk := (h.owner k t hk).symm
  resumed _ _ _ _ hs hk hn := tracked_resumed h hs hk hn
  waiting _ _ _ hs hk := tracked_waiting h hs hk

theorem run_tracked_loosely (h : Run (machine T) Submits s) : Tracked false s := by
  refine h.invariant ?_ ?_
  · rintro s ⟨t, kid, _, rfl⟩
    exact tracked_start false t kid
  · intro s a s' hi hok hs
    exact tracked_step hi (by simp) hok hs

/-- In every run in which no submit fails that an operation goes on after,
each task has one runner. -/
theorem single_runner (h : Run (machine T) Submits s) : OneRunner s := oneRunner_of_tracked (run_tracked_loosely h)

end Runner

/-- The steps of a disk operation of the task on kernel thread `k` up to the
outcome of its submit. -/
def diskWrite (k : Nat) (o : Outcome) : List (Act T) := [.call k (.disk .fileWrite), .step k .ok, .step k .ok, .step k o]

def spawnOn (k : Nat) (child : T) (kid : Nat) : List (Act T) := [.call k (.thread child kid), .step k .ok, .step k .ok]

/-- The write of the second task is submitted and completes while the first runs on. -/
theorem single_runner_writing :
    ∃ s : State (Fin 2), Run (machine (Fin 2)) Submits s ∧ s.thread 0 = .running 0 ∧ s.thread 1 = .running 1 ∧
      OneRunner s := by
  have hx : (exec (machine (Fin 2)) Submits
      (.sched 0 :: spawnOn 0 1 1 ++ .sched 1 :: diskWrite 1 (.accepted 1) ++ [.step 1 .ok, .diskio 1 1 4, .sched 1])
      (start 0 0)).map (fun s => (s.thread 0, s.thread 1)) = some (.running 0, .running 1) := by decide
  obtain ⟨s, hr, he⟩ := exec_reads hx (.init ⟨0, 0, by decide, rfl⟩)
  simp only [Prod.mk.injEq] at he
  exact ⟨s, hr, he.1, he.2, single_runner hr⟩

/-- The entry of a write whose submit failed is submitted with the next one.
Its completion is the second for a task that has resumed already and finishes,
and the stale pointer meets the record of a new task. -/
theorem two_runners : ¬ ∀ s : State (Fin 2), Reachable (machine (Fin 2)) s → OneRunner s := by
  intro h
  have hx : (walk (machine (Fin 2))
      (.sched 0 :: spawnOn 0 1 1 ++ .sched 1 :: diskWrite 1 (.failed 11) ++ diskWrite 1 (.accepted 2) ++
        [.step 1 .ok, .diskio 1 1 4, .sched 1, .diskio 1 1 4, .call 1 .finish, .sched 1] ++
        spawnOn 0 1 2 ++ [.sched 1, .sched 2])
      (start 0 0)).map (fun s => (s.thread 1, s.thread 2)) = some (.running 1, .running 1) := by decide
  obtain ⟨s, hr, he⟩ := exec_reads hx (.init ⟨0, 0, by decide, rfl⟩)
  simp only [Prod.mk.injEq] at he
  exact absurd ((h s hr).single 1 1 2 he.1 he.2) (by decide)

/-- No pointer to a task outlives it: what a queue or a prepared entry of a
ring holds is a live task that is in no other place, and a ready queue holds
tasks of its own kernel thread. -/
theorem queued_live {s : State T} (h : Run (machine T) Submits s) {t : T} {p : Spot} (hm : some t ∈ spots s.queue s.prepared p) :
    (∃ q, s.status t = .live q) ∧ OnlyAt (spots s.queue s.prepared) (some t) p ∧
      ∀ k, p = .inl (.ready k) → s.schedId t = k := by
  have hb := run_tracked_loosely h
  refine ⟨(hb.located t).live hm, ?_, ?_⟩
  · rcases (hb.located t).once with hn | ⟨r, ho⟩
    · exact absurd hm (hn.not_mem p)
    · rwa [ho.place_eq hm] at ho
  · rintro k rfl
    exact hb.home k t hm

/-- The second task is prepared in the ring of its kernel thread. -/
theorem queued_live_prepared : ∃ s : State (Fin 2), Run (machine (Fin 2)) Submits s ∧ s.prepared 1 = [1] ∧
    ∃ q, s.status 1 = .live q := by
  have hx : (exec (machine (Fin 2)) Submits (.sched 0 :: spawnOn 0 1 1 ++ [.sched 1, .call 1 (.disk .fileWrite), .step 1 .ok,
      .step 1 .ok]) (start 0 0)).map (fun s => s.prepared 1) = some [1] := by decide
  obtain ⟨s, hr, he⟩ := exec_reads hx (.init ⟨0, 0, by decide, rfl⟩)
  exact ⟨s, hr, he, (queued_live hr (p := .inr 1) (by simp [spots, he])).1⟩

end Picasso.Sched.SingleRunner
