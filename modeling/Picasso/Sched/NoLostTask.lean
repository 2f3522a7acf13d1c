import Picasso.Sched.Placement

namespace Picasso.Sched.NoLostTask

open Lib.Queues Lib.Transition Tasking Placement State
open Picasso.Sync.RwMutex (Mode WRITER_BIT)

variable {T : Type} [DecidableEq T]

/-- The operation of a task that is at point `p` does not meet one of the
paths on which a task yields without being in any queue: a writer that finds
readers, a full submission queue, a failed or partial submit, and a
`netpoll_mod` that fails or displaces another task. -/
def orderlyPoint (s : State T) (t : T) (o : Outcome) : Point T → Bool
  | .drain r => s.rwmutex r = WRITER_BIT
  | .getSqe _ => o ≠ .full
  | .submit _ => o = .accepted (s.prepared (s.schedId t)).length
  | .netMod fd => o = .ok ∧ s.queue (.poll fd) = []
  | _ => true

def orderly (s : State T) : Act T → Bool
  | .step k o => match s.thread k with
    | .running t => match s.status t with
      | .live p => orderlyPoint s t o p
      | _ => true
    | _ => true
  | .netio _ e => e ≠ .rearmFailed
  | _ => true

def Orderly (s : State T) (a : Act T) : Prop := orderly s a = true

instance (s : State T) (a : Act T) : Decidable (Orderly s a) := inferInstanceAs (Decidable (_ = true))

/-- No submit fails in an operation that goes on without yielding:
`async_file_read` alone yields after a failed submit. -/
def submitsPoint (o : Outcome) : Point T → Bool
  | .submit op => match o with
    | .failed _ => op = .fileRead
    | _ => true
  | _ => true

def submits (s : State T) : Act T → Bool
  | .step k o => match s.thread k with
    | .running t => match s.status t with
      | .live p => submitsPoint o p
      | _ => true
    | _ => true
  | _ => true

def Submits (s : State T) (a : Act T) : Prop := submits s a = true

instance (s : State T) (a : Act T) : Decidable (Submits s a) := inferInstanceAs (Decidable (_ = true))

omit [DecidableEq T] in
theorem submits_of_orderly {s : State T} {a : Act T} (h : Orderly s a) : Submits s a := by
  cases a with
  | step k o =>
    simp only [Orderly, orderly] at h
    simp only [Submits, submits]
    split
    · next t hk =>
      rw [hk] at h
      split
      · next p hp =>
        simp only [hp] at h
        cases p <;> simp only [submitsPoint]
        simp only [orderlyPoint, decide_eq_true_eq] at h
        rw [h]
      · rfl
    · rfl
  | sched | call | tick | diskio | netio => rfl

/-- A kernel thread executes the task, which has not yet put itself into a
queue to switch out. -/
def Executing (s : State T) (t : T) : Prop :=
  ∃ k p, s.thread k = .running t ∧ s.status t = .live p ∧ leaving p = false

/-- Every unfinished task that has been pushed once is executing and in no queue,
or in exactly one queue exactly once, and a task that switches out is in one. -/
structure Kept (s : State T) : Prop where
  one : ∀ t p, s.status t = .live p →
    Executing s t ∧ Nowhere s.queue (some t) ∨ ¬ Executing s t ∧ ∃ r, OnlyAt s.queue (some t) r
  switch : ∀ k t next, s.thread k = .running t → s.status t = .live (.switch next) →
    ∃ r, OnlyAt s.queue (some t) r

variable {a : Option T} {queue : Place → List (Option T)} {prepared : Nat → List T}

theorem nowhere_queue (h : Nowhere (spots queue prepared) a) : Nowhere queue a := fun r => h (.inl r)

theorem onlyAt_queue {r : Place} (h : OnlyAt (spots queue prepared) a (.inl r)) : OnlyAt queue a r :=
  ⟨h.once, fun p hp => h.other (.inl p) (by simpa using hp)⟩

theorem kept_of_tracked {s : State T} (h : Tracked true s) : Kept s := by
  have hsame : ∀ {k t p}, s.thread k = .running t → s.status t = .live p → Running s.thread s.schedId t :=
    fun hk hp => h.running ⟨hk, hp⟩
  refine ⟨?_, ?_⟩
  · intro t p hp
    have hloc := h.located t
    rw [hp] at hloc
    cases hloc with
    | inside hl _ hr hn => exact .inl ⟨⟨_, p, hr, hp, hl⟩, nowhere_queue hn⟩
    | entered hl _ hr ho => exact .inl ⟨⟨_, p, hr, hp, hl⟩, fun r => ho.other (.inl r) (by simp)⟩
    | leaving hl hr hh =>
      obtain ⟨r, ho⟩ := hh
      refine .inr ⟨?_, r, onlyAt_queue ho⟩
      rintro ⟨k, p', _, hp', hl'⟩
      rw [hp] at hp'
      cases hp'
      simp [hl] at hl'
    | away hl _ hr hh =>
      obtain ⟨r, ho⟩ := hh
      refine .inr ⟨?_, r, onlyAt_queue ho⟩
      rintro ⟨k, p', hk, hp', _⟩
      exact hr (hsame hk hp')
    | gone hs => exact absurd rfl (hs p)
  · intro k t next hk hp
    have hloc := h.located t
    rw [hp] at hloc
    cases hloc with
    | inside hl | entered hl | away hl => simp [leaving] at hl
    | leaving _ _ hh =>
      obtain ⟨r, ho⟩ := hh
      exact ⟨r, onlyAt_queue ho⟩
    | gone hs => exact absurd rfl (hs _)

section Steps

/- The same account is kept strictly along the orderly steps and loosely along
all steps whose submits do not fail. -/
variable {b : Bool} {s s' : State T} {k : Nat} {t : T}

variable {o : Outcome}

section Tracking

variable (h : Tracked b s)

include h

theorem tracked_submit {op : IoOp} (ha : Active s k t (.submit op))
    (hok : b = true → o = .accepted (s.prepared (s.schedId t)).length)
    (hsub : submitsPoint o (.submit op : Point T) = true) (hs : submitStep s t op o = some s') : Tracked b s' := by
  rw [h.schedId ha] at hok
  cases o with
  | accepted n =>
    simp only [submitStep, h.schedId ha] at hs
    cases hs
    exact h.submit (q := .switch .code) ha rfl rfl n fun hb => by simpa using hok hb
  | failed e =>
    cases b with
    | true => simp at hok
    | false =>
      have hop : op = .fileRead := by simpa [submitsPoint] using hsub
      simp only [submitStep, hop, if_true] at hs
      cases hs
      exact h.leave (q := .switch .code) ha rfl
  | ok | spurious | full | already => cases hs

theorem tracked_spawnPush {child : T} {kid : Nat} (ha : Active s k t (.spawnPush child kid)) :
    Tracked b ({ s with
      queue := push s.queue (.ready kid) (some child)
      status := Function.update s.status child (.live .code) }.goto t .code) := by
  have hspawn : spawning (s.status t) = some (child, kid) := by rw [ha.status]; rfl
  obtain ⟨hborn, hid⟩ := h.child t child kid hspawn
  have hct := h.child_ne ha.status hspawn
  have hg : Tracked b (s.goto t .code) := h.goto ha rfl
  have hpub := hg.publish child (by simpa [goto, hct] using hborn) (by
    intro u n hu
    by_cases hut : u = t
    · subst hut
      simp [goto, spawning] at hu
    · simp only [goto, Function.update_of_ne hut] at hu
      exact hut (h.parent u t child n kid hu hspawn))
  simp only [goto, hid] at hpub
  rw [Function.update_comm hct.symm] at hpub
  exact hpub

theorem tracked_net {fd : Nat} (ha : Active s k t (.netAdd fd)) (hs : netStep s t fd o = some s') : Tracked b s' := by
  cases o with
  | ok =>
    simp only [netStep] at hs
    split at hs <;> cases hs
    exact h.enqueue ha rfl rfl rfl _ (by simp)
  | already | failed =>
    cases hs
    exact h.goto ha rfl
  | spurious | full | accepted => cases hs

theorem tracked_mod {fd : Nat} (ha : Active s k t (.netMod fd)) (hok : b = true → orderlyPoint s t o (.netMod fd) = true)
    (hs : pointStep s t o (.netMod fd) = some s') : Tracked b s' := by
  cases o with
  | ok =>
    cases hs
    exact h.register ha rfl rfl rfl fd fun hb => by simpa [orderlyPoint] using hok hb
  | failed e =>
    cases hs
    cases b with
    | true => simp [orderlyPoint] at hok
    | false => exact h.leave ha rfl
  | spurious | full | accepted | already => cases hs

theorem tracked_sqe {op : IoOp} (ha : Active s k t (.getSqe op)) (hok : b = true → orderlyPoint s t o (.getSqe op) = true)
    (hs : pointStep s t o (.getSqe op) = some s') : Tracked b s' := by
  simp only [pointStep] at hs
  split at hs <;> cases hs
  · next ho =>
    cases b with
    | true => simp [orderlyPoint, ho] at hok
    | false => exact h.leave ha rfl
  · exact h.prepare ha rfl rfl rfl rfl

theorem tracked_cas {r : Nat} {mode : Mode} {old : Int} (ha : Active s k t (.rwCas r mode old))
    (hs : pointStep s t o (.rwCas r mode old) = some s') : Tracked b s' := by
  simp only [pointStep] at hs
  split at hs
  · cases mode with
    | reader =>
      cases hs
      exact h.goto (q := .code) ha rfl
    | writer =>
      cases hs
      exact h.goto (q := .drain r) ha rfl
  · cases hs
    exact h.goto ha rfl

theorem tracked_point {p : Point T} (ha : Active s k t p)
    (hok : b = true → orderlyPoint s t o p = true) (hsub : submitsPoint o p = true) (hs : pointStep s t o p = some s') :
    Tracked b s' := by
  cases p with
  | code => cases hs
  | switch next =>
    cases hs
    exact h.yield ha
  | lockFast m =>
    simp only [pointStep] at hs
    split at hs <;> cases hs
    · exact h.goto (q := .code) ha rfl
    · exact h.goto ha rfl
  | lockSlow m =>
    simp only [pointStep] at hs
    split at hs <;> cases hs
    · exact h.goto (q := .code) ha rfl
    · exact h.enqueue ha rfl rfl rfl _ (by simp)
  | unlock m =>
    cases hs
    exact (h.wake _).goto (q := .code) (ha.wake _) rfl
  | rwLoad r mode | groupCheck w =>
    cases hs
    split
    · exact h.goto ha rfl
    · exact h.goto ha rfl
  | rwSlow r mode =>
    simp only [pointStep] at hs
    split at hs <;> cases hs
    · refine h.enqueue ha rfl rfl rfl _ ?_
      cases mode <;> simp [waitersOf]
    · exact h.goto ha rfl
  | rwCas r mode old => exact tracked_cas h ha hs
  | drain r =>
    cases hs
    split
    · exact h.goto ha rfl
    · next hw =>
      cases b with
      | true => simp [orderlyPoint, hw] at hok
      | false => exact h.leave ha rfl
  | runlock r =>
    cases hs
    split
    · exact h.goto (q := .runlockWake r) ha rfl
    · exact h.goto (q := .code) ha rfl
  | runlockWake r =>
    cases hs
    exact (h.wake _).goto (ha.wake _) rfl
  | rwunlock r =>
    simp only [pointStep] at hs
    cases hs
    split
    · exact (h.wake _).goto (q := .code) (ha.wake _) rfl
    · exact ((h.wake _).wakeAll _ _).goto (q := .code) ((ha.wake _).wakeAll _ _) rfl
  | groupAdd w delta =>
    simp only [pointStep] at hs
    split at hs <;> cases hs
    split
    · exact h.goto (q := .groupWake w) ha rfl
    · exact h.goto (q := .code) ha rfl
  | groupWake w =>
    cases hs
    exact (h.wakeAll _ _).goto (ha.wakeAll _ _) rfl
  | groupWait w =>
    simp only [pointStep] at hs
    split at hs <;> cases hs
    · exact h.goto ha rfl
    · exact h.enqueue ha rfl rfl rfl _ (by simp)
  | yieldCheck =>
    simp only [pointStep] at hs
    split at hs <;> cases hs
    · refine h.enqueue (q := .switch .code) ha rfl rfl rfl (.ready (s.schedId t)) ?_
      intro j hj
      cases hj
      rfl
    · exact h.goto ha rfl
  | getSqe op => exact tracked_sqe h ha hok hs
  | ioPush op =>
    cases hs
    exact h.goto (q := .submit op) ha rfl
  | submit op =>
    exact tracked_submit h ha (fun hb => by simpa [orderlyPoint] using hok hb) hsub hs
  | netAdd fd => exact tracked_net h ha hs
  | netMod fd => exact tracked_mod h ha hok hs
  | netPush =>
    cases hs
    exact h.goto (q := .switch .code) ha rfl
  | spawnCount child kid =>
    cases hs
    exact h.goto_spawning (q := .spawnPush child kid) ha rfl rfl (.inr rfl)
  | spawnPush child kid =>
    cases hs
    exact tracked_spawnPush h ha

theorem tracked_call {c : Call T} (ha : Active s k t .code) (hs : callStep s k t c = some s') : Tracked b s' := by
  cases c with
  | thread child kid =>
    simp only [callStep] at hs
    split at hs <;> cases hs
    next hc => exact h.spawn ha hc.1
  | finish =>
    cases hs
    exact h.finish ha
  | disk op =>
    cases hs
    exact h.goto (q := .getSqe op) ha rfl
  | net fd =>
    cases hs
    exact h.goto (q := .netAdd fd) ha rfl
  | mutexLock | mutexUnlock | rlock | runlock | rwlock | rwunlock | add | wait | selfYield =>
    cases hs
    exact h.goto ha rfl

theorem tracked_sched (hs : schedStep s k = some s') : Tracked b s' := by
  cases hk : s.thread k with
  | popWait =>
    simp only [schedStep, hk] at hs
    split at hs <;> cases hs
    · next l hq =>
      have hpop : Tracked b { s with queue := Function.update s.queue (.ready k) l } := by
        refine h.frame ?_
        intro u r
        rw [remove_head hq, tally_remove_ne _ _ _ (by simp)]
      exact hpop.rethread (by simp [hk]) (by simp)
    · next t l hq =>
      unfold unsafeIoqRemove
      split
      · exact h.pop hk hq
      · exact h.pop hk hq
  | running t | exited =>
    simp only [schedStep, hk] at hs
    cases hs
  | destroy t =>
    simp only [schedStep, hk] at hs
    cases hs
    refine h.destroy hk ?_
    intro u
    split <;> simp
  | recheck =>
    simp only [schedStep, hk] at hs
    cases hs
    refine h.rethread (by simp [hk]) ?_
    intro u
    split <;> simp
  | sentinel i =>
    simp only [schedStep, hk] at hs
    split at hs <;> cases hs
    · have hpush : Tracked b { s with queue := push s.queue (.ready i) none } := by
        refine h.frame ?_
        intro u r
        exact tally_push_ne _ _ _ (by simp)
      exact hpush.rethread (by simp [hk]) (by simp)
    · exact h.rethread (by simp [hk]) (by simp)

theorem tracked_step {a : Act T} (hok : b = true → Orderly s a) (hsub : Submits s a)
    (hs : step s a = some s') : Tracked b s' := by
  cases a with
  | sched k => exact tracked_sched h hs
  | call k c =>
    simp only [step] at hs
    split at hs
    · next t hk =>
      split at hs
      · next hp => exact tracked_call h ⟨hk, hp⟩ hs
      · cases hs
    · cases hs
  | step k o =>
    simp only [step] at hs
    split at hs
    · next t hk =>
      split at hs
      · next p hp =>
        refine tracked_point h ⟨hk, hp⟩ (fun hb => ?_) ?_ hs
        · simpa [Orderly, orderly, hk, hp] using hok hb
        · simpa [Submits, submits, hk, hp] using hsub
      · cases hs
    · cases hs
  | tick k =>
    cases hs
    exact h
  | diskio k t res =>
    simp only [step] at hs
    split at hs <;> cases hs
    next hm => exact h.move hm
  | netio fd e =>
    simp only [step] at hs
    split at hs <;> cases hs
    next t l hq =>
      cases e with
      | done n errno => exact h.move (p := .poll fd) (by simp [hq])
      | rearmed => exact h
      | rearmFailed =>
        cases b with
        | true => simp [Orderly, orderly] at hok
        | false => exact h.unregister _ _

end Tracking

end Steps

theorem tracked_start (b : Bool) (t : T) (kid : Nat) : Tracked b (start t kid) := by
  have hthread : ∀ k u, (start t kid).thread k ≠ .running u := by
    intro k u
    simp only [start]
    split <;> simp
  have hstatus : ∀ u, u ≠ t → (start t kid).status u = .absent := by
    intro u hut
    simp [start, hut]
  have hspawn : ∀ u, spawning ((start t kid).status u) = none := by
    intro u
    by_cases hut : u = t
    · simp [start, hut, spawning]
    · simp [hstatus u hut, spawning]
  have hspots : spots (start t kid).queue (start t kid).prepared =
      push (fun _ => []) (.inl (.ready kid)) (some t) := by
    funext r
    cases r with
    | inl r => by_cases hr : r = .ready kid <;> simp [spots, start, push, hr]
    | inr k => simp [spots, start, push]
  have hempty (u : T) : Nowhere (fun _ : Spot => ([] : List (Option T))) (some u) := fun _ => rfl
  refine ⟨?_, ?_, ?_, ?_, ?_, ?_⟩
  · intro u
    rw [hspots]
    by_cases hut : u = t
    · subst hut
      have hlive : (start u kid).status u = .live .code := by simp [start]
      rw [hlive]
      exact .away rfl rfl (hthread _ u) (.of_onlyAt ((hempty u).push _))
    · rw [hstatus u hut]
      refine .gone (by simp) (hthread _ u) ((hempty u).congr ?_)
      exact fun r => tally_push_ne _ _ _ (by simpa using hut)
  · intro k u hu
    exact absurd hu (hthread k u)
  · intro k u hu
    simp only [start] at hu ⊢
    split at hu
    · next hk =>
      cases hk
      rfl
    · cases hu
  · intro k u hu
    simp only [start] at hu
    split at hu <;> cases hu
  · intro u c k hu
    rw [hspawn u] at hu
    cases hu
  · intro u v c k j hu
    rw [hspawn u] at hu
    cases hu

theorem run_tracked {s : State T} (h : Run (machine T) Orderly s) : Tracked true s := by
  refine h.invariant ?_ ?_
  · rintro s ⟨t, kid, _, rfl⟩
    exact tracked_start true t kid
  · intro s a s' hi hok hs
    exact tracked_step hi (fun _ => hok) (submits_of_orderly hok) hs

/-- In every orderly run no task is lost and none is in two places. -/
theorem no_lost_task {s : State T} (h : Run (machine T) Orderly s) : Kept s :=
  kept_of_tracked (run_tracked h)

/-- A task on the second kernel thread waits for a mutex that the first task holds. -/
theorem no_lost_task_mutex :
    ∃ s : State (Fin 2), Run (machine (Fin 2)) Orderly s ∧ s.queue (.mutexWaiters 0) = [some 1] ∧
      s.thread 0 = .running 0 ∧ s.thread 1 = .popWait ∧ Kept s := by
  have hx : (exec (machine (Fin 2)) Orderly
      ([.sched 0, .call 0 (.thread 1 1), .step 0 .ok, .step 0 .ok, .call 0 (.mutexLock 0), .step 0 .ok,
        .sched 1, .call 1 (.mutexLock 0), .step 1 .ok, .step 1 .ok, .step 1 .ok]) (start 0 0)).map
      (fun s => (s.queue (.mutexWaiters 0), s.thread 0, s.thread 1)) =
      some ([some 1], .running 0, .popWait) := by decide
  obtain ⟨s, hr, he⟩ := exec_reads hx (.init ⟨0, 0, by decide, rfl⟩)
  simp only [Prod.mk.injEq] at he
  exact ⟨s, hr, he.1, he.2.1, he.2.2, no_lost_task hr⟩

theorem drain_loses {s : State T} (h : Tracked true s) {k r : Nat} {t : T} (ha : Active s k t (.drain r))
    (hr : s.rwmutex r ≠ WRITER_BIT) : ∃ s', step s (.step k .ok) = some s' ∧ ¬ Kept s' := by
  refine ⟨s.goto t (.switch (.drain r)), ?_, ?_⟩
  · simp [step, pointStep, ha.thread, ha.status, hr]
  · intro hkept
    obtain ⟨p, hp⟩ := hkept.switch k t (.drain r) ha.thread (by simp [goto])
    have hone := hp.once
    rw [goto, nowhere_queue (h.nowhere ha rfl rfl) p] at hone
    cases hone

/-- The first task read-locks and is preempted; the second becomes the writer
while the reader is inside and switches out for ever. -/
theorem lost_writer : ¬ ∀ s : State (Fin 2), Reachable (machine (Fin 2)) s → Kept s := by
  intro h
  have hx : (exec (machine (Fin 2)) Orderly
      ([.sched 0, .call 0 (.thread 1 0), .step 0 .ok, .step 0 .ok, .call 0 (.rlock 0), .step 0 .ok, .step 0 .ok,
        .tick 0, .call 0 .selfYield, .step 0 .ok, .step 0 .ok,
        .sched 0, .call 0 (.rwlock 0), .step 0 .ok, .step 0 .ok]) (start 0 0)).map
      (fun s => (s.thread 0, s.status 1, s.rwmutex 0)) = some (.running 1, .live (.drain 0), 3) := by decide
  obtain ⟨s, hr, he⟩ := exec_reads hx (.init ⟨0, 0, by decide, rfl⟩)
  simp only [Prod.mk.injEq] at he
  obtain ⟨s', hstep, hlost⟩ := drain_loses (run_tracked hr) ⟨he.1, he.2.1⟩ (by rw [he.2.2]; decide)
  have hreach : Reachable (machine (Fin 2)) s' := hr.reachable.step (a := .step 0 .ok) hstep
  exact hlost (h s' hreach)

end Picasso.Sched.NoLostTask
