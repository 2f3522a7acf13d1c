import Picasso.Sync.MutexExclusion
import Picasso.Lib.Fairness

namespace Picasso.Sync.MutexWakeup

open Lib.Transition Lib Fairness Mutex MutexExclusion List Option

variable {T : Type} [DecidableEq T] {s s' : State T} {t : T} {a : Act T}

/-- The mutex together with the tasks that an unlock has popped and that have
not looked at `mtx->state` since. -/
structure Watched (T : Type) where
  base : State T
  woken : List T

def Watched.note (s : Watched T) (a : Act T) : List T :=
  match s.base.pc a.task with
  | .unlockPop => s.base.waiters.head?.toList ++ s.woken
  | .slowLoad => s.woken.filter (· ≠ a.task)
  | _ => s.woken

def watch (s : Watched T) (a : Act T) : Option (Watched T) := (step s.base a).map fun s' => ⟨s', s.note a⟩

def watched (T : Type) [DecidableEq T] : Machine (Watched T) (Act T) := ⟨fun s => s = ⟨create, []⟩, watch⟩

/-- A task that has queued up for the mutex and has not been resumed since. -/
@[simp] def parked : Pc T → Bool
  | .slowRelease | .slowYield | .asleep => true
  | _ => false

/-- The task that the owner of `mtx->lock` has popped and not yet made ready. -/
def hand (s : State T) (w : T) : Nat :=
  match s.lock with
  | none => 0
  | some u => if s.pc u = .unlockPush w then 1 else 0

/-- The number of places that will make `w` run again. -/
def tickets (s : State T) (w : T) : Nat := s.waiters.count w + s.ready.count w + hand s w

/-- A popped task is in a ready queue or running, with its look at the state
still ahead of it. -/
def Coming (s : State T) (w : T) : Prop :=
  w ∈ s.ready ∧ (s.pc w = .slowYield ∨ s.pc w = .asleep) ∨ s.pc w = .slowAcquire

def NoLostWakeup (s : Watched T) : Prop :=
  s.base.lock = none → s.base.state = 0 → s.base.waiters ≠ [] → ∃ w ∈ s.woken, Coming s.base w

structure Inv (s : Watched T) : Prop where
  guarded : Lock.Guarded s.base.lock (inside s.base)
  taken : ∀ t, s.base.pc t = .slowPush → s.base.state ≠ 0
  ticket : ∀ w, tickets s.base w = if parked (s.base.pc w) then 1 else 0
  queued : ∀ w, s.base.pc w = .slowRelease → w ∈ s.base.waiters
  ahead : ∀ w ∈ s.woken, w ∉ s.base.waiters ∧
    (parked (s.base.pc w) = true ∨ s.base.pc w = .slowAcquire ∨ s.base.pc w = .slowLoad)
  heed : s.base.state = 0 → s.base.waiters ≠ [] →
    s.woken ≠ [] ∨ (∃ u, s.base.pc u = .unlockPop) ∨ ∃ u, s.base.pc u = .slowStore

theorem hand_same (ho : ∀ u, u ≠ t → s'.pc u = s.pc u) (hl : s'.lock = s.lock)
    (hp : ∀ w, s.pc t ≠ .unlockPush w) (hp' : ∀ w, s'.pc t ≠ .unlockPush w) : hand s' = hand s := by
  funext w
  rw [hand, hand, hl]
  cases s.lock with
  | none => rfl
  | some u =>
    by_cases hu : u = t
    · subst hu
      simp [hp w, hp' w]
    · simp [ho u hu]

theorem hand_owner {u : T} (hl : s.lock = some u) (hp : ∀ w, s.pc u ≠ .unlockPush w) : hand s = fun _ => 0 := by
  funext w
  simp [hand, hl, hp w]

theorem hand_push {u w : T} (hl : s.lock = some u) (hp : s.pc u = .unlockPush w) :
    hand s = fun v => if v = w then 1 else 0 := by
  funext v
  simp [hand, hl, hp, @eq_comm _ v]

theorem hand_free (hl : s.lock = none) : hand s = fun _ => 0 := by
  funext w
  rw [hand, hl]

inductive QueueEffect (s s' : State T) (t : T) : Prop
  | quiet (hw : s'.waiters = s.waiters) (hr : s'.ready = s.ready) (hh : hand s' = hand s)
      (hp : parked (s'.pc t) = parked (s.pc t)) (hn : s.pc t = .unlockPop → s.waiters = [])
  | park (hp : s.pc t = .slowPush) (hp' : s'.pc t = .slowRelease) (hw : s'.waiters = s.waiters ++ [t])
      (hr : s'.ready = s.ready) (hh : hand s' = hand s)
  | resume (hp : s.pc t = .asleep) (hp' : s'.pc t = .slowAcquire) (hm : t ∈ s.ready) (hw : s'.waiters = s.waiters)
      (hr : s'.ready = s.ready.erase t) (hh : hand s' = hand s)
  | pop (w : T) (hp : s.pc t = .unlockPop) (hp' : s'.pc t = .unlockPush w) (hw : s.waiters = w :: s'.waiters)
      (hr : s'.ready = s.ready) (hh : hand s = fun _ => 0) (hh' : hand s' = fun v => if v = w then 1 else 0)
  | wake (w : T) (hp : s.pc t = .unlockPush w) (hp' : s'.pc t = .unlockRelease) (hw : s'.waiters = s.waiters)
      (hr : s'.ready = s.ready ++ [w]) (hh : hand s = fun v => if v = w then 1 else 0) (hh' : hand s' = fun _ => 0)

theorem advance_queue (hg : Lock.Guarded s.lock (inside s)) (h : advance s t = some s') :
    QueueEffect s s' t := by
  have ho := fun u hu => (advance_other (u := u) h hu).1
  have hin (hp : locked (s.pc t) = true) : s.lock = some t := hg t hp
  cases hp : s.pc t with
  | idle => simp [advance, hp] at h
  | fastCas | slowStore | slowYield | unlockStore =>
    simp only [advance, hp] at h
    try split at h
    all_goals
      cases h
      refine .quiet rfl rfl (hand_same ho rfl ?_ ?_) ?_ ?_ <;> simp [hp]
  | slowLoad =>
    simp only [advance, hp] at h
    cases h
    by_cases h0 : s.state = 0 <;> simp only [h0, if_true, if_false] at ho ⊢
    all_goals
      exact .quiet rfl rfl (hand_same ho rfl (by simp [hp]) (by simp)) (by simp [hp])
        (by simp [hp])
  | slowAcquire | unlockAcquire =>
    simp only [advance, hp] at h
    split at h <;> cases h
    next hf =>
      refine .quiet rfl rfl ?_ (by simp [hp]) (by simp [hp])
      rw [hand_free hf, hand_owner rfl (by simp)]
  | slowReturn | slowRelease | unlockRelease =>
    simp only [advance, hp] at h
    cases h
    refine .quiet rfl rfl ?_ (by simp [hp]) (by simp [hp])
    rw [hand_free rfl, hand_owner (hin (by rw [hp]; rfl)) (by simp [hp])]
  | slowPush =>
    simp only [advance, hp] at h
    cases h
    exact .park hp (by simp) rfl rfl (hand_same ho rfl (by simp [hp]) (by simp))
  | asleep =>
    simp only [advance, hp] at h
    split at h <;> cases h
    next hm => exact .resume hp (by simp) hm rfl rfl (hand_same ho rfl (by simp [hp]) (by simp))
  | unlockPop =>
    simp only [advance, hp] at h
    have hl := hin (by rw [hp]; rfl)
    split at h <;> cases h
    · next hw =>
      exact .quiet rfl rfl (hand_same ho rfl (by simp [hp]) (by simp)) (by simp [hp])
        fun _ => hw
    · next w ws hw =>
      exact .pop w hp (by simp) hw rfl (hand_owner hl (by simp [hp])) (hand_push hl (by simp))
  | unlockPush w =>
    simp only [advance, hp] at h
    have hl := hin (by rw [hp]; rfl)
    cases h
    exact .wake w hp (by simp) rfl rfl (hand_push hl hp) (hand_owner hl (by simp))

theorem step_queue (hg : Lock.Guarded s.lock (inside s)) (h : step s a = some s') :
    QueueEffect s s' a.task := by
  cases a with
  | lock t | unlock t =>
    simp only [step] at h
    split at h <;> cases h
    next hp =>
      refine .quiet rfl rfl (hand_same (t := t) ?_ rfl ?_ ?_) ?_ ?_ <;> simp_all [Act.task]
  | step t => exact advance_queue hg h

/-- A step of `t` moves the tickets of the others from one place to the next,
and makes or uses up one of its own just when it queues up or is resumed. -/
theorem QueueEffect.tickets_eq (he : QueueEffect s s' t) (w : T) :
    tickets s' w + (if w = t ∧ parked (s.pc t) then 1 else 0) = tickets s w + if w = t ∧ parked (s'.pc t) then 1 else 0 := by
  cases he with
  | quiet hw hr hh hp => rw [tickets, hw, hr, hh, hp, tickets]
  | park hp hp' hw hr hh =>
    rw [tickets, hw, hr, hh, hp, hp', tickets, count_append, count_singleton]
    by_cases hwt : w = t
    · simp [hwt]
      omega
    · simp [hwt, Ne.symm hwt]
  | resume hp hp' hm hw hr hh =>
    rw [tickets, hw, hr, hh, hp, hp', tickets]
    by_cases hwt : w = t
    · subst hwt
      have := count_pos_iff.mpr hm
      simp only [count_erase_self, parked]
      simp
      omega
    · simp [hwt, count_erase_of_ne hwt]
  | pop v hp hp' hw hr hh hh' =>
    rw [tickets, hr, hh', hp, hp', tickets, hw, hh, count_cons]
    by_cases hvw : v = w
    · simp [hvw]
      omega
    · simp [hvw, Ne.symm hvw]
  | wake v hp hp' hw hr hh hh' =>
    rw [tickets, hw, hr, hh', hp, hp', tickets, hh, count_append, count_singleton]
    by_cases hvw : v = w
    · simp [hvw]
      omega
    · simp [hvw, Ne.symm hvw]

/-- What a step of `t` can do to the state of the mutex and to its own view of it. -/
inductive Look (s s' : State T) (t : T) : Prop
  | see (hp : s.pc t = .slowLoad) (h0 : s.state = 0) (hp' : s'.pc t = .slowStore)
  | miss (hp : s.pc t = .slowLoad) (h1 : s'.state ≠ 0) (hp' : s'.pc t = .slowPush)
  | free (hp : s.pc t = .unlockStore) (hp' : s'.pc t = .unlockPop)
  | take (hp : s.pc t = .fastCas ∨ s.pc t = .slowStore) (h1 : s'.state ≠ 0) (hp' : s'.pc t = .idle ∨ s'.pc t = .slowReturn)
  | keep (hs : s'.state = s.state) (hp : s.pc t ≠ .slowLoad ∧ s.pc t ≠ .slowStore) (hp' : s'.pc t ≠ .slowPush)
      (hr : s'.pc t = .slowRelease → s.pc t = .slowPush)
      (ha : parked (s.pc t) = true ∨ s.pc t = .slowAcquire →
        parked (s'.pc t) = true ∨ s'.pc t = .slowAcquire ∨ s'.pc t = .slowLoad)

theorem advance_look (h : advance s t = some s') : Look s s' t := by
  cases hp : s.pc t with
  | slowLoad =>
    simp only [advance, hp] at h
    cases h
    by_cases h0 : s.state = 0
    · exact .see hp h0 (by simp [h0])
    · exact .miss hp h0 (by simp [h0])
  | unlockStore =>
    simp only [advance, hp] at h
    cases h
    exact .free hp (by simp)
  | slowStore =>
    simp only [advance, hp] at h
    cases h
    exact .take (.inr hp) (by simp) (.inr (by simp))
  | fastCas =>
    simp only [advance, hp] at h
    split at h <;> cases h
    · exact .take (.inl hp) (by simp) (.inl (by simp))
    · refine .keep rfl ?_ ?_ ?_ ?_ <;> simp [hp]
  | idle | slowAcquire | slowReturn | slowPush | slowRelease | slowYield | asleep | unlockAcquire | unlockPop | unlockPush
  | unlockRelease =>
    simp only [advance, hp] at h
    try split at h
    all_goals cases h
    all_goals refine .keep rfl ?_ ?_ ?_ ?_ <;> simp [hp]

theorem step_look (h : step s a = some s') : Look s s' a.task := by
  cases a with
  | lock t | unlock t =>
    simp only [step] at h
    split at h <;> cases h
    refine .keep rfl ?_ ?_ ?_ ?_ <;> simp_all [Act.task]
  | step t => exact advance_look h

section Steps

variable {s : Watched T}

theorem ticket_step (hI : Inv s) (h : step s.base a = some s') (w : T) :
    tickets s' w = if parked (s'.pc w) then 1 else 0 := by
  have ht := (step_queue hI.guarded h).tickets_eq w
  have hw := hI.ticket w
  by_cases hwa : w = a.task
  · subst hwa
    simp only [true_and] at ht
    omega
  · rw [((step_effect h).other w hwa).1]
    simp only [hwa, false_and, if_false] at ht
    omega

theorem taken_step (hI : Inv s) (h : step s.base a = some s') (u : T) (hu : s'.pc u = .slowPush) : s'.state ≠ 0 := by
  by_cases hua : u = a.task
  · subst hua
    cases step_look h with
    | see _ _ hp' => simp [hp'] at hu
    | miss _ h1 _ => exact h1
    | free _ hp' => simp [hp'] at hu
    | take _ h1 _ => exact h1
    | keep _ _ hp' => exact absurd hu hp'
  · rw [((step_effect h).other u hua).1] at hu
    have h1 := hI.taken u hu
    cases (step_effect h).word with
    | quiet _ hs => rwa [hs]
    | enter _ _ hs => simp [hs]
    | leave hp => exact absurd (hI.guarded.unique (by simp [hu]) (by simp [hp])) hua

theorem queued_step (hI : Inv s) (h : step s.base a = some s') (w : T) (hw : s'.pc w = .slowRelease) : w ∈ s'.waiters := by
  by_cases hwa : w = a.task
  · subst hwa
    have hp : s.base.pc a.task = .slowPush := by
      cases step_look h with
      | see _ _ hp' | miss _ _ hp' | free _ hp' => simp [hp'] at hw
      | take _ _ hp' => rcases hp' with hp' | hp' <;> simp [hp'] at hw
      | keep _ _ _ hr => exact hr hw
    cases step_queue hI.guarded h with
    | park _ _ hq => simp [hq]
    | quiet _ _ _ hq => simp [hw, hp] at hq
    | resume hp' | pop _ hp' | wake _ hp' => simp [hp] at hp'
  · rw [((step_effect h).other w hwa).1] at hw
    have hm := hI.queued w hw
    cases step_queue hI.guarded h with
    | quiet hq | resume _ _ _ hq | wake _ _ _ hq => rwa [hq]
    | park _ _ hq => simp [hq, hm]
    | pop v hp =>
      -- both would own `mtx->lock`
      exact absurd (hI.guarded.unique (by simp [hw]) (by simp [hp])) hwa

theorem mem_note {w : T} (hw : w ∈ s.note a) : w ∈ s.woken ∧ (s.base.pc a.task = .slowLoad → w ≠ a.task) ∨
      s.base.pc a.task = .unlockPop ∧ s.base.waiters.head? = some w := by
  rw [Watched.note] at hw
  split at hw
  · next hp =>
    rcases mem_append.mp hw with hw | hw
    · exact .inr ⟨hp, by simpa using hw⟩
    · exact .inl ⟨hw, by simp [hp]⟩
  · next hp =>
    obtain ⟨hw, hne⟩ := mem_filter.mp hw
    exact .inl ⟨hw, fun _ => by simpa using hne⟩
  · next _ hne => exact .inl ⟨hw, fun h => absurd h hne⟩

theorem ahead_step (hI : Inv s) (h : step s.base a = some s') (w : T) (hw : w ∈ s.note a) :
    w ∉ s'.waiters ∧ (parked (s'.pc w) = true ∨ s'.pc w = .slowAcquire ∨ s'.pc w = .slowLoad) := by
  have ho := fun u hu => ((step_effect h).other u hu).1
  rcases mem_note hw with ⟨hw, hload⟩ | ⟨hp, hhead⟩
  · obtain ⟨hq, hat⟩ := hI.ahead w hw
    refine ⟨?_, ?_⟩
    · cases step_queue hI.guarded h with
      | quiet hw' | resume _ _ _ hw' | wake _ _ _ hw' => rwa [hw']
      | pop v _ _ hw' =>
        intro hm
        exact hq (by rw [hw']; exact mem_cons_of_mem _ hm)
      | park hp _ hw' =>
        rw [hw', mem_append, mem_singleton]
        rintro (hm | rfl)
        · exact hq hm
        · simp [hp] at hat
    · by_cases hwa : w = a.task
      · subst hwa
        cases step_look h with
        | see hp | miss hp => exact absurd rfl (hload hp)
        | free hp => simp [hp] at hat
        | take hp => rcases hp with hp | hp <;> simp [hp] at hat
        | keep _ hp _ _ ha => exact ha (by tauto)
      · rwa [ho w hwa]
  · cases step_queue hI.guarded h with
    | pop v _ _ hw' =>
      obtain rfl : v = w := by simpa [hw'] using hhead
      -- its only ticket has been taken out of the queue
      have ht := hI.ticket v
      rw [tickets, hw', count_cons_self] at ht
      split at ht
      · next hpark =>
        refine ⟨?_, .inl ?_⟩
        · rw [← List.count_eq_zero]
          omega
        · rw [ho v]
          · exact hpark
          · rintro rfl
            simp [hp] at hpark
      · omega
    | quiet _ _ _ _ hn => simp [hn hp] at hhead
    | park hp' | resume hp' | wake _ hp' => simp [hp] at hp'

theorem heed_step (hI : Inv s) (h : step s.base a = some s') (h0 : s'.state = 0) (hw : s'.waiters ≠ []) :
    s.note a ≠ [] ∨ (∃ u, s'.pc u = .unlockPop) ∨ ∃ u, s'.pc u = .slowStore := by
  cases step_look h with
  | see _ _ hp' => exact .inr (.inr ⟨_, hp'⟩)
  | miss _ h1 => exact absurd h0 h1
  | free _ hp' => exact .inr (.inl ⟨_, hp'⟩)
  | take _ h1 => exact absurd h0 h1
  | keep hs hp =>
    by_cases hpop : s.base.pc a.task = .unlockPop
    · left
      have hne : s.base.waiters ≠ [] := by
        cases step_queue hI.guarded h with
        | quiet hq => rwa [← hq]
        | pop _ _ _ hq => simp [hq]
        | park hp' | resume hp' | wake _ hp' => simp [hpop] at hp'
      obtain ⟨v, vs, hv⟩ := exists_cons_of_ne_nil hne
      simp [Watched.note, hpop, hv]
    · have hnote : s.note a = s.woken := by
        rw [Watched.note]
        split
        · contradiction
        · next hl => exact absurd hl hp.1
        · rfl
      have hne : s.base.waiters ≠ [] := by
        cases step_queue hI.guarded h with
        | quiet hq | resume _ _ _ hq | wake _ _ _ hq => rwa [← hq]
        | pop _ hp' => exact absurd hp' hpop
        | park hp' => exact absurd (hs ▸ h0) (hI.taken _ hp')
      have hstays {p : Pc T} (hp : s.base.pc a.task ≠ p) : (∃ u, s.base.pc u = p) → ∃ u, s'.pc u = p := by
        rintro ⟨u, hu⟩
        refine ⟨u, ?_⟩
        rw [((step_effect h).other u (by rintro rfl; exact hp hu)).1, hu]
      rw [hnote]
      exact (hI.heed (hs ▸ h0) hne).imp_right (Or.imp (hstays hpop) (hstays hp.2))

theorem inv_watch {v : Watched T} (hI : Inv s) (h : watch s a = some v) : Inv v := by
  obtain ⟨s', hs, rfl⟩ := map_eq_some_iff.mp h
  refine ⟨?_, taken_step hI hs, ticket_step hI hs, queued_step hI hs, ahead_step hI hs, heed_step hI hs⟩
  refine hI.guarded.step (step_effect hs).lock fun u hu => ?_
  rw [inside, inside, ((step_effect hs).other u hu).1]

end Steps

theorem inv_create : Inv (⟨create, []⟩ : Watched T) := by
  constructor <;> simp [create, Lock.Guarded, tickets, hand]

theorem reachable_inv {s : Watched T} (h : Reachable (watched T) s) : Inv s := by
  refine Run.invariant (I := Inv) ?_ ?_ h
  · rintro s rfl
    exact inv_create
  · intro s a s' hI _ hs
    exact inv_watch hI hs

theorem Inv.resting {s : Watched T} (hI : Inv s) {w : T} (hw : w ∈ s.base.ready) :
    s.base.pc w = .slowYield ∨ s.base.pc w = .asleep := by
  have ht := hI.ticket w
  have hpos := count_pos_iff.mpr hw
  have hpark : parked (s.base.pc w) = true := by
    by_contra hno
    rw [if_neg hno, tickets] at ht
    omega
  rw [if_pos hpark, tickets] at ht
  cases hp : s.base.pc w with
  | slowYield => exact .inl rfl
  | asleep => exact .inr rfl
  | slowRelease =>
    have := count_pos_iff.mpr (hI.queued w hp)
    omega
  | _ => simp [hp] at hpark

theorem Inv.noLostWakeup {s : Watched T} (hI : Inv s) : NoLostWakeup s := by
  intro hl h0 hw
  have hout (u : T) : inside s.base u = false := by
    cases hu : inside s.base u with
    | false => rfl
    | true => simp [hI.guarded u hu] at hl
  rcases hI.heed h0 hw with hne | ⟨u, hu⟩ | ⟨u, hu⟩
  · obtain ⟨w, ws, hws⟩ := exists_cons_of_ne_nil hne
    have hmem : w ∈ s.woken := by simp [hws]
    obtain ⟨hq, hat⟩ := hI.ahead w hmem
    refine ⟨w, hmem, ?_⟩
    rcases hat with hp | hp | hp
    · have ht := hI.ticket w
      rw [tickets, hp, hand_free hl, List.count_eq_zero.mpr hq] at ht
      have hr : w ∈ s.base.ready := count_pos_iff.mp (by simp at ht; omega)
      exact .inl ⟨hr, hI.resting hr⟩
    · exact .inr hp
    · simpa [hp] using hout w
  · simpa [hu] using hout u
  · simpa [hu] using hout u

section Fair

variable {b : Behaviour (watched T)} {n : Nat} {t u w : T}

/-- A task that has an operation to perform, and a place in a ready queue
if it has switched out. -/
def Runnable (s : State T) (t : T) : Prop := s.pc t ≠ .idle ∧ (s.pc t = .asleep → t ∈ s.ready)

/-- Every task that can run is run some time later, and gets `mtx->lock` some
time after it has asked for it. -/
def Fair (b : Behaviour (watched T)) : Prop :=
  ∀ n t, Runnable (b.state n).base t → ∃ m, n ≤ m ∧ b.act m = some (.step t)

theorem runnable_stays {s s' : Watched T} {a : Act T} {p : Pc T} (hI : Inv s) (hp : s.base.pc t = p)
    (hrun : Runnable s.base t) (ha : a ≠ .step t) (h : watch s a = some s') :
    s'.base.pc t = p ∧ Runnable s'.base t ∧ (t ∈ s.base.ready → t ∈ s'.base.ready) := by
  obtain ⟨v, hs, rfl⟩ := map_eq_some_iff.mp h
  have hne : t ≠ a.task := by
    rintro rfl
    cases a with
    | lock t | unlock t => simp [step, show s.base.pc t ≠ .idle from hrun.1] at hs
    | step t => exact ha rfl
  have hpc := ((step_effect hs).other t hne).1
  have hready : t ∈ s.base.ready → t ∈ v.ready := by
    intro hm
    cases step_queue hI.guarded hs with
    | quiet _ hr | park _ _ _ hr | pop _ _ _ _ hr => rwa [hr]
    | resume _ _ _ _ hr =>
      rw [hr]
      exact (mem_erase_of_ne hne).mpr hm
    | wake _ _ _ _ hr =>
      rw [hr]
      exact mem_append_left _ hm
  refine ⟨hpc.trans hp, ⟨?_, fun hz => ?_⟩, hready⟩
  · dsimp only
    rw [hpc]
    exact hrun.1
  · dsimp only at hz
    rw [hpc] at hz
    exact hready (hrun.2 hz)

theorem Fair.advance (hf : Fair b) (h0 : Reachable (watched T) (b.state 0)) (hrun : Runnable (b.state n).base t) :
    ∃ m, n ≤ m ∧ (b.state m).base.pc t = (b.state n).base.pc t ∧ (t ∈ (b.state n).base.ready → t ∈ (b.state m).base.ready) ∧
      Mutex.advance (b.state m).base t = some (b.state (m + 1)).base := by
  have hlasts := b.lasts (n := n) (a := .step t)
    (P := fun s => Inv s ∧ s.base.pc t = (b.state n).base.pc t ∧ Runnable s.base t ∧
      (t ∈ (b.state n).base.ready → t ∈ s.base.ready))
    ⟨reachable_inv (b.reachable h0 n), rfl, hrun, id⟩ ?_ (hf n t hrun)
  · obtain ⟨m, hm, ⟨-, hpc, -, hready⟩, ha⟩ := hlasts
    refine ⟨m, hm, hpc, hready, ?_⟩
    obtain ⟨s', hs, he⟩ := map_eq_some_iff.mp (b.step ha)
    rw [← he]
    exact hs
  · rintro s x s' ⟨hI, hpc, hr, hready⟩ hx hs
    obtain ⟨hpc', hr', hready'⟩ := runnable_stays hI hpc hr hx hs
    exact ⟨inv_watch hI hs, hpc', hr', hready' ∘ hready⟩

structure Stuck (b : Behaviour (watched T)) (n : Nat) : Prop where
  fair : Fair b
  reach : Reachable (watched T) (b.state 0)
  free : ∀ m, n ≤ m → (b.state m).base.state = 0 ∧ (b.state m).base.waiters ≠ []

section Stuck

variable {k : Nat} (h : Stuck b n) (hk : n ≤ k)

include h hk

theorem Stuck.advance {p : Pc T} (hp : (b.state k).base.pc t = p) (hidle : p ≠ .idle)
    (hasleep : p = .asleep → t ∈ (b.state k).base.ready) :
    ∃ m, n ≤ m ∧ (b.state m).base.pc t = p ∧ (t ∈ (b.state k).base.ready → t ∈ (b.state m).base.ready) ∧
      Mutex.advance (b.state m).base t = some (b.state (m + 1)).base := by
  obtain ⟨m, hm, hpc, hready, hs⟩ := h.fair.advance h.reach (n := k) (t := t) ⟨hp ▸ hidle, hp ▸ hasleep⟩
  exact ⟨m, hk.trans hm, hpc.trans hp, hready, hs⟩

theorem Stuck.not_slowStore : (b.state k).base.pc t ≠ .slowStore := by
  intro hp
  obtain ⟨m, hm, hpc, -, hs⟩ := h.advance hk hp (by simp) (by simp)
  simp only [Mutex.advance, hpc, Option.some.injEq] at hs
  have := (h.free (m + 1) (by omega)).1
  rw [← hs] at this
  cases this

theorem Stuck.not_slowLoad : (b.state k).base.pc t ≠ .slowLoad := by
  intro hp
  obtain ⟨m, hm, hpc, -, hs⟩ := h.advance hk hp (by simp) (by simp)
  simp only [Mutex.advance, hpc, (h.free m (by omega)).1, if_true, Option.some.injEq] at hs
  refine h.not_slowStore (k := m + 1) (t := t) (by omega) ?_
  rw [← hs]
  simp

theorem Stuck.not_slowAcquire : (b.state k).base.pc t ≠ .slowAcquire := by
  intro hp
  obtain ⟨m, hm, hpc, -, hs⟩ := h.advance hk hp (by simp) (by simp)
  simp only [Mutex.advance, hpc] at hs
  split at hs
  · refine h.not_slowLoad (k := m + 1) (t := t) (by omega) ?_
    rw [← Option.some.inj hs]
    simp
  · cases hs

theorem Stuck.not_asleep (hr : t ∈ (b.state k).base.ready) : (b.state k).base.pc t ≠ .asleep := by
  intro hp
  obtain ⟨m, hm, hpc, hready, hs⟩ := h.advance hk hp (by simp) fun _ => hr
  simp only [Mutex.advance, hpc, if_pos (hready hr), Option.some.injEq] at hs
  refine h.not_slowAcquire (k := m + 1) (t := t) (by omega) ?_
  rw [← hs]
  simp

theorem Stuck.not_ready : t ∉ (b.state k).base.ready := by
  intro hr
  rcases (reachable_inv (b.reachable h.reach k)).resting hr with hp | hp
  · obtain ⟨m, hm, hpc, hready, hs⟩ := h.advance hk hp (by simp) (by simp)
    simp only [Mutex.advance, hpc, Option.some.injEq] at hs
    refine h.not_asleep (k := m + 1) (t := t) (by omega) ?_ ?_
    · rw [← hs]
      exact hready hr
    · rw [← hs]
      simp
  · exact h.not_asleep hk hr hp

theorem Stuck.not_unlockPush : (b.state k).base.pc t ≠ .unlockPush w := by
  intro hp
  obtain ⟨m, hm, hpc, -, hs⟩ := h.advance hk hp (by simp) (by simp)
  simp only [Mutex.advance, hpc, Option.some.injEq] at hs
  refine h.not_ready (k := m + 1) (t := w) (by omega) ?_
  rw [← hs]
  simp

theorem Stuck.not_unlockPop : (b.state k).base.pc t ≠ .unlockPop := by
  intro hp
  obtain ⟨m, hm, hpc, -, hs⟩ := h.advance hk hp (by simp) (by simp)
  simp only [Mutex.advance, hpc] at hs
  split at hs
  · next hnil => exact (h.free m (by omega)).2 hnil
  · next v vs hv =>
    refine h.not_unlockPush (k := m + 1) (t := t) (w := v) (by omega) ?_
    rw [← Option.some.inj hs]
    simp

end Stuck

theorem not_stuck : ¬ Stuck b n := by
  intro h
  have hI := reachable_inv (b.reachable h.reach n)
  obtain ⟨h0, hw⟩ := h.free n (Nat.le_refl n)
  rcases hI.heed h0 hw with hne | ⟨u, hu⟩ | ⟨u, hu⟩
  · obtain ⟨w, ws, hws⟩ := exists_cons_of_ne_nil hne
    obtain ⟨hq, hat⟩ := hI.ahead w (by simp [hws])
    rcases hat with hp | hp | hp
    · -- its ticket is not in the queue of waiters, so the task is ready or in the hand of an unlock
      have ht := hI.ticket w
      rw [if_pos hp, tickets, List.count_eq_zero.mpr hq, List.count_eq_zero.mpr (h.not_ready (Nat.le_refl n)), hand] at ht
      split at ht
      · omega
      · split at ht
        · next hu => exact h.not_unlockPush (Nat.le_refl n) hu
        · omega
    · exact h.not_slowAcquire (Nat.le_refl n) hp
    · exact h.not_slowLoad (Nat.le_refl n) hp
  · exact h.not_unlockPop (Nat.le_refl n) hu
  · exact h.not_slowStore (Nat.le_refl n) hu

end Fair

/-- Whenever the mutex is free and has waiters, a task that an unlock has popped
is on its way to look at it. So in a fair behaviour there is no time from which
on the mutex is free and has waiters. -/
theorem mutex_no_lost_wakeup {s : Watched T} (hs : Reachable (watched T) s) :
    NoLostWakeup s ∧ ∀ b : Behaviour (watched T), b.state 0 = s → Fair b → ∀ n, ∃ m, n ≤ m ∧
      ((b.state m).base.state ≠ 0 ∨ (b.state m).base.waiters = []) := by
  refine ⟨(reachable_inv hs).noLostWakeup, fun b hb hf n => ?_⟩
  by_contra hno
  push Not at hno
  exact not_stuck ⟨hf, hb ▸ hs, hno⟩

def wakeTrace : List (Act (Fin 3)) :=
  [.lock 0, .step 0] ++ [1, 2].flatMap (fun t => .lock t :: List.replicate 6 (.step t)) ++ .unlock 0 :: List.replicate 5 (.step 0)

/-- The second behaviour, in which a task takes the mutex, is fair. -/
theorem mutex_no_lost_wakeup_queued : (∃ s : Watched (Fin 3), Reachable (watched (Fin 3)) s ∧
      s.base.lock = none ∧ s.base.state = 0 ∧ s.base.waiters = [2] ∧ NoLostWakeup s) ∧
    ∃ b : Behaviour (watched (Fin 1)), Fair b ∧ (b.state 0).base.pc 0 = .fastCas ∧
      ∀ n, ∃ m, n ≤ m ∧ ((b.state m).base.state ≠ 0 ∨ (b.state m).base.waiters = []) := by
  constructor
  · have hx : (walk (watched (Fin 3)) wakeTrace ⟨create, []⟩).map
        (fun s => (s.base.lock, s.base.state, s.base.waiters)) = some (none, 0, [2]) := by decide
    obtain ⟨s, hr, he⟩ := exec_reads hx (.init rfl)
    simp only [Prod.mk.injEq] at he
    exact ⟨s, hr, he.1, he.2.1, he.2.2, (mutex_no_lost_wakeup hr).1⟩
  · have hx : (walk (watched (Fin 1)) [.lock 0] ⟨create, []⟩).bind (fun s => (watch s (.step 0)).map fun s' =>
        (s.base.pc 0, s'.base.pc 0)) = some (.fastCas, .idle) := by decide
    obtain ⟨s, hr, he⟩ := exec_reads_bind hx (.init rfl)
    obtain ⟨s', hs, he⟩ := map_eq_some_iff.mp he
    simp only [Prod.mk.injEq] at he
    have hf : Fair (Behaviour.single (M := watched (Fin 1)) hs) := by
      intro n t hrun
      obtain rfl : t = 0 := Subsingleton.elim _ _
      cases n with
      | zero => exact ⟨0, Nat.le_refl 0, rfl⟩
      | succ n => exact absurd he.2 hrun.1
    exact ⟨_, hf, he.1, (mutex_no_lost_wakeup hr).2 _ rfl hf⟩

end Picasso.Sync.MutexWakeup
