import Picasso.Sched.SingleRunner
import Mathlib.Data.Finset.Card

namespace Picasso.Sched.Shutdown

open Lib.Transition Tasking Placement NoLostTask SingleRunner Function Option Finset

variable {T : Type} [DecidableEq T]

/-- The scheduler with the kernel threads whose ready queues have been sent a
sentinel, in order. -/
structure Logged (T : Type) where
  base : State T
  pushed : List Nat

def Logged.note (s : Logged T) (a : Act T) : List Nat :=
  match a with
  | .sched k => match s.base.thread k with
    | .sentinel i => if i < SCHEDULER_THREAD_POOL_SIZE then s.pushed ++ [i] else s.pushed
    | _ => s.pushed
  | _ => s.pushed

def log (s : Logged T) (a : Act T) : Option (Logged T) := (step s.base a).map fun b => ⟨b, s.note a⟩

def logged (T : Type) [DecidableEq T] : Machine (Logged T) (Act T) :=
  ⟨fun s => ∃ t kid, kid < SCHEDULER_THREAD_POOL_SIZE ∧ s = ⟨start t kid, []⟩, log⟩

/-- Sentinels are pushed once and only when every task that was created has
finished; from then on no task is created or resumed. -/
structure Sound (s : Logged T) : Prop where
  once : s.pushed.Nodup
  finished : ∀ a s', log s a = some s' → s'.pushed ≠ s.pushed →
    ∀ t, s.base.status t = .absent ∨ s.base.status t = .finished
  closed : s.pushed ≠ [] → ∀ a s', log s a = some s' →
    (∀ t, s'.base.status t = .born → s.base.status t = .born) ∧
      ∀ k t, s'.base.thread k = .running t → s.base.thread k = .running t

section Counting

def alive : Status T → Bool
  | .live _ => true
  | _ => false

/-- The new task of a `thread` call that has counted it and not yet pushed it. -/
def publishing : Status T → Option T
  | .live (.spawnPush child _) => some child
  | _ => none

/-- The tasks that `task_count` counts: from the count in the `thread` call to
the one in the scheduler. -/
def Counted (s : State T) (t : T) : Prop :=
  alive (s.status t) = true ∨ (∃ u, publishing (s.status u) = some t) ∨ ∃ k, s.thread k = .destroy t

def CountExact (s : State T) : Prop := ∃ C : Finset T, (∀ t, t ∈ C ↔ Counted s t) ∧ s.taskCount = C.card

variable {s b : State T} {k : Nat} {t : T}

omit [DecidableEq T] in
theorem counted_congr (ha : ∀ u, alive (b.status u) = alive (s.status u))
    (hp : ∀ u, publishing (b.status u) = publishing (s.status u))
    (hd : ∀ u, (∃ k, b.thread k = .destroy u) ↔ ∃ k, s.thread k = .destroy u) (u : T) : Counted b u ↔ Counted s u := by
  simp only [Counted, ha, hp, hd]

variable {th : Thread T} {st : Status T} {child : T} {kid : Nat}

omit [DecidableEq T] in
theorem destroy_update (hk : ∀ u, s.thread k ≠ .destroy u) (hth : ∀ u, th ≠ .destroy u) (u : T) :
    (∃ j, update s.thread k th j = .destroy u) ↔ ∃ j, s.thread j = .destroy u := by
  constructor
  · rintro ⟨j, hj⟩
    by_cases hjk : j = k
    · subst hjk
      rw [update_self] at hj
      exact absurd hj (hth u)
    · rw [update_of_ne hjk] at hj
      exact ⟨j, hj⟩
  · rintro ⟨j, hj⟩
    have hjk : j ≠ k := by
      rintro rfl
      exact hk u hj
    exact ⟨j, by rw [update_of_ne hjk, hj]⟩

theorem restatus_same {α : Type} (f : Status T → α) {status : T → Status T} {st' : Status T} (hst : status t = st)
    (hf : f st' = f st) (u : T) : f (update status t st' u) = f (status u) := by
  by_cases hut : u = t
  · subst hut
    rw [update_self, hst, hf]
  · rw [update_of_ne hut]

section Counts

omit [DecidableEq T]

theorem CountExact.congr (h : CountExact s) (hc : b.taskCount = s.taskCount) (hb : ∀ u, Counted b u ↔ Counted s u) :
    CountExact b := by
  obtain ⟨C, hC, hn⟩ := h
  exact ⟨C, fun u => (hC u).trans (hb u).symm, hc.trans hn⟩

theorem CountExact.zero (h : CountExact s) (h0 : s.taskCount = 0) (u : T) : ¬ Counted s u := by
  obtain ⟨C, hC, hn⟩ := h
  have hempty : C = ∅ := Finset.card_eq_zero.mp (by omega)
  rw [← hC u, hempty]
  simp

theorem active_counted {p : Point T} (ha : Active s k t p) : Counted s t := .inl (by rw [ha.status]; rfl)

theorem publishing_spawning (h : publishing st = some child) : ∃ kid, spawning st = some (child, kid) := by
  unfold publishing at h
  split at h
  · next c kid =>
    cases h
    exact ⟨kid, rfl⟩
  · cases h

theorem publishing_of_quiet (h : spawning st = none) : publishing st = none := by
  by_contra hne
  obtain ⟨child, hc⟩ := Option.ne_none_iff_exists'.mp hne
  obtain ⟨kid, hk⟩ := publishing_spawning hc
  rw [h] at hk
  cases hk

end Counts

theorem child_uncounted (h : Tracked false s) (ha : Active s k t (.spawnCount child kid)) : ¬ Counted s child := by
  have hspawn : spawning (s.status t) = some (child, kid) := by rw [ha.status]; rfl
  obtain ⟨hborn, _⟩ := h.child t child kid hspawn
  rintro (hl | ⟨u, hu⟩ | ⟨j, hj⟩)
  · simp [hborn, alive] at hl
  · obtain ⟨n, hn⟩ := publishing_spawning hu
    have hut := h.parent u t child n kid hn hspawn
    rw [hut, ha.status] at hu
    cases hu
  · rw [(h.ending j child hj).1] at hborn
    cases hborn

theorem countExact_count (h : Tracked false s) (hC : CountExact s) (ha : Active s k t (.spawnCount child kid))
    (hs : b.status = update s.status t (.live (.spawnPush child kid))) (ht : b.thread = s.thread)
    (hc : b.taskCount = s.taskCount + 1) : CountExact b := by
  obtain ⟨C, hC, hn⟩ := hC
  have hnew : child ∉ C := fun hm => child_uncounted h ha ((hC child).mp hm)
  refine ⟨insert child C, fun u => ?_, by rw [hc, hn, card_insert_of_notMem hnew]; rfl⟩
  have halive : alive (b.status u) = alive (s.status u) := by
    rw [hs]
    exact restatus_same alive ha.status (by rfl) u
  have hpub : (∃ v, publishing (b.status v) = some u) ↔ u = child ∨ ∃ v, publishing (s.status v) = some u := by
    have hother {v : T} (hv : v ≠ t) : b.status v = s.status v := by rw [hs, update_of_ne hv]
    have hself : b.status t = .live (.spawnPush child kid) := by rw [hs, update_self]
    constructor
    · rintro ⟨v, hv⟩
      by_cases hvt : v = t
      · rw [hvt, hself] at hv
        exact .inl (Option.some.inj hv).symm
      · exact .inr ⟨v, by rwa [hother hvt] at hv⟩
    · rintro (rfl | ⟨v, hv⟩)
      · exact ⟨t, by rw [hself]; rfl⟩
      · refine ⟨v, ?_⟩
        rw [hother, hv]
        rintro rfl
        rw [ha.status] at hv
        cases hv
  rw [mem_insert, hC u, Counted, Counted, halive, hpub, ht]
  tauto

theorem countExact_publish (hC : CountExact s) (ha : Active s k t (.spawnPush child kid))
    (hborn : s.status child = .born)
    (hs : b.status = update (update s.status child (.live .code)) t (.live .code))
    (ht : b.thread = s.thread) (hc : b.taskCount = s.taskCount) : CountExact b := by
  have hct : child ≠ t := by
    rintro rfl
    rw [ha.status] at hborn
    cases hborn
  have hother {v : T} (hv : v ≠ t) (hvc : v ≠ child) : b.status v = s.status v := by
    rw [hs, update_of_ne hv, update_of_ne hvc]
  have hself : b.status t = .live .code := by rw [hs, update_self]
  have hchild : b.status child = .live .code := by rw [hs, update_of_ne hct, update_self]
  refine hC.congr hc fun u => ?_
  by_cases huc : u = child
  · subst huc
    have hold : Counted s u := .inr (.inl ⟨t, by rw [ha.status]; rfl⟩)
    exact ⟨fun _ => hold, fun _ => .inl (by rw [hchild]; rfl)⟩
  · have halive : alive (b.status u) = alive (s.status u) := by
      by_cases hut : u = t
      · rw [hut, hself, ha.status]
        rfl
      · rw [hother hut huc]
    have hpub (v : T) : publishing (b.status v) = some u ↔ publishing (s.status v) = some u := by
      by_cases hvt : v = t
      · rw [hvt, hself, ha.status]
        simp [publishing, Ne.symm huc]
      · by_cases hvc : v = child
        · rw [hvc, hchild, hborn]
          simp [publishing]
        · rw [hother hvt hvc]
    simp only [Counted, halive, hpub, ht]

theorem countExact_finish (hC : CountExact s) (ha : Active s k t .code)
    (hs : b.status = update s.status t .finished) (ht : b.thread = update s.thread k (.destroy t))
    (hc : b.taskCount = s.taskCount) : CountExact b := by
  refine hC.congr hc fun u => ?_
  have hpub (v : T) : publishing (b.status v) = publishing (s.status v) := by
    rw [hs]
    exact restatus_same publishing ha.status (by rfl) v
  by_cases hut : u = t
  · subst hut
    exact ⟨fun _ => active_counted ha, fun _ => .inr (.inr ⟨k, by rw [ht, update_self]⟩)⟩
  · have halive : alive (b.status u) = alive (s.status u) := by rw [hs, update_of_ne hut]
    have hd : (∃ j, b.thread j = .destroy u) ↔ ∃ j, s.thread j = .destroy u := by
      constructor
      · rintro ⟨j, hj⟩
        rw [ht] at hj
        by_cases hjk : j = k
        · rw [hjk, update_self] at hj
          cases hj
          exact absurd rfl hut
        · exact ⟨j, by rwa [update_of_ne hjk] at hj⟩
      · rintro ⟨j, hj⟩
        refine ⟨j, ?_⟩
        rw [ht, update_of_ne, hj]
        rintro rfl
        rw [ha.thread] at hj
        cases hj
    simp only [Counted, halive, hpub, hd]

theorem countExact_destroy (h : Tracked false s) (hC : CountExact s) (hk : s.thread k = .destroy t)
    (hth : ∀ u, th ≠ .destroy u) (hs : b.status = update s.status t .absent)
    (ht : b.thread = update s.thread k th) (hc : b.taskCount = s.taskCount - 1) : CountExact b := by
  obtain ⟨C, hC, hn⟩ := hC
  obtain ⟨hfin, hid⟩ := h.ending k t hk
  have hmem : t ∈ C := (hC t).mpr (.inr (.inr ⟨k, hk⟩))
  have hpos := Finset.card_pos.mpr ⟨t, hmem⟩
  refine ⟨C.erase t, fun u => ?_, by rw [hc, hn, card_erase_of_mem hmem]; omega⟩
  have hpub (v : T) : publishing (b.status v) = publishing (s.status v) := by
    rw [hs]
    exact restatus_same publishing hfin (by rfl) v
  have hother {j : Nat} (hj : j ≠ k) : b.thread j = s.thread j := by rw [ht, update_of_ne hj]
  have hself : b.thread k = th := by rw [ht, update_self]
  rw [Finset.mem_erase, hC u]
  by_cases hut : u = t
  · subst hut
    refine ⟨fun hu => absurd rfl hu.1, ?_⟩
    rintro (hl | ⟨v, hv⟩ | ⟨j, hj⟩)
    · rw [hs, update_self] at hl
      cases hl
    · rw [hpub] at hv
      obtain ⟨n, hn⟩ := publishing_spawning hv
      rw [(h.child v u n hn).1] at hfin
      cases hfin
    · exfalso
      by_cases hjk : j = k
      · rw [hjk, hself] at hj
        exact hth u hj
      · rw [hother hjk] at hj
        exact hjk ((h.ending j u hj).2.symm.trans hid)
  · have halive : alive (b.status u) = alive (s.status u) := by rw [hs, update_of_ne hut]
    have hd : (∃ j, b.thread j = .destroy u) ↔ ∃ j, s.thread j = .destroy u := by
      constructor
      · rintro ⟨j, hj⟩
        by_cases hjk : j = k
        · rw [hjk, hself] at hj
          exact absurd hj (hth u)
        · exact ⟨j, by rwa [hother hjk] at hj⟩
      · rintro ⟨j, hj⟩
        refine ⟨j, ?_⟩
        rw [hother, hj]
        rintro rfl
        rw [hk] at hj
        cases hj
        exact hut rfl
    simp only [Counted, halive, hpub, hd, hut, ne_eq, not_false_eq_true, true_and]

theorem countExact_step (h : Tracked false s) (hC : CountExact s) {a : Act T} (he : Effect s b a) : CountExact b := by
  cases he with
  | quiet hs ht hc =>
    exact hC.congr hc (counted_congr (by simp [hs]) (by simp [hs]) (by simp [ht]))
  | run _ ha hp hq hs ht hc =>
    refine hC.congr hc (counted_congr (fun u => ?_) (fun u => ?_) (by simp [ht]))
    · rw [hs]
      exact restatus_same alive ha.status (by rfl) u
    · rw [hs]
      refine restatus_same publishing ha.status ?_ u
      rw [publishing_of_quiet hp, publishing_of_quiet hq]
  | @yield _ _ _ next ha hs ht hc =>
    refine hC.congr hc (counted_congr (fun u => ?_) (fun u => ?_) (fun u => ?_))
    · rw [hs]
      exact restatus_same alive ha.status (by rfl) u
    · rw [hs]
      refine restatus_same publishing ha.status ?_ u
      cases next <;> rfl
    · rcases ht with ht | ht
      · rw [ht]
      · rw [ht, h.schedId ha]
        exact destroy_update (by simp [ha.thread]) (by simp) u
  | @create _ _ t child kid ha hb hs ht hc =>
    have hct : child ≠ t := by
      rintro rfl
      rw [ha.status] at hb
      cases hb
    have hold : update s.status t (.live (.spawnCount child kid)) child = .absent := by
      rw [update_of_ne hct, hb]
    refine hC.congr hc (counted_congr (fun u => ?_) (fun u => ?_) (by simp [ht]))
    · rw [hs, restatus_same alive hold (by rfl) u]
      exact restatus_same alive ha.status (by rfl) u
    · rw [hs, restatus_same publishing hold (by rfl) u]
      exact restatus_same publishing ha.status (by rfl) u
  | count ha hs ht hc => exact countExact_count h hC ha hs ht hc
  | @publish _ _ t child kid ha hs ht hc =>
    exact countExact_publish hC ha (h.child t child kid (congrArg spawning ha.status)).1 hs ht hc
  | finish ha hs ht hc => exact countExact_finish hC ha hs ht hc
  | resume hk _ hs ht hc | sentinel hk _ hs ht hc =>
    refine hC.congr hc (counted_congr (by simp [hs]) (by simp [hs]) (fun u => ?_))
    rw [ht]
    exact destroy_update (by simp [hk]) (by simp) u
  | exit hk hs ht hc =>
    refine hC.congr hc (counted_congr (by simp [hs]) (by simp [hs]) (fun u => ?_))
    rw [ht]
    refine destroy_update (fun v hv => ?_) (by simp) u
    rcases hk with hk | ⟨i, hk⟩ <;> rw [hk] at hv <;> cases hv
  | destroy hk hs ht hc =>
    refine countExact_destroy h hC hk (fun u => ?_) hs ht hc
    split <;> simp
  | recheck hk hs ht hc =>
    refine hC.congr hc (counted_congr (by simp [hs]) (by simp [hs]) (fun u => ?_))
    rw [ht]
    refine destroy_update (by simp [hk]) (fun v => ?_) u
    split <;> simp

end Counting

section Parents

/-- A task that is created and not yet pushed is in the hands of a `thread` call. -/
def Parented (s : State T) : Prop := ∀ c, s.status c = .born → ∃ u kid, spawning (s.status u) = some (c, kid)

variable {s b : State T} {t : T}

theorem Parented.restatus (h : Parented s) {st st' : Status T} (hst : s.status t = st)
    (hs : b.status = update s.status t st') (hsp : spawning st' = spawning st) (hb : st' ≠ .born) :
    Parented b := by
  intro c hc
  have hct : c ≠ t := by
    rintro rfl
    rw [hs, update_self] at hc
    exact hb hc
  rw [hs, update_of_ne hct] at hc
  obtain ⟨u, kid, hu⟩ := h c hc
  refine ⟨u, kid, ?_⟩
  rw [hs, restatus_same spawning hst hsp u, hu]

theorem Parented.create (h : Parented s) {k : Nat} {child : T} {kid : Nat} (ha : Active s k t .code)
    (hb : s.status child = .absent)
    (hs : b.status = update (update s.status t (.live (.spawnCount child kid))) child .born) :
    Parented b := by
  have hct : child ≠ t := by
    rintro rfl
    rw [ha.status] at hb
    cases hb
  have hother {u : T} (hu : u ≠ child) (hut : u ≠ t) : b.status u = s.status u := by
    rw [hs, update_of_ne hu, update_of_ne hut]
  have hself : b.status t = .live (.spawnCount child kid) := by
    rw [hs, update_of_ne hct.symm, update_self]
  intro c hc
  by_cases hcc : c = child
  · subst hcc
    exact ⟨t, kid, by rw [hself]; rfl⟩
  · have hcT : c ≠ t := by
      rintro rfl
      rw [hself] at hc
      cases hc
    rw [hother hcc hcT] at hc
    obtain ⟨u, n, hu⟩ := h c hc
    refine ⟨u, n, ?_⟩
    rw [hother, hu]
    · rintro rfl
      rw [hb] at hu
      cases hu
    · rintro rfl
      rw [ha.status] at hu
      cases hu

theorem Parented.publish (h : Parented s) {k : Nat} {child : T} {kid : Nat} (ha : Active s k t (.spawnPush child kid))
    (hb : s.status child = .born)
    (hs : b.status = update (update s.status child (.live .code)) t (.live .code)) : Parented b := by
  have hother {u : T} (hut : u ≠ t) (hu : u ≠ child) : b.status u = s.status u := by
    rw [hs, update_of_ne hut, update_of_ne hu]
  intro c hc
  have hct : c ≠ t := by
    rintro rfl
    rw [hs, update_self] at hc
    cases hc
  have hcc : c ≠ child := by
    rintro rfl
    rw [hs, update_of_ne hct, update_self] at hc
    cases hc
  rw [hother hct hcc] at hc
  obtain ⟨u, n, hu⟩ := h c hc
  refine ⟨u, n, ?_⟩
  rw [hother, hu]
  · rintro rfl
    rw [ha.status] at hu
    cases hu
    exact hcc rfl
  · rintro rfl
    rw [hb] at hu
    cases hu

theorem parented_step (ht : Tracked false s) (h : Parented s) {a : Act T} (he : Effect s b a) : Parented b := by
  cases he with
  | quiet hs | resume _ _ hs | exit _ hs | recheck _ hs | sentinel _ _ hs =>
    intro c
    rw [hs]
    exact h c
  | run _ ha hp hq hs => exact h.restatus ha.status hs (hq.trans hp.symm) (by simp)
  | yield ha hs => exact h.restatus ha.status hs (point_quiet _).2.2 (by simp)
  | count ha hs | finish ha hs => exact h.restatus ha.status hs rfl (by simp)
  | destroy hk hs => exact h.restatus (ht.ending _ _ hk).1 hs rfl (by simp)
  | create ha hb hs => exact h.create ha hb hs
  | @publish _ _ t child kid ha hs =>
    exact h.publish ha (ht.child t child kid (congrArg spawning ha.status)).1 hs

end Parents

section Sentinels

/-- The kernel thread has taken the count to zero and is about to send the sentinels. -/
def closing : Thread T → Bool
  | .recheck | .sentinel _ => true
  | _ => false

structure Inv (s : Logged T) (n : Nat) : Prop where
  tracked : Tracked false s.base
  count : CountExact s.base
  parented : Parented s.base
  zero : (s.pushed ≠ [] ∨ ∃ k, closing (s.base.thread k) = true) → s.base.taskCount = 0
  alone : ∀ j k, closing (s.base.thread j) = true → closing (s.base.thread k) = true → j = k
  sent : s.pushed = List.range n
  recheck : ∀ k, s.base.thread k = .recheck → n = 0
  sentinel : ∀ k i, s.base.thread k = .sentinel i → n = i

def Pushes (s : State T) (a : Act T) : Prop :=
  ∃ k i, a = .sched k ∧ s.thread k = .sentinel i ∧ i < SCHEDULER_THREAD_POOL_SIZE

variable {s : Logged T} {b : State T} {a : Act T} {n : Nat}

omit [DecidableEq T] in
theorem note_of_not_pushes (h : ¬ Pushes s.base a) : s.note a = s.pushed := by
  unfold Logged.note
  split
  · next k =>
    split
    · next i hk => rw [if_neg fun hi => h ⟨k, i, rfl, hk, hi⟩]
    · rfl
  · rfl

theorem Inv.over (h : Inv s n) (h0 : s.base.taskCount = 0) (t : T) :
    s.base.status t = .absent ∨ s.base.status t = .finished := by
  have hdead : ∀ u, alive (s.base.status u) = false := by
    intro u
    have hnot := h.count.zero h0 u
    exact Bool.eq_false_iff.mpr fun hu => hnot (.inl hu)
  cases hst : s.base.status t with
  | absent => exact .inl rfl
  | finished => exact .inr rfl
  | live p =>
    have := hdead t
    rw [hst] at this
    cases this
  | born =>
    obtain ⟨u, kid, hu⟩ := h.parented t hst
    have := hdead u
    cases hsu : s.base.status u <;> rw [hsu] at hu this
    · cases hu
    · cases hu
    · cases this
    · cases hu

theorem Inv.inactive (h : Inv s n) (h0 : s.base.taskCount = 0) {k : Nat} {t : T} {p : Point T} :
    ¬ Active s.base k t p := fun ha => h.count.zero h0 t (active_counted ha)

theorem Inv.still (h : Inv s n) (h0 : s.base.taskCount = 0) (he : Effect s.base b a) :
    b.status = s.base.status ∧ ∀ k t, b.thread k = .running t → s.base.thread k = .running t := by
  constructor
  · cases he with
    | quiet hs | resume _ _ hs | exit _ hs | recheck _ hs | sentinel _ _ hs => exact hs
    | run _ ha | yield ha | create ha | count ha | publish ha | finish ha => exact absurd ha (h.inactive h0)
    | destroy hk => exact absurd (.inr (.inr ⟨_, hk⟩)) (h.count.zero h0 _)
  · intro k t hk
    by_contra hn
    obtain ⟨_, l, hq⟩ := he.popped hk hn
    have hm : some t ∈ spots s.base.queue s.base.prepared (.inl (.ready k)) := by simp [spots, hq]
    obtain ⟨p, hp⟩ := (h.tracked.located t).live hm
    exact h.count.zero h0 t (.inl (by rw [hp]; rfl))

theorem Inv.keep (h : Inv s n) (ht : Tracked false b) (hc : CountExact b) (hp : Parented b)
    (hz : s.base.taskCount = 0 → b.taskCount = 0)
    (hsub : ∀ j, closing (b.thread j) = true → b.thread j = s.base.thread j) : Inv ⟨b, s.pushed⟩ n where
  tracked := ht
  count := hc
  parented := hp
  zero := by
    rintro (hne | ⟨k, hk⟩)
    · exact hz (h.zero (.inl hne))
    · exact hz (h.zero (.inr ⟨k, hsub k hk ▸ hk⟩))
  alone j k hj hk := h.alone j k (hsub j hj ▸ hj) (hsub k hk ▸ hk)
  sent := h.sent
  recheck k hk := h.recheck k ((hsub k (by rw [hk]; rfl)).symm.trans hk)
  sentinel k i hk := h.sentinel k i ((hsub k (by rw [hk]; rfl)).symm.trans hk)

variable {th : Thread T}

theorem Inv.advance {k m : Nat} {pushed : List Nat} (ht : Tracked false b) (hc : CountExact b) (hp : Parented b)
    (hth : b.thread = update s.base.thread k th) (hk : ∀ j, j ≠ k → closing (s.base.thread j) = false)
    (h0 : b.taskCount = 0) (hsent : pushed = List.range m) (hr : th = .recheck → m = 0)
    (hi : ∀ i, th = .sentinel i → m = i) : Inv ⟨b, pushed⟩ m := by
  have hself : b.thread k = th := by rw [hth, update_self]
  have honly {j : Nat} (hj : closing (b.thread j) = true) : j = k := by
    by_contra hne
    rw [hth, update_of_ne hne, hk j hne] at hj
    cases hj
  refine ⟨ht, hc, hp, fun _ => h0, fun i j hi hj => (honly hi).trans (honly hj).symm, hsent, ?_, ?_⟩
  · intro j hj
    have hj : b.thread j = .recheck := hj
    obtain rfl : j = k := honly (by rw [hj]; rfl)
    exact hr (hself.symm.trans hj)
  · intro j i hj
    have hj : b.thread j = .sentinel i := hj
    obtain rfl : j = k := honly (by rw [hj]; rfl)
    exact hi i (hself.symm.trans hj)

omit [DecidableEq T] in
theorem closing_update {k : Nat} (hth : closing th = false) (h : b.thread = update s.base.thread k th)
    (j : Nat) (hj : closing (b.thread j) = true) : b.thread j = s.base.thread j := by
  have hjk : j ≠ k := by
    rintro rfl
    rw [h, update_self, hth] at hj
    cases hj
  rw [h, update_of_ne hjk]

theorem inv_effect (h : Inv s n) (ht : Tracked false b) (he : Effect s.base b a) (hn : ¬ Pushes s.base a) :
    Inv ⟨b, s.pushed⟩ n := by
  have hc := countExact_step h.tracked h.count he
  have hp := parented_step h.tracked h.parented he
  cases he with
  | quiet _ hth hcount | run _ _ _ _ _ hth hcount | create _ _ _ hth hcount | publish _ _ hth hcount =>
    exact h.keep ht hc hp (by rw [hcount]; exact id) fun j _ => by rw [hth]
  | count ha _ hth => exact h.keep ht hc hp (fun h0 => absurd ha (h.inactive h0)) fun j _ => by rw [hth]
  | yield _ _ hth hcount =>
    refine h.keep ht hc hp (by rw [hcount]; exact id) ?_
    rcases hth with hth | hth
    · exact fun j _ => by rw [hth]
    · exact closing_update rfl hth
  | finish _ _ hth hcount | resume _ _ _ hth hcount | exit _ _ hth hcount =>
    exact h.keep ht hc hp (by rw [hcount]; exact id) (closing_update rfl hth)
  | @destroy k t hk _ hth hcount =>
    have hpos : s.base.taskCount ≠ 0 := fun h0 => h.count.zero h0 t (.inr (.inr ⟨k, hk⟩))
    by_cases h1 : s.base.taskCount - 1 = 0
    · rw [if_pos h1] at hth
      -- the one that takes the count to zero is the first to close
      have hopen : ∀ j, closing (s.base.thread j) = false :=
        fun j => Bool.eq_false_iff.mpr fun hj => hpos (h.zero (.inr ⟨j, hj⟩))
      have hnil : s.pushed = [] := by
        by_contra hne
        exact hpos (h.zero (.inl hne))
      have hn0 : n = 0 := List.range_eq_nil.mp (h.sent.symm.trans hnil)
      exact .advance ht hc hp hth (fun j _ => hopen j) (hcount.trans h1) h.sent (fun _ => hn0) (by simp)
    · rw [if_neg h1] at hth
      exact h.keep ht hc hp (fun h0 => absurd h0 hpos) (closing_update rfl hth)
  | @recheck k hk _ hth hcount =>
    have hclosing : closing (s.base.thread k) = true := by rw [hk]; rfl
    have h0 := h.zero (.inr ⟨k, hclosing⟩)
    rw [if_pos h0] at hth
    refine .advance ht hc hp hth (fun j hj => ?_) (hcount.trans h0) h.sent (by simp) ?_
    · exact Bool.eq_false_iff.mpr fun hc => hj (h.alone j k hc hclosing)
    · intro i hi
      cases hi
      exact h.recheck k hk
  | @sentinel k i hk hi => exact absurd ⟨k, i, rfl, hk, hi⟩ hn

theorem inv_step {s' : Logged T} (h : Inv s n) (hok : Submits s.base a) (hs : log s a = some s') : ∃ m, Inv s' m := by
  obtain ⟨b, hb, rfl⟩ := map_eq_some_iff.mp hs
  have ht := tracked_step h.tracked (by simp) hok hb
  have he := step_effect hb
  by_cases hp : Pushes s.base a
  · obtain ⟨k, i, rfl, hk, hi⟩ := hp
    have hclosing : closing (s.base.thread k) = true := by rw [hk]; rfl
    have hnote : s.note (.sched k) = s.pushed ++ [i] := by simp [Logged.note, hk, hi]
    have hth : b.thread = update s.base.thread k (.sentinel (i + 1)) ∧ b.taskCount = s.base.taskCount := by
      simp only [step, schedStep, hk, if_pos hi] at hb
      cases hb
      exact ⟨rfl, rfl⟩
    refine ⟨i + 1, .advance ht (countExact_step h.tracked h.count he) (parented_step h.tracked h.parented he) hth.1
      (fun j hj => ?_) (hth.2.trans (h.zero (.inr ⟨k, hclosing⟩))) ?_ (by simp) (by simp)⟩
    · exact Bool.eq_false_iff.mpr fun hc => hj (h.alone j k hc hclosing)
    · rw [hnote, h.sent, h.sentinel k i hk, List.range_succ]
  · rw [note_of_not_pushes hp]
    exact ⟨n, inv_effect h ht he hp⟩

theorem sound_of_inv (h : Inv s n) : Sound s where
  once := by
    rw [h.sent]
    exact List.nodup_range
  finished := by
    intro a s' hs hne
    obtain ⟨b, _, rfl⟩ := map_eq_some_iff.mp hs
    have hp : Pushes s.base a := by
      by_contra hp
      exact hne (note_of_not_pushes hp)
    obtain ⟨k, i, _, hk, _⟩ := hp
    exact h.over (h.zero (.inr ⟨k, by rw [hk]; rfl⟩))
  closed := by
    intro hne a s' hs
    obtain ⟨b, hb, rfl⟩ := map_eq_some_iff.mp hs
    obtain ⟨hst, hth⟩ := h.still (h.zero (.inl hne)) (step_effect hb)
    exact ⟨fun t ht => by rw [← hst]; exact ht, hth⟩

theorem inv_start (t : T) (kid : Nat) : Inv ⟨start t kid, []⟩ 0 := by
  have hopen : ∀ k, closing ((start t kid).thread k) = false ∧ ∀ u, (start t kid).thread k ≠ .destroy u := by
    intro k
    simp only [start]
    split <;> simp [closing]
  have hstatus : ∀ u, (start t kid).status u = if u = t then .live .code else .absent := by
    intro u
    by_cases hu : u = t <;> simp [start, hu]
  refine ⟨tracked_start false t kid, ⟨{t}, fun u => ?_, rfl⟩, ?_, ?_, ?_, rfl, fun _ _ => rfl, ?_⟩
  · simp only [Counted, hstatus, mem_singleton]
    constructor
    · rintro rfl
      simp [alive]
    · rintro (hl | ⟨v, hv⟩ | ⟨k, hk⟩)
      · by_contra hu
        simp [hu, alive] at hl
      · split at hv <;> cases hv
      · exact absurd hk ((hopen k).2 u)
  · intro c hc
    simp only [hstatus] at hc
    split at hc <;> cases hc
  · rintro (hne | ⟨k, hk⟩)
    · exact absurd rfl hne
    · rw [(hopen k).1] at hk
      cases hk
  · intro j k hj
    rw [(hopen j).1] at hj
    cases hj
  · intro k i hk
    have := (hopen k).1
    rw [hk] at this
    cases this

/-- The shutdown is sound in every run in which no submit fails that an
operation goes on after. -/
theorem shutdown_sound (h : Run (logged T) (fun s a => Submits s.base a) s) : Sound s := by
  have hi : ∃ n, Inv s n := by
    refine h.invariant (I := fun s => ∃ n, Inv s n) ?_ ?_
    · rintro s ⟨t, kid, _, rfl⟩
      exact ⟨0, inv_start t kid⟩
    · rintro s a s' ⟨n, hn⟩ hok hs
      exact inv_step hn hok hs
  obtain ⟨n, hn⟩ := hi
  exact sound_of_inv hn

end Sentinels

/-- The first task spawns a second one and both finish; the second finishes
last and its kernel thread sends the sentinels. -/
theorem shutdown_sound_two :
    ∃ s : Logged (Fin 2), Run (logged (Fin 2)) (fun s a => Submits s.base a) s ∧ s.pushed = List.range 12 ∧ Sound s := by
  have hx : (exec (logged (Fin 2)) (fun s a => Submits s.base a)
      (.sched 0 :: spawnOn 0 1 1 ++ [.call 0 .finish, .sched 0, .sched 1, .call 1 .finish] ++
        List.replicate 14 (.sched 1)) ⟨start 0 0, []⟩).map Logged.pushed = some (List.range 12) := by decide
  obtain ⟨s, hr, he⟩ := exec_reads hx (.init ⟨0, 0, by decide, rfl⟩)
  exact ⟨s, hr, he, shutdown_sound hr⟩

/-- The second completion of a task that has finished puts it into the ready
queue ahead of the sentinel. -/
theorem resumed_after_shutdown : ¬ ∀ s : Logged (Fin 2), Reachable (logged (Fin 2)) s → Sound s := by
  intro h
  have hx : ((walk (logged (Fin 2))
      (.sched 0 :: spawnOn 0 1 1 ++ .sched 1 :: diskWrite 1 (.failed 11) ++ diskWrite 1 (.accepted 2) ++
        [.step 1 .ok, .diskio 1 1 4, .sched 1, .diskio 1 1 4, .call 1 .finish, .sched 1, .call 0 .finish] ++
        List.replicate 14 (.sched 0)) ⟨start 0 0, []⟩).bind fun s =>
      (log s (.sched 1)).map fun s' => (s.pushed, s.base.thread 1, s'.base.thread 1)) =
      some (List.range 12, .popWait, .running 1) := by decide
  obtain ⟨s, hr, hx⟩ := exec_reads_bind hx (.init ⟨0, 0, by decide, rfl⟩)
  obtain ⟨s', hs', he⟩ := Option.map_eq_some_iff.mp hx
  simp only [Prod.mk.injEq] at he
  have hrun := ((h s hr).closed (by simp [he.1]) _ s' hs').2 1 1 he.2.2
  rw [he.2.1] at hrun
  cases hrun

end Picasso.Sched.Shutdown
