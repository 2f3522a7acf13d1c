import Picasso.Sched.Tasking

namespace Picasso.Sched.Placement

open Lib.Queues Tasking Function List

variable {T : Type} [DecidableEq T]

/-- The task has handed itself over and has only its switch ahead. -/
def leaving : Point T → Bool
  | .switch _ | .netPush => true
  | _ => false

/-- The task has taken a submission entry and not yet submitted it. -/
def pending : Status T → Bool
  | .live (.ioPush _) | .live (.submit _) => true
  | _ => false

def spawning : Status T → Option (T × Nat)
  | .live (.spawnCount child kid) | .live (.spawnPush child kid) => some (child, kid)
  | _ => none

/-- A queue, or the entries of a ring that are prepared and not yet submitted. -/
abbrev Spot := Place ⊕ Nat

@[simp] def spots (queue : Place → List (Option T)) (prepared : Nat → List T) : Spot → List (Option T)
  | .inl p => queue p
  | .inr k => (prepared k).map some

section Spots

variable (queue : Place → List (Option T)) (prepared : Nat → List T)

omit [DecidableEq T] in
theorem spots_push (p : Place) (a : Option T) :
    spots (push queue p a) prepared = push (spots queue prepared) (.inl p) a := by
  funext r
  cases r with
  | inl r =>
    by_cases hr : r = p
    · subst hr
      simp [push]
    · simp [push, hr]
  | inr k => simp [push]

theorem spots_remove (p : Place) (a : Option T) :
    spots (remove queue p a) prepared = remove (spots queue prepared) (.inl p) a := by
  funext r
  cases r with
  | inl r =>
    by_cases hr : r = p
    · subst hr
      simp [remove]
    · simp [remove, hr]
  | inr k => simp [remove]

omit [DecidableEq T] in
theorem spots_prepare (k : Nat) (t : T) :
    spots queue (update prepared k (prepared k ++ [t])) = push (spots queue prepared) (.inr k) (some t) := by
  funext r
  cases r with
  | inl r => simp [push]
  | inr j =>
    by_cases hj : j = k
    · subst hj
      simp [push]
    · simp [push, hj]

/-- The spots after the first `n` prepared entries of ring `k` have been submitted. -/
def submitted (k n : Nat) : Spot → List (Option T) :=
  spots (update queue (.ring k) (queue (.ring k) ++ ((prepared k).take n).map some))
    (update prepared k ((prepared k).drop n))

theorem tally_prepared (k : Nat) (u : T) : tally (spots queue prepared) (some u) (.inr k) = (prepared k).count u := by
  simp only [tally, spots]
  induction prepared k with
  | nil => rfl
  | cons v l ih => simp [count_cons, ih]

variable (k n : Nat) (u : T)

theorem tally_submitted_ring : tally (submitted queue prepared k n) (some u) (.inl (.ring k)) =
    tally (spots queue prepared) (some u) (.inl (.ring k)) + ((prepared k).take n).count u := by
  have hm := tally_prepared queue (fun k => (prepared k).take n) k u
  simp only [tally, submitted, spots, update_self, count_append] at hm ⊢
  rw [hm]

theorem tally_submitted_left : tally (submitted queue prepared k n) (some u) (.inr k) = ((prepared k).drop n).count u := by
  rw [submitted, tally_prepared, update_self]

theorem tally_submitted_ne (a : Option T) (r : Spot) (hq : r ≠ .inl (.ring k)) (hp : r ≠ .inr k) :
    tally (submitted queue prepared k n) a r = tally (spots queue prepared) a r := by
  cases r with
  | inl r =>
    have hr : r ≠ .ring k := fun e => hq (e ▸ rfl)
    simp [tally, submitted, hr]
  | inr j =>
    have hj : j ≠ k := fun e => hp (e ▸ rfl)
    simp [tally, submitted, hj]

theorem tally_submitted_sum :
    tally (submitted queue prepared k n) (some u) (.inl (.ring k)) + tally (submitted queue prepared k n) (some u) (.inr k) =
      tally (spots queue prepared) (some u) (.inl (.ring k)) + tally (spots queue prepared) (some u) (.inr k) := by
  rw [tally_submitted_ring, tally_submitted_left, tally_prepared, Nat.add_assoc, ← count_append,
    take_append_drop]

variable {queue prepared u}

theorem once_submitted (h : Once (spots queue prepared) (some u)) : Once (submitted queue prepared k n) (some u) :=
  h.shift (by simp) (tally_submitted_sum queue prepared k n u) (tally_submitted_ne queue prepared k n (some u))

theorem submitted_of_not_mem (h : u ∉ prepared k) (r : Spot) :
    tally (submitted queue prepared k n) (some u) r = tally (spots queue prepared) (some u) r := by
  by_cases hq : r = .inl (.ring k)
  · rw [hq, tally_submitted_ring, List.count_eq_zero.mpr fun hm => h (mem_of_mem_take hm), Nat.add_zero]
  · by_cases hp : r = .inr k
    · rw [hp, tally_submitted_left, tally_prepared, List.count_eq_zero.mpr h,
        List.count_eq_zero.mpr fun hm => h (mem_of_mem_drop hm)]
    · exact tally_submitted_ne queue prepared k n _ r hq hp

theorem onlyAt_submitted (h : OnlyAt (spots queue prepared) (some u) (.inr k)) (hu : prepared k = [u]) :
    OnlyAt (submitted queue prepared k 1) (some u) (.inl (.ring k)) := by
  refine ⟨?_, fun r hr => ?_⟩
  · rw [tally_submitted_ring, h.other _ (by simp), hu]
    simp
  · by_cases hp : r = .inr k
    · rw [hp, tally_submitted_left, hu]
      rfl
    · rw [tally_submitted_ne queue prepared k 1 _ r hr hp, h.other r hp]

end Spots

/-- A task that has handed itself over is in one spot at most; in a strict
account it is in a queue. -/
def Held (strict : Bool) (q : Spot → List (Option T)) (t : T) : Prop :=
  match strict with
  | true => ∃ r : Place, OnlyAt q (some t) (.inl r)
  | false => Once q (some t)

/-- Where the spots hold a task, given whether its kernel thread `k` runs it. -/
inductive Located (strict : Bool) (q : Spot → List (Option T)) (run : Prop) (t : T) (k : Nat) : Status T → Prop
  | inside {p} (hp : leaving p = false) (hd : pending (.live p) = false) (hr : run) (hn : Nowhere q (some t)) :
      Located strict q run t k (.live p)
  | entered {p} (hp : leaving p = false) (hd : pending (.live p) = true) (hr : run)
      (ho : OnlyAt q (some t) (.inr k)) : Located strict q run t k (.live p)
  | leaving {p} (hp : leaving p = true) (hr : run) (hh : Held strict q t) : Located strict q run t k (.live p)
  | away {p} (hp : leaving p = false) (hd : pending (.live p) = false) (hr : ¬ run) (hh : Held strict q t) :
      Located strict q run t k (.live p)
  | gone {st} (hs : ∀ p, st ≠ .live p) (hr : ¬ run) (hn : Nowhere q (some t)) : Located strict q run t k st

section Located

variable {b : Bool} {q q' : Spot → List (Option T)} {run run' : Prop} {t : T} {k : Nat} {st : Status T}

theorem Held.once (h : Held b q t) : Once q (some t) := by
  cases b with
  | true =>
    obtain ⟨r, h⟩ := h
    exact .inr ⟨_, h⟩
  | false => exact h

theorem Held.of_onlyAt {r : Place} (h : OnlyAt q (some t) (.inl r)) : Held b q t := by
  cases b with
  | true => exact ⟨r, h⟩
  | false => exact .inr ⟨_, h⟩

theorem Held.congr (h : Held b q t) (hq : ∀ p, tally q' (some t) p = tally q (some t) p) : Held b q' t := by
  cases b with
  | true =>
    obtain ⟨r, h⟩ := h
    exact ⟨r, h.congr hq⟩
  | false => exact Once.congr h hq

theorem Located.congr (h : Located b q run t k st) (hq : ∀ p, tally q' (some t) p = tally q (some t) p)
    (hr : run' ↔ run) : Located b q' run' t k st := by
  cases h with
  | inside hp hd hrun hn => exact .inside hp hd (hr.mpr hrun) (hn.congr hq)
  | entered hp hd hrun ho => exact .entered hp hd (hr.mpr hrun) (ho.congr hq)
  | leaving hp hrun hh => exact .leaving hp (hr.mpr hrun) (hh.congr hq)
  | away hp hd hrun hh => exact .away hp hd (mt hr.mp hrun) (hh.congr hq)
  | gone hs hrun hn => exact .gone hs (mt hr.mp hrun) (hn.congr hq)

theorem Located.once (h : Located b q run t k st) : Once q (some t) := by
  cases h with
  | inside _ _ _ hn | gone _ _ hn => exact .inl hn
  | entered _ _ _ ho => exact .inr ⟨_, ho⟩
  | leaving _ _ hh | away _ _ _ hh => exact hh.once

theorem Located.live {p : Spot} (h : Located b q run t k st) (hm : some t ∈ q p) : ∃ p, st = .live p := by
  cases h with
  | inside | entered | leaving | away => exact ⟨_, rfl⟩
  | gone _ _ hn => exact absurd hm (hn.not_mem p)

theorem Located.moved {p r : Place} (h : Located b q run t k st) (hm : some t ∈ q (.inl p))
    (ho : OnlyAt q' (some t) (.inl r)) : Located b q' run t k st := by
  cases h with
  | inside _ _ _ hn | gone _ _ hn => exact absurd hm (hn.not_mem _)
  | entered _ _ _ hk => cases hk.place_eq hm
  | leaving hp hr _ => exact .leaving hp hr (.of_onlyAt ho)
  | away hp hd hr _ => exact .away hp hd hr (.of_onlyAt ho)

theorem Located.mono (h : Located false q run t k st) (hq : ∀ p, tally q' (some t) p ≤ tally q (some t) p)
    (hk : tally q' (some t) (.inr k) = tally q (some t) (.inr k)) : Located false q' run t k st := by
  have hnone (hn : Nowhere q (some t)) : Nowhere q' (some t) := by
    intro r
    have := hq r
    rw [hn r] at this
    omega
  cases h with
  | inside hp hd hr hn => exact .inside hp hd hr (hnone hn)
  | entered hp hd hr ho =>
    refine .entered hp hd hr ⟨by rw [hk, ho.once], fun r hr => ?_⟩
    have := hq r
    rw [ho.other r hr] at this
    omega
  | leaving hp hr hh => exact .leaving hp hr (Once.mono hh hq)
  | away hp hd hr hh => exact .away hp hd hr (Once.mono hh hq)
  | gone hs hr hn => exact .gone hs hr (hnone hn)

theorem Located.leftover {j : Nat} (h : Located b q run t k st) (hm : some t ∈ q (.inr j)) (hr : k = j → ¬ run)
    (hq : Held b q' t) : Located b q' run t k st := by
  cases h with
  | inside _ _ _ hn | gone _ _ hn => exact absurd hm (hn.not_mem _)
  | entered _ _ hrun ho => exact absurd hrun (hr (Sum.inr.inj (ho.place_eq hm)))
  | leaving hp hrun _ => exact .leaving hp hrun hq
  | away hp hd hrun _ => exact .away hp hd hrun hq

theorem Located.settled {p : Spot} (h : Located b q run t k st) (hm : some t ∈ q p) (hr : ¬ run) :
    (∃ p, st = .live p ∧ Placement.leaving p = false) ∧
      ∀ q', Nowhere q' (some t) → ∀ run', run' → Located b q' run' t k st := by
  cases h with
  | inside _ _ hrun | entered _ _ hrun | leaving _ hrun => exact absurd hrun hr
  | away hp hd => exact ⟨⟨_, rfl, hp⟩, fun q' hn run' hrun => .inside hp hd hrun hn⟩
  | gone _ _ hn => exact absurd hm (hn.not_mem p)

end Located

section Board

variable (strict : Bool) (queue : Place → List (Option T)) (thread : Nat → Thread T) (status : T → Status T)
  (schedId : T → Nat) (prepared : Nat → List T)

@[simp] def Running (t : T) : Prop := thread (schedId t) = .running t

/-- Every task is where its status says, and the tasks that the kernel threads
and the running `thread` calls have in hand are accounted for. -/
structure Board : Prop where
  located : ∀ t, Located strict (spots queue prepared) (Running thread schedId t) t (schedId t) (status t)
  owner : ∀ k t, thread k = .running t → schedId t = k
  home : ∀ k t, some t ∈ queue (.ready k) → schedId t = k
  ending : ∀ k t, thread k = .destroy t → status t = .finished ∧ schedId t = k
  child : ∀ t c k, spawning (status t) = some (c, k) → status c = .born ∧ schedId c = k
  parent : ∀ t u c k j, spawning (status t) = some (c, k) → spawning (status u) = some (c, j) → t = u

end Board

def Tracked (strict : Bool) (s : State T) : Prop := Board strict s.queue s.thread s.status s.schedId s.prepared

structure Active (s : State T) (k : Nat) (t : T) (p : Point T) : Prop where
  thread : s.thread k = .running t
  status : s.status t = .live p

omit [DecidableEq T] in
theorem Active.wake {s : State T} {k : Nat} {t : T} {p : Point T} (h : Active s k t p) (q : Place) :
    Active (s.wake q) k t p := by
  unfold State.wake
  split
  · exact h
  · exact ⟨h.thread, h.status⟩
  · exact ⟨h.thread, h.status⟩

omit [DecidableEq T] in
theorem Active.wakeAll {s : State T} {k : Nat} {t : T} {p : Point T} (h : Active s k t p) (q : Place)
    (l : List (Option T)) : Active (s.wakeAll q l) k t p := by
  induction l generalizing s with
  | nil => exact h
  | cons o l ih =>
    cases o with
    | none => exact h.wake q
    | some w => exact ih (h.wake q)

section Queues

variable {b : Bool} {s : State T}

theorem Tracked.frame (h : Tracked b s) {q : Place → List (Option T)}
    (hq : ∀ u p, tally q (some u) p = tally s.queue (some u) p) : Tracked b { s with queue := q } := by
  refine ⟨?_, h.owner, ?_, h.ending, h.child, h.parent⟩
  · intro u
    refine (h.located u).congr ?_ Iff.rfl
    rintro (r | j)
    · exact hq u r
    · rfl
  · intro k u hu
    refine h.home k u (tally_pos.mp ?_)
    rw [← hq]
    exact tally_pos.mpr hu

theorem Tracked.move (h : Tracked b s) {w : T} {p : Place} (hm : some w ∈ s.queue p) :
    Tracked b (State.makeReady { s with queue := remove s.queue p (some w) } w) := by
  have hs : spots (push (remove s.queue p (some w)) (.ready (s.schedId w)) (some w)) s.prepared =
      push (remove (spots s.queue s.prepared) (.inl p) (some w)) (.inl (.ready (s.schedId w))) (some w) := by
    rw [spots_push, spots_remove]
  refine ⟨?_, h.owner, ?_, h.ending, h.child, h.parent⟩
  · intro u
    rw [State.makeReady, hs]
    by_cases huw : u = w
    · subst huw
      have hm : some u ∈ spots s.queue s.prepared (.inl p) := hm
      exact (h.located u).moved hm (((h.located u).once.onlyAt hm).remove.push _)
    · refine (h.located u).congr ?_ Iff.rfl
      intro r
      have hne : some u ≠ some w := by simpa using huw
      rw [tally_push_ne _ _ _ hne, tally_remove_ne _ _ _ hne]
  · intro k u hu
    rcases mem_push hu with hu | ⟨hk, hu⟩
    · exact h.home k u (mem_remove hu)
    · cases hu
      cases hk
      rfl

theorem Tracked.wake (h : Tracked b s) (p : Place) : Tracked b (s.wake p) := by
  unfold State.wake
  cases hq : s.queue p with
  | nil => exact h
  | cons o l =>
    cases o with
    | none =>
      refine h.frame ?_
      intro u r
      rw [remove_head hq, tally_remove_ne _ _ _ (by simp)]
    | some w =>
      have hmove := h.move (w := w) (p := p) (by simp [hq])
      rw [← remove_head hq] at hmove
      exact hmove

theorem Tracked.wakeAll (h : Tracked b s) (p : Place) (l : List (Option T)) : Tracked b (s.wakeAll p l) := by
  induction l generalizing s with
  | nil => exact h
  | cons o l ih =>
    cases o with
    | none => exact h.wake p
    | some w => exact ih (h.wake p)

end Queues

section Task

variable {b : Bool} {s : State T} {k : Nat} {t : T} {p q : Point T}

omit [DecidableEq T] in
theorem leaving_quiet (h : leaving p = true) : pending (.live p) = false ∧ spawning (.live p) = none := by
  cases p <;> simp [leaving] at h <;> simp [pending, spawning]

section Statuses

variable {st : Status T} (h : Tracked b s)

include h

theorem Tracked.unborn (ht : s.status t ≠ .born) (u : T) (n : Nat) : spawning (s.status u) ≠ some (t, n) :=
  fun hu => ht (h.child u t n hu).1

theorem Tracked.child_ne {u c : T} (hu : s.status u = .live p) (hc : spawning (s.status t) = some (c, k)) : c ≠ u := by
  rintro rfl
  exact h.unborn (by simp [hu]) t k hc

/-- A new status for a task that is no child of a call in progress. -/
theorem Tracked.respawn (ht : ∀ u n, spawning (s.status u) ≠ some (t, n)) (st : Status T)
    (hst : spawning st = none ∨ spawning st = spawning (s.status t)) :
    (∀ u c j, spawning (update s.status t st u) = some (c, j) →
      update s.status t st c = .born ∧ s.schedId c = j) ∧
    ∀ u v c j i, spawning (update s.status t st u) = some (c, j) →
      spawning (update s.status t st v) = some (c, i) → u = v := by
  have hsp : ∀ u c j, spawning (update s.status t st u) = some (c, j) →
      spawning (s.status u) = some (c, j) := by
    intro u c j hu
    by_cases hut : u = t
    · subst hut
      rw [update_self] at hu
      rcases hst with hs | hs
      · rw [hs] at hu
        cases hu
      · rw [← hs, hu]
    · rwa [update_of_ne hut] at hu
  refine ⟨fun u c j hu => ?_, fun u v c j i hu hv => h.parent u v c j i (hsp u c j hu) (hsp v c i hv)⟩
  have hct : c ≠ t := by
    rintro rfl
    exact ht u j (hsp u c j hu)
  simpa [hct] using h.child u c j (hsp u c j hu)

theorem Tracked.ended (ht : s.status t ≠ .finished) (j : Nat) (u : T) (hu : s.thread j = .destroy u) :
    update s.status t st u = .finished ∧ s.schedId u = j := by
  obtain ⟨hfin, hid⟩ := h.ending j u hu
  have hut : u ≠ t := by
    rintro rfl
    exact ht hfin
  exact ⟨by simpa [hut] using hfin, hid⟩

end Statuses

section Active

variable (h : Tracked b s) (ha : Active s k t p)

include h ha

theorem Tracked.schedId : s.schedId t = k := h.owner k t ha.thread

theorem Tracked.running : Running s.thread s.schedId t := by
  rw [Running, h.schedId ha]
  exact ha.thread

theorem Tracked.nowhere (hp : leaving p = false)
    (hd : pending (.live p) = false) : Nowhere (spots s.queue s.prepared) (some t) := by
  have hl := h.located t
  rw [ha.status] at hl
  cases hl with
  | inside _ _ _ hn => exact hn
  | entered _ hd' => simp [hd] at hd'
  | leaving hp' => simp [hp] at hp'
  | away _ _ hr => exact absurd (h.running ha) hr
  | gone hs => exact absurd rfl (hs p)

theorem Tracked.entered (hd : pending (.live p) = true) : OnlyAt (spots s.queue s.prepared) (some t) (.inr k) := by
  have hl := h.located t
  rw [ha.status, h.schedId ha] at hl
  cases hl with
  | inside _ hd' => simp [hd] at hd'
  | entered _ _ _ ho => exact ho
  | leaving hp => cases p <;> simp [pending, Placement.leaving] at hd hp
  | away _ hd' => simp [hd] at hd'
  | gone hs => exact absurd rfl (hs p)

/-- The status of the running task changes. What it means for the places is
left to the caller. -/
theorem Tracked.restatus
    {queue : Place → List (Option T)} {prepared : Nat → List T}
    (hself : Located b (spots queue prepared) (Running s.thread s.schedId t) t (s.schedId t) (.live q))
    (hother : ∀ u, u ≠ t →
      Located b (spots queue prepared) (Running s.thread s.schedId u) u (s.schedId u) (s.status u))
    (hhome : ∀ j u, some u ∈ queue (.ready j) → s.schedId u = j)
    (hspawn : spawning (.live q) = none ∨ spawning (.live q) = spawning (.live p)) :
    Tracked b { s with queue := queue, prepared := prepared, status := update s.status t (.live q) } := by
  obtain ⟨hchild, hparent⟩ := h.respawn (h.unborn (t := t) (by simp [ha.status])) _ (ha.status ▸ hspawn)
  refine ⟨fun u => ?_, h.owner, hhome, h.ended (by simp [ha.status]), hchild, hparent⟩
  by_cases hut : u = t
  · subst hut
    simpa using hself
  · simp only [update_of_ne hut]
    exact hother u hut

theorem Tracked.goto_spawning (hl : leaving q = leaving p) (hr : pending (.live q) = pending (.live p))
    (hspawn : spawning (.live q) = none ∨ spawning (.live q) = spawning (.live p)) : Tracked b (s.goto t q) := by
  refine h.restatus ha ?_ (fun u _ => h.located u) h.home hspawn
  have hloc := h.located t
  rw [ha.status] at hloc
  cases hloc with
  | inside hp hd hrun hn => exact .inside (hl.trans hp) (hr.trans hd) hrun hn
  | entered hp hd hrun ho => exact .entered (hl.trans hp) (hr.trans hd) hrun ho
  | leaving hp hrun hh => exact .leaving (hl.trans hp) hrun hh
  | away _ _ hrun => exact absurd (h.running ha) hrun
  | gone hs => exact absurd rfl (hs p)

theorem Tracked.goto (hq : (leaving q, pending (.live q), spawning (.live q)) = (leaving p, pending (.live p), none)) :
    Tracked b (s.goto t q) := by
  simp only [Prod.mk.injEq] at hq
  exact h.goto_spawning ha hq.1 hq.2.1 (.inl hq.2.2)

theorem Tracked.enqueue (hp : leaving p = false)
    (hd : pending (.live p) = false) (hp' : leaving q = true) (place : Place)
    (hplace : ∀ j, place = .ready j → s.schedId t = j) :
    Tracked b ({ s with queue := push s.queue place (some t) }.goto t q) := by
  refine h.restatus ha ?_ ?_ ?_ (.inl (leaving_quiet hp').2)
  · rw [spots_push]
    exact .leaving hp' (h.running ha) (.of_onlyAt ((h.nowhere ha hp hd).push _))
  · intro u hut
    rw [spots_push]
    exact (h.located u).congr (fun r => tally_push_ne _ _ _ (by simpa using hut)) Iff.rfl
  · intro j u hu
    rcases mem_push hu with hu | ⟨hj, hu⟩
    · exact h.home j u hu
    · cases hu
      exact hplace j hj.symm

theorem Tracked.prepare (hp : leaving p = false)
    (hd : pending (.live p) = false) (hp' : leaving q = false) (hd' : pending (.live q) = true) :
    Tracked b { s.goto t q with
      prepared := update s.prepared (s.schedId t) (s.prepared (s.schedId t) ++ [t]) } := by
  refine h.restatus ha ?_ ?_ h.home ?_
  · rw [spots_prepare]
    exact .entered hp' hd' (h.running ha) ((h.nowhere ha hp hd).push _)
  · intro u hut
    rw [spots_prepare]
    exact (h.located u).congr (fun r => tally_push_ne _ _ _ (by simpa using hut)) Iff.rfl
  · left
    cases q <;> simp [pending] at hd' <;> rfl

/-- The registration of a descriptor passes to the running task. In a strict
account nobody else had it. -/
theorem Tracked.register (hp : leaving p = false)
    (hd : pending (.live p) = false) (hp' : leaving q = true) (fd : Nat) (hb : b = true → s.queue (.poll fd) = []) :
    Tracked b ({ s with queue := update s.queue (.poll fd) [some t] }.goto t q) := by
  have hn := h.nowhere ha hp hd
  have htally : ∀ u, u ≠ t → ∀ r, tally (spots (update s.queue (.poll fd) [some t]) s.prepared) (some u) r =
      if r = .inl (.poll fd) then 0 else tally (spots s.queue s.prepared) (some u) r := by
    rintro u hut (r | j)
    · by_cases hr : r = .poll fd
      · simp [tally, hr, Ne.symm hut]
      · simp [tally, hr]
    · simp [tally]
  refine h.restatus ha (.leaving hp' (h.running ha) (.of_onlyAt (r := .poll fd) ⟨?_, ?_⟩)) ?_ ?_
    (.inl (leaving_quiet hp').2)
  · simp [tally]
  · rintro (r | j) hr
    · have hr : r ≠ .poll fd := fun e => hr (e ▸ rfl)
      simpa [tally, hr] using hn (.inl r)
    · exact hn (.inr j)
  · intro u hut
    cases b with
    | true =>
      refine (h.located u).congr (fun r => ?_) Iff.rfl
      rw [htally u hut r]
      split
      · next hr => simp [hr, tally, hb rfl]
      · rfl
    | false =>
      refine (h.located u).mono (fun r => ?_) ?_
      · rw [htally u hut r]
        split <;> omega
      · rw [htally u hut]
        simp
  · intro j u hu
    refine h.home j u ?_
    simpa using hu

end Active

theorem Tracked.prepared_eq (h : Tracked true s) (ha : Active s k t p) (hd : pending (.live p) = true) :
    s.prepared k = [t] := by
  have hall : ∀ u ∈ s.prepared k, u = t := by
    intro u hu
    have hm : some u ∈ spots s.queue s.prepared (.inr k) := by simpa using hu
    have hloc := h.located u
    generalize s.status u = st at hloc
    cases hloc with
    | inside _ _ _ hn | gone _ _ hn => exact absurd hm (hn.not_mem _)
    | entered _ _ hr ho =>
      cases ho.place_eq hm
      rw [Running, ha.thread] at hr
      cases hr
      rfl
    | leaving _ _ hh | away _ _ _ hh =>
      obtain ⟨r, ho⟩ := hh
      cases ho.place_eq hm
  have hone : (s.prepared k).count t = 1 := by
    have := (h.entered ha hd).once
    rwa [tally_prepared] at this
  rw [eq_replicate_of_mem hall, count_replicate_self] at hone
  rw [eq_replicate_of_mem hall, hone]
  rfl

theorem Tracked.leave (h : Tracked false s) (ha : Active s k t p) (hp' : leaving q = true) :
    Tracked false (s.goto t q) :=
  h.restatus ha (.leaving hp' (h.running ha) (h.located t).once) (fun u _ => h.located u) h.home
    (.inl (leaving_quiet hp').2)

/-- The ring accepts entries that have been prepared, which in a strict
account are those of the running task. -/
theorem Tracked.submit (h : Tracked b s) (ha : Active s k t p) (hd : pending (.live p) = true)
    (hp' : leaving q = true) (n : Nat) (hn : b = true → n = (s.prepared k).length) :
    Tracked b { s.goto t q with
      queue := update s.queue (.ring k) (s.queue (.ring k) ++ ((s.prepared k).take n).map some)
      prepared := update s.prepared k ((s.prepared k).drop n) } := by
  refine h.restatus ha (.leaving hp' (h.running ha) ?_) ?_ ?_ (.inl (leaving_quiet hp').2)
  · cases b with
    | false => exact once_submitted k n (h.located t).once
    | true =>
      have hprep := h.prepared_eq ha hd
      have h1 : n = 1 := by simpa [hprep] using hn rfl
      subst h1
      exact .of_onlyAt (onlyAt_submitted k (h.entered ha hd) hprep)
  · intro u hut
    by_cases hu : u ∈ s.prepared k
    · -- such an entry is left over from an earlier call of a task that has yielded since
      have hm : some u ∈ spots s.queue s.prepared (.inr k) := by simpa using hu
      cases b with
      | true => simp [h.prepared_eq ha hd, hut] at hu
      | false =>
        refine (h.located u).leftover hm ?_ (once_submitted k n (h.located u).once)
        rintro rfl
        simp [ha.thread, Ne.symm hut]
    · exact (h.located u).congr (submitted_of_not_mem k n hu) Iff.rfl
  · intro j u hu
    refine h.home j u ?_
    simpa using hu

theorem Tracked.unregister (h : Tracked false s) (p : Place) (a : Option T) :
    Tracked false { s with queue := remove s.queue p a } := by
  refine ⟨?_, h.owner, fun j u hu => h.home j u (mem_remove hu), h.ending, h.child, h.parent⟩
  intro u
  have htally (r : Spot) : tally (spots (remove s.queue p a) s.prepared) (some u) r =
      tally (spots s.queue s.prepared) (some u) r - if r = .inl p ∧ some u = a then 1 else 0 := by
    rw [spots_remove, tally_remove]
  refine (h.located u).mono (fun r => ?_) ?_
  · rw [htally r]
    omega
  · simp [htally]

end Task

section Threads

variable {b : Bool} {s : State T} {k : Nat} {t : T}

variable {th : Thread T}

omit [DecidableEq T] in
theorem running_update {thread : Nat → Thread T} {schedId : T → Nat} {u : T}
    (hu : th = .running u ↔ thread k = .running u) :
    Running (update thread k th) schedId u ↔ Running thread schedId u := by
  by_cases hk : schedId u = k
  · simp [hk, hu]
  · simp [hk]

omit [DecidableEq T] in
theorem owner_update {thread : Nat → Thread T} {x : Thread T} {P : Nat → Prop} (h : ∀ j, thread j = x → P j)
    (hk : th = x → P k) (j : Nat) (hj : update thread k th j = x) : P j := by
  by_cases hjk : j = k
  · subst hjk
    rw [update_self] at hj
    exact hk hj
  · rw [update_of_ne hjk] at hj
    exact h j hj

theorem Tracked.rethread (h : Tracked b s) (hk : ∀ t, s.thread k ≠ .running t)
    (hth : ∀ t, th ≠ .running t ∧ th ≠ .destroy t) : Tracked b { s with thread := update s.thread k th } := by
  refine ⟨?_, ?_, h.home, ?_, h.child, h.parent⟩
  · intro u
    exact (h.located u).congr (fun _ => rfl) (running_update (by simp [hk u, hth u]))
  · intro j u
    exact owner_update (fun j => h.owner j u) (fun e => absurd e (hth u).1) j
  · intro j u
    exact owner_update (fun j => h.ending j u) (fun e => absurd e (hth u).2) j

omit [DecidableEq T] in
theorem point_quiet (next : Resume) :
    leaving (next.point : Point T) = false ∧ pending (.live (next.point : Point T)) = false ∧
      spawning (.live (next.point : Point T)) = none := by
  cases next <;> simp [Resume.point, leaving, pending, spawning]

section Tracking

variable (h : Tracked b s)

include h

theorem Tracked.release {p : Point T} {st : Status T} (ha : Active s k t p)
    (hself : ∀ run, ¬ run → Located b (spots s.queue s.prepared) run t (s.schedId t) st) (hth : ∀ u, th ≠ .running u)
    (hend : ∀ u, th = .destroy u → u = t ∧ st = .finished) (hst : spawning st = none) :
    Tracked b { s with status := update s.status t st, thread := update s.thread k th } := by
  obtain ⟨hchild, hparent⟩ := h.respawn (h.unborn (t := t) (by simp [ha.status])) _ (.inl hst)
  refine ⟨?_, ?_, h.home, ?_, hchild, hparent⟩
  · intro u
    by_cases hut : u = t
    · subst hut
      simp only [update_self]
      refine hself _ ?_
      simp [h.schedId ha, hth]
    · simp only [update_of_ne hut]
      refine (h.located u).congr (fun _ => rfl) (running_update ?_)
      simp [hth u, ha.thread, Ne.symm hut]
  · intro j u
    exact owner_update (fun j => h.owner j u) (fun e => absurd e (hth u)) j
  · intro j u
    refine owner_update (P := fun j => update s.status t st u = .finished ∧ s.schedId u = j)
      (fun j => h.ended (by simp [ha.status]) j u) (fun e => ?_) j
    obtain ⟨rfl, hfin⟩ := hend u e
    exact ⟨by simpa using hfin, h.schedId ha⟩

theorem Tracked.yield {next : Resume} (ha : Active s k t (.switch next)) : Tracked b (s.taskYield t next) := by
  have hy : s.taskYield t next = { s.goto t next.point with thread := update s.thread k .popWait } := by
    simp [State.taskYield, h.schedId ha, ha.thread]
  rw [hy]
  obtain ⟨hl, hd, hs⟩ := point_quiet (T := T) next
  refine h.release ha ?_ (by simp) (by simp) hs
  intro run hrun
  have hloc := h.located t
  rw [ha.status] at hloc
  cases hloc with
  | inside hp | entered hp | away hp => simp [leaving] at hp
  | leaving _ _ hh => exact .away hl hd hrun hh
  | gone hs => exact absurd rfl (hs _)

theorem Tracked.finish (ha : Active s k t .code) :
    Tracked b { s with
      status := update s.status t .finished, thread := update s.thread k (.destroy t) } := by
  refine h.release ha ?_ (by simp) ?_ rfl
  · intro run hrun
    exact .gone (by simp) hrun (h.nowhere ha rfl rfl)
  · intro u hu
    cases hu
    exact ⟨rfl, rfl⟩

theorem Tracked.pop {l : List (Option T)} (hk : s.thread k = .popWait)
    (hq : s.queue (.ready k) = some t :: l) :
    Tracked b { s with
      queue := update s.queue (.ready k) l, thread := update s.thread k (.running t) } := by
  have hm : some t ∈ spots s.queue s.prepared (.inl (.ready k)) := by simp [hq]
  have hid := h.home k t hm
  have hrun : ¬ Running s.thread s.schedId t := by simp [hid, hk]
  obtain ⟨_, hin⟩ := (h.located t).settled hm hrun
  rw [remove_head hq]
  refine ⟨?_, ?_, ?_, ?_, h.child, h.parent⟩
  · intro u
    rw [spots_remove]
    by_cases hut : u = t
    · subst hut
      exact hin _ ((h.located u).once.onlyAt hm).remove _ (by simp [hid])
    · refine (h.located u).congr ?_ (running_update ?_)
      · intro r
        exact tally_remove_ne _ _ _ (by simpa using hut)
      · simp [hk, Ne.symm hut]
  · intro j u
    refine owner_update (fun j => h.owner j u) (fun e => ?_) j
    cases e
    exact hid
  · intro j u hu
    exact h.home j u (mem_remove hu)
  · intro j u
    exact owner_update (fun j => h.ending j u) (by simp) j

theorem Tracked.destroy (hk : s.thread k = .destroy t) (hth : ∀ u, th ≠ .running u ∧ th ≠ .destroy u) :
    Tracked b { s with status := update s.status t .absent, thread := update s.thread k th } := by
  obtain ⟨hfin, hid⟩ := h.ending k t hk
  obtain ⟨hchild, hparent⟩ := h.respawn (h.unborn (t := t) (by simp [hfin])) .absent (.inl rfl)
  refine ⟨?_, ?_, h.home, ?_, hchild, hparent⟩
  · intro u
    have hr : Running (update s.thread k th) s.schedId u ↔ Running s.thread s.schedId u :=
      running_update (by simp [hk, (hth u).1])
    by_cases hut : u = t
    · subst hut
      have hloc := h.located u
      rw [hfin] at hloc
      simp only [update_self]
      cases hloc with
      | gone _ hrun hn => exact .gone (by simp) (mt hr.mp hrun) hn
    · simp only [update_of_ne hut]
      exact (h.located u).congr (fun _ => rfl) hr
  · intro j u
    exact owner_update (fun j => h.owner j u) (fun e => absurd e (hth u).1) j
  · intro j u hj
    by_cases hjk : j = k
    · subst hjk
      simp only [update_self] at hj
      exact absurd hj (hth u).2
    · simp only [update_of_ne hjk] at hj
      obtain ⟨hu, hj'⟩ := h.ending j u hj
      -- the thread of a finished task is the only one that destroys it
      have hut : u ≠ t := by
        rintro rfl
        exact hjk (hj'.symm.trans hid)
      exact ⟨by simpa [hut] using hu, hj'⟩

theorem Tracked.not_running (hs : ∀ p, s.status t ≠ .live p) (j : Nat) : s.thread j ≠ .running t := by
  intro hj
  have hloc := h.located t
  generalize hst : s.status t = st at hloc
  cases hloc with
  | inside | entered | leaving | away => exact hs _ hst
  | gone _ hr => exact hr (by rw [Running, h.owner j t hj, hj])

theorem Tracked.absent (hs : ∀ p, s.status t ≠ .live p) : Nowhere (spots s.queue s.prepared) (some t) := by
  have hloc := h.located t
  generalize hst : s.status t = st at hloc
  cases hloc with
  | inside | entered | leaving | away => exact absurd hst (hs _)
  | gone _ _ hn => exact hn

end Tracking

end Threads

section Spawning

variable {b : Bool} {s : State T}

theorem Tracked.spawn (h : Tracked b s) {k : Nat} {t child : T} {kid : Nat} (ha : Active s k t .code)
    (hc : s.status child = .absent) :
    Tracked b { s with
      status := update (update s.status t (.live (.spawnCount child kid))) child .born
      schedId := update s.schedId child kid } := by
  have hct : child ≠ t := by
    rintro rfl
    rw [ha.status] at hc
    cases hc
  have hdead : ∀ p, s.status child ≠ .live p := by simp [hc]
  have hnowhere := h.absent hdead
  have hthread := h.not_running hdead
  have hsp : ∀ u c j, spawning (update (update s.status t (.live (.spawnCount child kid)))
      child .born u) = some (c, j) → u = t ∧ (c, j) = (child, kid) ∨ u ≠ t ∧ spawning (s.status u) = some (c, j) := by
    intro u c j hu
    by_cases huc : u = child
    · subst huc
      simp [spawning] at hu
    · by_cases hut : u = t
      · subst hut
        simp only [update_of_ne huc, update_self, spawning, Option.some.injEq] at hu
        exact .inl ⟨rfl, hu.symm⟩
      · simp only [update_of_ne huc, update_of_ne hut] at hu
        exact .inr ⟨hut, hu⟩
  have hst : ∀ u, u ≠ child → u ≠ t →
      update (update s.status t (.live (.spawnCount child kid))) child .born u = s.status u := by
    intro u huc hut
    simp [huc, hut]
  refine ⟨?_, ?_, ?_, ?_, ?_, ?_⟩
  · intro u
    by_cases huc : u = child
    · subst huc
      simp only [update_self]
      exact .gone (by simp) (by simp [hthread]) hnowhere
    · have hru : Running s.thread (update s.schedId child kid) u ↔ Running s.thread s.schedId u := by
        simp [huc]
      by_cases hut : u = t
      · subst hut
        simp only [update_of_ne huc, update_self]
        exact .inside rfl rfl (hru.mpr (h.running ha)) (h.nowhere ha rfl rfl)
      · simp only [hst u huc hut, update_of_ne huc]
        exact (h.located u).congr (fun _ => rfl) hru
  · intro j u hu
    have huc : u ≠ child := by
      rintro rfl
      exact hthread j hu
    simpa [huc] using h.owner j u hu
  · intro j u hu
    have huc : u ≠ child := by
      rintro rfl
      exact hnowhere.not_mem (.inl (.ready j)) hu
    simpa [huc] using h.home j u hu
  · intro j u hu
    obtain ⟨hfin, hid⟩ := h.ending j u hu
    have huc : u ≠ child := by
      rintro rfl
      simp [hc] at hfin
    have hut : u ≠ t := by
      rintro rfl
      simp [ha.status] at hfin
    exact ⟨(hst u huc hut).trans hfin, by simpa [huc] using hid⟩
  · intro u c j hu
    obtain ⟨rfl, hcj⟩ | ⟨hut, hu⟩ := hsp u c j hu
    · cases hcj
      simp
    · obtain ⟨hb, hj⟩ := h.child u c j hu
      have hcc : c ≠ child := by
        rintro rfl
        rw [hc] at hb
        cases hb
      simpa [hcc, h.child_ne ha.status hu] using ⟨hb, hj⟩
  · intro u v c j i hu hv
    have hfresh := h.unborn (t := child) (by simp [hc])
    obtain ⟨hut, hcj⟩ | ⟨_, hu'⟩ := hsp u c j hu
    · cases hcj
      obtain ⟨hvt, _⟩ | ⟨_, hv'⟩ := hsp v _ i hv
      · rw [hut, hvt]
      · exact absurd hv' (hfresh v i)
    · obtain ⟨_, hci⟩ | ⟨_, hv'⟩ := hsp v c i hv
      · cases hci
        exact absurd hu' (hfresh u j)
      · exact h.parent u v c j i hu' hv'

theorem Tracked.publish (h : Tracked b s) (child : T) (hc : s.status child = .born)
    (hfree : ∀ u n, spawning (s.status u) ≠ some (child, n)) :
    Tracked b { s with
      queue := push s.queue (.ready (s.schedId child)) (some child)
      status := update s.status child (.live .code) } := by
  have hdead : ∀ p, s.status child ≠ .live p := by simp [hc]
  obtain ⟨hchild, hparent⟩ := h.respawn hfree (.live .code) (.inl rfl)
  refine ⟨?_, h.owner, ?_, h.ended (by simp [hc]), hchild, hparent⟩
  · intro u
    rw [spots_push]
    by_cases huc : u = child
    · subst huc
      simp only [update_self]
      exact .away rfl rfl (h.not_running hdead _) (.of_onlyAt ((h.absent hdead).push _))
    · simp only [update_of_ne huc]
      refine (h.located u).congr ?_ Iff.rfl
      intro r
      exact tally_push_ne _ _ _ (by simpa using huc)
  · intro j u hu
    rcases mem_push hu with hu | ⟨hj, hu⟩
    · exact h.home j u hu
    · cases hu
      cases hj
      rfl

end Spawning

end Picasso.Sched.Placement
