import Picasso.Net.Netio
import Mathlib.Data.List.Nodup

namespace Picasso.Net

open Lib.Transition Function List Option State

variable {T : Type} {s s' : State T} {t u : T}

section Definitions

def State.Active (s : State T) (t : T) : Prop := s.pc t ≠ .idle ∧ (s.io t).ioDone = false

def State.Registered (s : State T) (t : T) : Prop := s.net (s.io t).fd = some ⟨(s.io t).op.events, t, true⟩

def State.hands (s : State T) : List T := s.turn.task.toList ++ s.events

/-- A task that has switched out is watched for until its event is delivered, and
again when the worker has not finished its operation. -/
def NotDisplaced (s : State T) : Prop :=
  ∀ t, s.pc t = .waiting → (s.io t).ioDone = false → s.Registered t ∨ t ∈ s.hands

/-- No operation is issued on a descriptor on which another task has one. -/
def Alone (s : State T) : Act T → Prop
  | .issue t _ fd _ => ∀ u, u ≠ t → s.Active u → (s.io u).fd ≠ fd
  | _ => True

def Pc.told : Pc → Bool
  | .yield | .waiting => true
  | _ => false

end Definitions

section Invariant

/-- What holds of a task where no descriptor is shared. Only the task that has
told the poller has an armed entry, until its event is delivered; the entry is
still there when the worker arms it again. -/
structure Good (s : State T) (t : T) : Prop where
  armed : ∀ fd e, s.net fd = some e → e.armed = true → e.ud = t →
    s.Active t ∧ (s.pc t).told = true ∧ (s.io t).fd = fd ∧ (s.io t).op.events = e.events ∧ t ∉ s.hands
  hands : t ∈ s.hands → s.Active t ∧ (s.pc t).told = true
  entry : t ∈ s.hands → s.turn ≠ .finish t → ∃ e, s.net (s.io t).fd = some e
  kept : s.Active t → (s.pc t).told = true → s.Registered t ∨ t ∈ s.hands
  issued : s.pc t = .add ∨ s.pc t = .mod → (s.io t).ioDone = false
  mod : s.pc t = .mod → ∃ e, s.net (s.io t).fd = some e
  ready : t ∈ s.ready → (s.io t).ioDone = true ∧ (s.pc t).told = true

structure Inv (s : State T) : Prop where
  apart : ∀ t u, s.Active t → s.Active u → (s.io t).fd = (s.io u).fd → t = u
  good : ∀ t, Good s t
  hands_nodup : s.hands.Nodup
  ready_nodup : s.ready.Nodup

/-- What a step for one task does to the others: nothing, and it changes entries
of descriptors that they do not use. -/
structure Own (t : T) (s s' : State T) : Prop where
  pc : ∀ u, u ≠ t → s'.pc u = s.pc u
  io : ∀ u, u ≠ t → s'.io u = s.io u
  hands : ∀ u, u ≠ t → (u ∈ s'.hands ↔ u ∈ s.hands)
  turn : ∀ u, u ≠ t → s.turn = .finish u → s'.turn = .finish u
  ready : ∀ u, u ≠ t → (u ∈ s'.ready ↔ u ∈ s.ready)
  net : ∀ fd, s'.net fd = s.net fd ∨
    (∀ e, s'.net fd = some e → e.ud = t) ∧ ∀ u, u ≠ t → s.Active u → (s.io u).fd ≠ fd

theorem Own.active (h : Own t s s') (hu : u ≠ t) : s'.Active u ↔ s.Active u := by
  rw [State.Active, State.Active, h.pc u hu, h.io u hu]

theorem Own.net_eq (h : Own t s s') (hu : u ≠ t) (ha : s.Active u) : s'.net (s'.io u).fd = s.net (s.io u).fd := by
  rw [h.io u hu]
  exact (h.net (s.io u).fd).resolve_right fun hne => hne.2 u hu ha rfl

theorem Own.good (h : Own t s s') (hu : u ≠ t) (hg : Good s u) : Good s' u := by
  have hactive := h.active hu
  refine ⟨fun fd e he harmed hud => ?_, fun hmem => ?_, fun hmem hturn => ?_, fun ha ht => ?_, fun hpc => ?_,
    fun hpc => ?_, fun hmem => ?_⟩
  · have hold : s.net fd = some e := by
      rcases h.net fd with hsame | ⟨hown, -⟩
      · exact hsame ▸ he
      · exact absurd (hud.symm.trans (hown e he)) hu
    rw [hactive, h.pc u hu, h.io u hu, h.hands u hu]
    exact hg.armed fd e hold harmed hud
  · rw [hactive, h.pc u hu]
    exact hg.hands ((h.hands u hu).mp hmem)
  · have hmem' := (h.hands u hu).mp hmem
    rw [h.net_eq hu (hg.hands hmem').1]
    exact hg.entry hmem' fun hfinish => hturn (h.turn u hu hfinish)
  · rw [State.Registered, h.net_eq hu (hactive.mp ha), h.io u hu, h.hands u hu]
    exact hg.kept (hactive.mp ha) (h.pc u hu ▸ ht)
  · rw [h.io u hu]
    exact hg.issued (h.pc u hu ▸ hpc)
  · rw [h.pc u hu] at hpc
    have ha : s.Active u := ⟨by simp [hpc], hg.issued (.inr hpc)⟩
    rw [h.net_eq hu ha]
    exact hg.mod hpc
  · rw [h.io u hu, h.pc u hu]
    exact hg.ready ((h.ready u hu).mp hmem)

theorem Own.inv (h : Own t s s') (hi : Inv s) (hg : Good s' t)
    (hapart : s'.Active t → ∀ u, u ≠ t → s.Active u → (s.io u).fd ≠ (s'.io t).fd) (hhands : s'.hands.Nodup)
    (hready : s'.ready.Nodup) : Inv s' := by
  refine ⟨fun v u hv hu hfd => ?_, fun u => ?_, hhands, hready⟩
  · by_cases hvt : v = t <;> by_cases hut : u = t
    · exact hvt.trans hut.symm
    · subst hvt
      rw [h.io u hut] at hfd
      exact absurd hfd.symm (hapart hv u hut ((h.active hut).mp hu))
    · subst hut
      rw [h.io v hvt] at hfd
      exact absurd hfd (hapart hu v hvt ((h.active hvt).mp hv))
    · rw [h.io v hvt, h.io u hut] at hfd
      exact hi.apart v u ((h.active hvt).mp hv) ((h.active hut).mp hu) hfd
  · by_cases hu : u = t
    · exact hu ▸ hg
    · exact h.good hu (hi.good u)

theorem Inv.ne_fd (h : Inv s) (ht : s.Active t) : ∀ u, u ≠ t → s.Active u → (s.io u).fd ≠ (s.io t).fd :=
  fun u hu ha heq => hu (h.apart u t ha ht heq)

theorem Good.outside (h : Good s t) (hpc : (s.pc t).told = false) :
    t ∉ s.hands ∧ t ∉ s.ready ∧ ∀ fd e, s.net fd = some e → e.armed = true → e.ud ≠ t := by
  refine ⟨fun hmem => ?_, fun hmem => ?_, fun fd e he harmed hud => ?_⟩
  · rw [(h.hands hmem).2] at hpc
    cases hpc
  · rw [(h.ready hmem).2] at hpc
    cases hpc
  · rw [(h.armed fd e he harmed hud).2.1] at hpc
    cases hpc

theorem Good.of_outside (hpc : (s.pc t).told = false)
    (hout : t ∉ s.hands ∧ t ∉ s.ready ∧ ∀ fd e, s.net fd = some e → e.armed = true → e.ud ≠ t)
    (hissued : s.pc t = .add ∨ s.pc t = .mod → (s.io t).ioDone = false)
    (hmod : s.pc t = .mod → ∃ e, s.net (s.io t).fd = some e) : Good s t where
  armed fd e he harmed hud := absurd hud (hout.2.2 fd e he harmed)
  hands hmem := absurd hmem hout.1
  entry hmem := absurd hmem hout.1
  kept _ ht := absurd ht (by simp [hpc])
  issued := hissued
  mod := hmod
  ready hmem := absurd hmem hout.2.1

theorem Inv.net_own (h : Inv s) (ha : s.Active t) {o : Option (Entry T)} (ho : ∀ e, o = some e → e.ud = t) (fd : Int) :
    update s.net (s.io t).fd o fd = s.net fd ∨
      (∀ e, update s.net (s.io t).fd o fd = some e → e.ud = t) ∧
        ∀ u, u ≠ t → s.Active u → (s.io u).fd ≠ fd := by
  by_cases hfd : fd = (s.io t).fd
  · subst hfd
    rw [update_self]
    exact .inr ⟨ho, h.ne_fd ha⟩
  · exact .inl (update_of_ne hfd _ _)

theorem start_inv : Inv (start : State T) := by
  refine ⟨fun t u ht => absurd rfl ht.1, fun t => ⟨?_, ?_, ?_, ?_, ?_, ?_, ?_⟩, nodup_nil, nodup_nil⟩ <;>
    simp [start, hands, Turn.task, Pc.told]

theorem Inv.notDisplaced (h : Inv s) : NotDisplaced s :=
  fun t hpc hdone => (h.good t).kept ⟨by simp [hpc], hdone⟩ (by simp [hpc, Pc.told])

end Invariant

section Worker

theorem turn_task (t : T) (n : Next) : (n.turn t).task = some t := by cases n <;> rfl

theorem handle_same (io : Io) (r : Result) :
    (io.handle r).1.fd = io.fd ∧ (io.handle r).1.op = io.op ∧ (io.handle r).1.ioDone = io.ioDone := by
  rw [Io.handle]
  split <;> cases r <;> dsimp only [Io.handleConnect, Io.handleAccept, Io.handleRead, Io.handleWrite, Io.fail]
  all_goals try split
  all_goals exact ⟨rfl, rfl, rfl⟩

theorem mem_hands_of_turn (h : s.turn.task = some t) : t ∈ s.hands := by simp [hands, h]

theorem hands_of_turn (h : s.turn.task = some t) (hs : s'.events = s.events) (ht : s'.turn = .take) :
    s.hands = t :: s'.hands := by
  rw [hands, hands, h, ht, hs]
  rfl

theorem Pc.told_ne {p : Pc} (h : p.told = true) : p ≠ .add ∧ p ≠ .mod := by
  cases p <;> simp_all [Pc.told]

theorem rearm_inv (h : Inv s) (hturn : s.turn = .rearm t) :
    Inv { s with net := netpollMod s.net (s.io t).fd (s.io t).op.events t, turn := .take } := by
  have hg := h.good t
  have htask : s.turn.task = some t := by rw [hturn]; rfl
  have hmem := mem_hands_of_turn htask
  obtain ⟨hactive, htold⟩ := hg.hands hmem
  -- without the entry the task would be lost here
  obtain ⟨e, he⟩ := hg.entry hmem (by simp [hturn])
  have hnet : netpollMod s.net (s.io t).fd (s.io t).op.events t =
      update s.net (s.io t).fd (some ⟨(s.io t).op.events, t, true⟩) := by rw [netpollMod, he]
  rw [hnet]
  have hhands : s.hands = t :: hands ⟨update s.net (s.io t).fd (some ⟨(s.io t).op.events, t, true⟩),
      s.io, s.pc, s.events, .take, s.ready⟩ := hands_of_turn htask rfl rfl
  obtain ⟨hnot, hnodup⟩ := List.nodup_cons.mp (hhands ▸ h.hands_nodup)
  have hown : Own t s ⟨update s.net (s.io t).fd (some ⟨(s.io t).op.events, t, true⟩), s.io, s.pc, s.events,
      .take, s.ready⟩ := by
    refine ⟨fun _ _ => rfl, fun _ _ => rfl, fun u hu => ?_, fun _ _ hfinish => ?_, fun _ _ => Iff.rfl,
      h.net_own hactive fun e he => by cases he; rfl⟩
    · rw [hhands, mem_cons, or_iff_right hu]
    · rw [hturn] at hfinish
      cases hfinish
  refine hown.inv h ⟨fun fd e he harmed hud => ?_, fun hmem => absurd hmem hnot, fun hmem => absurd hmem hnot,
    fun _ _ => .inl (update_self _ _ _), hg.issued, fun hpc => absurd hpc (Pc.told_ne htold).2, hg.ready⟩
    (fun _ => h.ne_fd hactive) hnodup h.ready_nodup
  by_cases hfd : fd = (s.io t).fd
  · subst hfd
    obtain rfl : (⟨(s.io t).op.events, t, true⟩ : Entry T) = e := by simpa using he
    exact ⟨hactive, htold, rfl, rfl, hnot⟩
  · exact absurd hmem (hg.armed fd e ((update_of_ne hfd _ _).symm.trans he) harmed hud).2.2.2.2

theorem del_inv (h : Inv s) (hturn : s.turn = .del t) :
    Inv { s with net := netpollDel s.net (s.io t).fd, turn := .finish t } := by
  have hg := h.good t
  have hhands : s.hands = hands { s with net := netpollDel s.net (s.io t).fd, turn := .finish t } := by
    rw [hands, hands, hturn]
    rfl
  have hmem : t ∈ s.hands := mem_hands_of_turn (by rw [hturn]; rfl)
  obtain ⟨hactive, htold⟩ := hg.hands hmem
  have hown : Own t s { s with net := netpollDel s.net (s.io t).fd, turn := .finish t } := by
    refine ⟨fun _ _ => rfl, fun _ _ => rfl, fun _ _ => by rw [hhands], fun _ _ hfinish => ?_, fun _ _ => Iff.rfl,
      h.net_own hactive fun e he => by cases he⟩
    rw [hturn] at hfinish
    cases hfinish
  refine hown.inv h ⟨fun fd e he harmed hud => ?_, fun _ => ⟨hactive, htold⟩, fun _ hne => absurd rfl hne,
    fun _ _ => .inr (hhands ▸ hmem), hg.issued, fun hpc => absurd hpc (Pc.told_ne htold).2, hg.ready⟩
    (fun _ => h.ne_fd hactive) (hhands ▸ h.hands_nodup) h.ready_nodup
  by_cases hfd : fd = (s.io t).fd
  · subst hfd
    simp [netpollDel] at he
  · exact absurd hmem (hg.armed fd e ((update_of_ne hfd _ _).symm.trans he) harmed hud).2.2.2.2

variable {fds : List Int}

theorem armed_entry (h : Inv s) (harmed : ∀ fd ∈ fds, s.armed fd = true) {fd : Int} (hfd : fd ∈ fds) {e : Entry T}
    (he : s.net fd = some e) : (s.io e.ud).fd = fd ∧ s.Registered e.ud := by
  have harmed' : e.armed = true := by simpa [armed, he] using harmed fd hfd
  obtain ⟨-, -, hfd', hevents, -⟩ := (h.good e.ud).armed fd e he harmed' rfl
  refine ⟨hfd', ?_⟩
  rw [State.Registered, hfd', hevents, he]
  simp [← harmed']

theorem mem_delivered (h : Inv s) (harmed : ∀ fd ∈ fds, s.armed fd = true) :
    t ∈ (fds.filterMap fun fd => (s.net fd).map Entry.ud) ↔ (s.io t).fd ∈ fds ∧ s.Registered t := by
  simp only [mem_filterMap, map_eq_some_iff]
  constructor
  · rintro ⟨fd, hfd, e, he, rfl⟩
    obtain ⟨hfd', hreg⟩ := armed_entry h harmed hfd he
    exact ⟨hfd' ▸ hfd, hreg⟩
  · rintro ⟨hfd, hreg⟩
    exact ⟨_, hfd, _, hreg, rfl⟩

theorem delivered_nodup (h : Inv s) (harmed : ∀ fd ∈ fds, s.armed fd = true) (hnodup : fds.Nodup) :
    (fds.filterMap fun fd => (s.net fd).map Entry.ud).Nodup := by
  refine List.pairwise_filterMap.mpr (hnodup.imp_of_mem fun {fd fd'} hfd hfd' hne u hu u' hu' heq => hne ?_)
  obtain ⟨e, he, rfl⟩ := map_eq_some_iff.mp hu
  obtain ⟨e', he', rfl⟩ := map_eq_some_iff.mp hu'
  rw [← (armed_entry h harmed hfd he).1, heq]
  exact (armed_entry h harmed hfd' he').1

theorem disarm_some {p : Netpoll T} {fd : Int} (h : ∃ e, p fd = some e) : ∃ e, disarm p fds fd = some e := by
  obtain ⟨e, he⟩ := h
  rw [disarm]
  split
  · exact ⟨_, by rw [he]; rfl⟩
  · exact ⟨e, he⟩

theorem disarm_armed {p : Netpoll T} {fd : Int} {e : Entry T} (h : disarm p fds fd = some e) (harmed : e.armed = true) :
    fd ∉ fds ∧ p fd = some e := by
  rw [disarm] at h
  split at h
  · obtain ⟨e', -, rfl⟩ := map_eq_some_iff.mp h
    cases harmed
  · next hfd => exact ⟨hfd, h⟩

theorem wait_inv (h : Inv s) (hturn : s.turn = .take) (hevents : s.events = []) (hnodup : fds.Nodup)
    (harmed : ∀ fd ∈ fds, s.armed fd = true) :
    Inv { s with events := fds.filterMap fun fd => (s.net fd).map Entry.ud, net := disarm s.net fds } := by
  have hbefore : s.hands = [] := by rw [hands, hturn, hevents]; rfl
  have hhands : hands { s with
      events := fds.filterMap fun fd => (s.net fd).map Entry.ud, net := disarm s.net fds } =
      fds.filterMap fun fd => (s.net fd).map Entry.ud := by
    rw [hands, hturn]
    rfl
  refine ⟨h.apart, fun t => ?_, by rw [hhands]; exact delivered_nodup h harmed hnodup, h.ready_nodup⟩
  have hg := h.good t
  refine ⟨fun fd e he harmed' hud => ?_, fun hmem => ?_, fun hmem _ => ?_, fun ha ht => ?_, hg.issued,
    fun hpc => disarm_some (hg.mod hpc), hg.ready⟩
  · obtain ⟨hfd, hold⟩ := disarm_armed he harmed'
    obtain ⟨hactive, htold, hfd', hevents', -⟩ := hg.armed fd e hold harmed' hud
    refine ⟨hactive, htold, hfd', hevents', ?_⟩
    rw [hhands, mem_delivered h harmed, hfd']
    exact fun hmem => hfd hmem.1
  · rw [hhands, mem_delivered h harmed] at hmem
    obtain ⟨hactive, htold, -⟩ := hg.armed _ _ hmem.2 rfl rfl
    exact ⟨hactive, htold⟩
  · rw [hhands, mem_delivered h harmed] at hmem
    exact disarm_some ⟨_, hmem.2⟩
  · have hreg : s.Registered t := (hg.kept ha ht).resolve_right (by simp [hbefore])
    rw [hhands, mem_delivered h harmed]
    by_cases hfd : (s.io t).fd ∈ fds
    · exact .inr ⟨hfd, hreg⟩
    · exact .inl ((if_neg hfd).trans hreg)

end Worker

variable [DecidableEq T]

section Tasks

theorem goto_own (s : State T) (t : T) (p : Pc) : Own t s (s.goto t p) :=
  ⟨fun _ hu => update_of_ne hu _ _, fun _ _ => rfl, fun _ _ => Iff.rfl, fun _ _ => id, fun _ _ => Iff.rfl,
    fun _ => .inl rfl⟩

theorem issue_inv {op : Op} {fd reqN : Int} (h : Inv s) (hok : Alone s (.issue t op fd reqN)) (hpc : s.pc t = .idle) :
    Inv { s.goto t .add with io := update s.io t ⟨fd, op, reqN, 0, 0, 0, false⟩ } := by
  have hout := (h.good t).outside (by rw [hpc]; rfl)
  have hown : Own t s { s.goto t .add with io := update s.io t ⟨fd, op, reqN, 0, 0, 0, false⟩ } :=
    { goto_own s t .add with io := fun _ hu => update_of_ne hu _ _ }
  refine hown.inv h (.of_outside ?_ hout (fun _ => ?_) fun hmod => ?_) (fun _ u hu ha => ?_) h.hands_nodup h.ready_nodup
  · simp [Pc.told]
  · simp
  · simp at hmod
  · simpa using hok u hu ha

theorem untold_inv {p : Pc} (h : Inv s) (hpc : s.pc t = .add) (hp : p = .idle ∨ p = .mod)
    (hmod : p = .mod → ∃ e, s.net (s.io t).fd = some e) : Inv (s.goto t p) := by
  have hout := (h.good t).outside (by rw [hpc]; rfl)
  have hdone : (s.io t).ioDone = false := (h.good t).issued (.inl hpc)
  refine (goto_own s t p).inv h (.of_outside ?_ hout (fun _ => hdone) fun hpc' => ?_) (fun _ => ?_) h.hands_nodup h.ready_nodup
  · rcases hp with rfl | rfl <;> simp [Pc.told]
  · exact hmod (by simpa using hpc')
  · exact h.ne_fd ⟨by simp [hpc], hdone⟩

theorem register_inv (h : Inv s) (hpc : s.pc t = .add ∨ s.pc t = .mod) :
    Inv { s.goto t .yield with
      net := update s.net (s.io t).fd (some ⟨(s.io t).op.events, t, true⟩) } := by
  obtain ⟨hhands, hready, hnet⟩ := (h.good t).outside (by rcases hpc with hpc | hpc <;> rw [hpc] <;> rfl)
  have hdone : (s.io t).ioDone = false := (h.good t).issued hpc
  have hactive : s.Active t := ⟨by rcases hpc with hpc | hpc <;> simp [hpc], hdone⟩
  have hown : Own t s { s.goto t .yield with
      net := update s.net (s.io t).fd (some ⟨(s.io t).op.events, t, true⟩) } :=
    { goto_own s t .yield with net := h.net_own hactive fun e he => by cases he; rfl }
  refine hown.inv h ⟨fun fd e he harmed hud => ?_, fun hmem => ?_, fun hmem => ?_, fun _ _ => ?_, fun _ => hdone,
    fun hmod => ?_, fun hmem => ?_⟩ (fun _ => h.ne_fd hactive) h.hands_nodup h.ready_nodup
  · by_cases hfd : fd = (s.io t).fd
    · subst hfd
      obtain rfl : (⟨(s.io t).op.events, t, true⟩ : Entry T) = e := by simpa using he
      exact ⟨⟨by simp, hdone⟩, by simp [Pc.told], rfl, rfl, hhands⟩
    · exact absurd hud (hnet fd e ((update_of_ne hfd _ _).symm.trans he) harmed)
  · exact absurd hmem hhands
  · exact absurd hmem hhands
  · exact .inl (update_self _ _ _)
  · simp at hmod
  · exact absurd hmem hready

theorem yield_inv (h : Inv s) (hpc : s.pc t = .yield) : Inv (s.goto t .waiting) := by
  have hg := h.good t
  have hself : (s.goto t .waiting).pc t = .waiting := update_self _ _ _
  have hactive : (s.goto t .waiting).Active t ↔ s.Active t := by
    rw [State.Active, State.Active, hself, hpc]
    simp
  have htold : ((s.goto t .waiting).pc t).told = true := by rw [hself]; rfl
  refine (goto_own s t .waiting).inv h ⟨fun fd e he harmed hud => ?_, fun hmem => ?_, hg.entry, fun ha _ => ?_,
    fun hpc' => ?_, fun hpc' => ?_, fun hmem => ?_⟩ (fun ha => h.ne_fd (hactive.mp ha)) h.hands_nodup h.ready_nodup
  · obtain ⟨ha, -, hrest⟩ := hg.armed fd e he harmed hud
    exact ⟨hactive.mpr ha, htold, hrest⟩
  · exact ⟨hactive.mpr (hg.hands hmem).1, htold⟩
  · exact hg.kept (hactive.mp ha) (by rw [hpc]; rfl)
  · simp at hpc'
  · simp at hpc'
  · exact ⟨(hg.ready hmem).1, htold⟩

theorem resume_inv (h : Inv s) (hmem : t ∈ s.ready) : Inv { s.goto t .idle with ready := s.ready.erase t } := by
  have hg := h.good t
  have hidle : ¬s.Active t := fun ha => by
    have := (hg.ready hmem).1
    rw [ha.2] at this
    cases this
  have hown : Own t s { s.goto t .idle with ready := s.ready.erase t } :=
    { goto_own s t .idle with ready := fun u hu => mem_erase_of_ne hu }
  have hself : ¬State.Active { s.goto t .idle with ready := s.ready.erase t } t :=
    fun ha => ha.1 (update_self _ _ _)
  refine hown.inv h (.of_outside ?_ ⟨fun hmem => ?_, h.ready_nodup.not_mem_erase, fun fd e he harmed hud => ?_⟩
    (fun hpc => ?_) fun hpc => ?_) (fun ha => absurd ha hself) h.hands_nodup (h.ready_nodup.erase t)
  · simp [Pc.told]
  · exact hidle (hg.hands hmem).1
  · exact hidle (hg.armed fd e he harmed hud).1
  · simp at hpc
  · simp at hpc

theorem advance_inv (h : Inv s) (hs : advance s t = some s') : Inv s' := by
  rw [advance] at hs
  split at hs
  · cases hs
  · next hpc =>
    rw [netpollAdd] at hs
    cases hnet : s.net (s.io t).fd with
    | none =>
      simp only [hnet] at hs
      cases hs
      exact register_inv h (.inl hpc)
    | some e =>
      simp only [hnet] at hs
      cases hs
      exact untold_inv h hpc (.inr rfl) fun _ => ⟨e, hnet⟩
  · next hpc =>
    obtain ⟨e, he⟩ := (h.good t).mod hpc
    rw [netpollMod, he] at hs
    cases hs
    exact register_inv h (.inr hpc)
  · next hpc =>
    cases hs
    exact yield_inv h hpc
  · split at hs
    · next hmem =>
      cases hs
      exact resume_inv h hmem
    · cases hs

end Tasks

section Events

theorem result_inv {io : Io} {rest : List T} {turn : Turn T} (h : Inv s) (hturn : s.turn = .take)
    (hevents : s.events = t :: rest) (hfd : io.fd = (s.io t).fd) (hdone : io.ioDone = (s.io t).ioDone)
    (htask : turn.task = some t) :
    Inv { s with io := update s.io t io, events := rest, turn := turn } := by
  have hg := h.good t
  have hmem : t ∈ s.hands := by simp [hands, hevents]
  obtain ⟨hactive, htold⟩ := hg.hands hmem
  have hhands : s.hands = hands { s with io := update s.io t io, events := rest, turn := turn } := by
    rw [hands, hands, htask, hturn, hevents]
    rfl
  have hown : Own t s { s with io := update s.io t io, events := rest, turn := turn } := by
    refine ⟨fun _ _ => rfl, fun _ hu => update_of_ne hu _ _, fun _ _ => by rw [hhands], fun _ _ hfinish => ?_,
      fun _ _ => Iff.rfl, fun _ => .inl rfl⟩
    rw [hturn] at hfinish
    cases hfinish
  have hio : State.io { s with io := update s.io t io, events := rest, turn := turn } t = io :=
    update_self _ _ _
  refine hown.inv h ⟨fun fd e he harmed hud => ?_, fun _ => ⟨⟨hactive.1, ?_⟩, htold⟩, fun _ _ => ?_,
    fun _ _ => .inr (hhands ▸ hmem), fun hpc => ?_, fun hpc => ?_, fun hr => ?_⟩ (fun _ => ?_)
    (hhands ▸ h.hands_nodup) h.ready_nodup
  · exact absurd hmem (hg.armed fd e he harmed hud).2.2.2.2
  · rw [hio, hdone]
    exact hactive.2
  · rw [hio, hfd]
    exact hg.entry hmem (by simp [hturn])
  · rw [hio, hdone]
    exact hg.issued hpc
  · rw [hio, hfd]
    exact hg.mod hpc
  · rw [hio, hdone]
    exact hg.ready hr
  · rw [hio, hfd]
    exact h.ne_fd hactive

theorem finish_inv (h : Inv s) (hturn : s.turn = .finish t) :
    Inv { s with
      io := update s.io t { s.io t with ioDone := true }, ready := s.ready ++ [t], turn := .take } := by
  have hg := h.good t
  have htask : s.turn.task = some t := by rw [hturn]; rfl
  have hmem := mem_hands_of_turn htask
  obtain ⟨hactive, htold⟩ := hg.hands hmem
  have hhands : s.hands = t :: hands ⟨s.net, update s.io t { s.io t with ioDone := true }, s.pc,
      s.events, .take, s.ready ++ [t]⟩ := hands_of_turn htask rfl rfl
  obtain ⟨hnot, hnodup⟩ := List.nodup_cons.mp (hhands ▸ h.hands_nodup)
  have hready : t ∉ s.ready := fun hr => by
    have hdone := (hg.ready hr).1
    rw [hactive.2] at hdone
    cases hdone
  have hidle : ¬State.Active ⟨s.net, update s.io t { s.io t with ioDone := true }, s.pc, s.events, .take,
      s.ready ++ [t]⟩ t := fun ha => by simp [State.Active] at ha
  have hown : Own t s ⟨s.net, update s.io t { s.io t with ioDone := true }, s.pc, s.events, .take,
      s.ready ++ [t]⟩ := by
    refine ⟨fun _ _ => rfl, fun _ hu => update_of_ne hu _ _, fun u hu => ?_, fun u hu hfinish => ?_,
      fun u hu => by simp [hu], fun _ => .inl rfl⟩
    · rw [hhands, mem_cons, or_iff_right hu]
    · rw [hturn] at hfinish
      cases hfinish
      exact absurd rfl hu
  refine hown.inv h ⟨fun fd e he harmed hud => ?_, fun hmem => absurd hmem hnot, fun hmem => absurd hmem hnot,
    fun ha => absurd ha hidle, fun hpc => ?_, fun hpc => absurd hpc (Pc.told_ne htold).2,
    fun _ => ⟨by simp, htold⟩⟩ (fun ha => absurd ha hidle) hnodup ?_
  · exact absurd hmem (hg.armed fd e he harmed hud).2.2.2.2
  · exact absurd hpc (not_or.mpr (Pc.told_ne htold))
  · rw [← concat_eq_append]
    exact h.ready_nodup.concat hready

end Events

section Runs

theorem step_inv {a : Act T} (h : Inv s) (hok : Alone s a) (hs : step s a = some s') : Inv s' := by
  cases a with
  | issue t op fd reqN =>
    rw [step] at hs
    split at hs
    · next hpc =>
      cases hs
      exact issue_inv h hok hpc
    · cases hs
  | fail t =>
    rw [step] at hs
    split at hs
    · next hpc =>
      cases hs
      exact untold_inv h hpc (.inl rfl) (by simp)
    · cases hs
  | step t => exact advance_inv h hs
  | wait fds =>
    rw [step] at hs
    split at hs
    · next hturn hevents =>
      split at hs
      · next hfds =>
        cases hs
        exact wait_inv h hturn hevents hfds.1 hfds.2.2
      · cases hs
    · cases hs
  | result r =>
    rw [step] at hs
    split at hs
    · next t rest hturn hevents =>
      split at hs
      · cases hs
        obtain ⟨hfd, -, hdone⟩ := handle_same (s.io t) r
        exact result_inv h hturn hevents hfd hdone (turn_task t _)
      · cases hs
    · cases hs
  | turn =>
    rw [step] at hs
    split at hs
    · cases hs
    · next t hturn =>
      cases hs
      exact rearm_inv h hturn
    · next t hturn =>
      cases hs
      exact del_inv h hturn
    · next t hturn =>
      cases hs
      exact finish_inv h hturn

/-- In every run in which no operation is issued on a descriptor that another one
is waiting for, no waiter is displaced. -/
theorem waiters_not_displaced (h : Run (machine T) Alone s) : NotDisplaced s := by
  refine (h.invariant (I := Inv) (fun s hs => ?_) fun s a s' hi hok hs => step_inv hi hok hs).notDisplaced
  rw [show s = start from hs]
  exact start_inv

end Runs

section Programs

instance (s : State (Fin 2)) (t : Fin 2) : Decidable (s.Active t) :=
  inferInstanceAs (Decidable (s.pc t ≠ .idle ∧ (s.io t).ioDone = false))

instance (s : State (Fin 2)) (a : Act (Fin 2)) : Decidable (Alone s a) :=
  match a with
  | .issue t _ fd _ => inferInstanceAs (Decidable (∀ u, u ≠ t → s.Active u → (s.io u).fd ≠ fd))
  | .fail _ | .step _ | .wait _ | .result _ | .turn => inferInstanceAs (Decidable True)

def switchOut (t : Fin 2) (op : Op) (fd reqN : Int) : List (Act (Fin 2)) :=
  [.issue t op fd reqN, .step t, .step t]

/-- A task is watched for again after a read that would have blocked. -/
theorem reader_not_displaced : ∃ s : State (Fin 2), Run (machine (Fin 2)) Alone s ∧ s.pc 0 = .waiting ∧
    (s.io 0).ioDone = false ∧ s.Registered 0 ∧ NotDisplaced s := by
  have hx : (exec (machine (Fin 2)) Alone
      (switchOut 0 .read 5 16 ++ [.wait [5], .result (.error eagain), .turn] ++ switchOut 1 .write 6 16) start).map
      (fun s => (s.pc 0, (s.io 0).ioDone, s.net (s.io 0).fd, (s.io 0).op.events)) =
      some (.waiting, false, some ⟨.input, 0, true⟩, .input) := by decide
  obtain ⟨s, hr, he⟩ := exec_reads hx (.init rfl)
  simp only [Prod.mk.injEq] at he
  refine ⟨s, hr, he.1, he.2.1, ?_, waiters_not_displaced hr⟩
  rw [State.Registered, he.2.2.1, he.2.2.2]

/-- A task that waits to read, and one that then waits to write to the same
descriptor. -/
theorem reader_displaced : ¬∀ s : State (Fin 2), Reachable (machine (Fin 2)) s → NotDisplaced s := by
  intro h
  have hx : (walk (machine (Fin 2))
      (switchOut 0 .read 5 16 ++ switchOut 1 .write 5 16 ++ [.step 1]) start).map
      (fun s => (s.pc 0, (s.io 0).ioDone, s.net (s.io 0).fd, s.hands)) =
      some (.waiting, false, some ⟨.output, 1, true⟩, []) := by decide
  obtain ⟨s, hr, he⟩ := exec_reads hx (.init rfl)
  simp only [Prod.mk.injEq] at he
  rcases h s hr 0 he.1 he.2.1 with hreg | hmem
  · rw [State.Registered, he.2.2.1] at hreg
    simp at hreg
  · rw [he.2.2.2] at hmem
    cases hmem

/-- No event is delivered twice: a task is in the hands of the worker or ready
at most once, and the poller no longer watches for a task that is ready. -/
theorem ready_once (h : Run (machine T) Alone s) : (s.hands ++ s.ready).Nodup ∧
    ∀ t ∈ s.ready, (s.io t).ioDone = true ∧ ∀ fd e, s.net fd = some e → e.armed = true → e.ud ≠ t := by
  have hI : Inv s := by
    refine h.invariant ?_ fun s a s' hi hok hs => step_inv hi hok hs
    rintro s rfl
    exact start_inv
  have hdone {t : T} (ht : t ∈ s.ready) : ¬ s.Active t := fun ha => by simpa [ha.2] using ((hI.good t).ready ht).1
  refine ⟨nodup_append'.mpr ⟨hI.hands_nodup, hI.ready_nodup, fun t hh hr => hdone hr ((hI.good t).hands hh).1⟩,
    fun t ht => ⟨((hI.good t).ready ht).1, fun fd e he harmed hud => ?_⟩⟩
  exact hdone ht ((hI.good t).armed fd e he harmed hud).1

/-- A read that has returned its bytes. -/
theorem ready_once_read : ∃ s : State (Fin 2), Run (machine (Fin 2)) Alone s ∧ s.ready = [0] ∧ (s.io 0).ioDone = true := by
  have hx : (exec (machine (Fin 2)) Alone (switchOut 0 .read 5 16 ++ [.wait [5], .result (.value 16), .turn]) start).map
      State.ready = some [0] := by decide
  obtain ⟨s, hr, he⟩ := exec_reads hx (.init rfl)
  exact ⟨s, hr, he, ((ready_once hr).2 0 (by simp [he])).1⟩

end Programs

end Picasso.Net
