import Picasso.Gc.Roots
import Picasso.Lib.Parties
import Picasso.Lib.Ring

namespace Picasso.Gc.RootList

open Lib.Transition Lib Lib.Ring Roots List Function State

attribute [local simp] State.goto State.begin State.leave

variable {P T : Type} {s s' : State P T} {l : List Nat} {p : P} {t : T} {n : Nat}

/-- The list is a circular doubly linked one, and its nodes are those of the
registered tasks. -/
structure Shape (s : State P T) (l : List Nat) : Prop where
  circle : Circle s.fd s.bk l
  head : s.head = l.headD 0
  tasks : l.map s.task = s.registered.map some
  nodup : s.registered.Nodup
  held : ∀ n ∈ l, n ≠ 0 ∧ s.allocated n = true ∧ ∀ t, s.task n = some t → s.gcq t = n

def WellFormed (s : State P T) : Prop :=
  ∃ l : List Nat, Circle s.fd s.bk l ∧ 0 ∉ l ∧ s.head = l.headD 0 ∧ l.map s.task = s.registered.map some

/-- A call that has returned has acquired the lock once, and released it once
while it held it; no call has released it otherwise. -/
def Disciplined (s : State P T) : Prop :=
  ∀ p, ∀ r ∈ s.call p, r.owned = true ∧ r.released ≤ r.acquired ∧ r.acquired ≤ 1 ∧ (s.pc p = .idle → r = ⟨1, 1, true⟩)

/-- A task is removed only while it is registered and another one is, too. -/
def Found (s : State P T) : Act P T → Prop
  | .step p => ∀ t, s.pc p = .removeTest t → t ∈ s.registered ∧ 2 ≤ s.registered.length
  | _ => True

section Shapes

theorem Shape.mem_registered (h : Shape s l) (hn : n ∈ l) (ht : s.task n = some t) : t ∈ s.registered := by
  have hm : s.task n ∈ s.registered.map some := h.tasks ▸ mem_map_of_mem hn
  rw [ht] at hm
  simpa using hm

theorem Shape.gcq_mem (h : Shape s l) (ht : t ∈ s.registered) : s.gcq t ∈ l ∧ s.task (s.gcq t) = some t := by
  have hm : some t ∈ l.map s.task := h.tasks ▸ mem_map_of_mem ht
  obtain ⟨n, hn, hnt⟩ := mem_map.mp hm
  rw [(h.held n hn).2.2 t hnt]
  exact ⟨hn, hnt⟩

theorem Shape.length_eq (h : Shape s l) : l.length = s.registered.length := by
  simpa using congrArg List.length h.tasks

theorem Shape.head_ne (h : Shape s l) (hl : l ≠ []) : s.head ≠ 0 := by
  cases l with
  | nil => exact absurd rfl hl
  | cons m l =>
    rw [show s.head = m from h.head]
    exact (h.held m mem_cons_self).1

theorem Shape.congr (h : Shape s l) (hfd : ∀ n ∈ l, s'.fd n = s.fd n) (hbk : ∀ n ∈ l, s'.bk n = s.bk n)
    (hhead : s'.head = s.head) (htask : ∀ n ∈ l, s'.task n = s.task n) (hreg : s'.registered = s.registered)
    (halloc : ∀ n ∈ l, s'.allocated n = s.allocated n) (hgcq : ∀ t ∈ s.registered, s'.gcq t = s.gcq t) : Shape s' l := by
  refine ⟨h.circle.congr hfd hbk, hhead.trans h.head, ?_, hreg ▸ h.nodup, fun n hn => ?_⟩
  · rw [map_congr_left htask, h.tasks, hreg]
  · obtain ⟨h0, ha, hg⟩ := h.held n hn
    refine ⟨h0, (halloc n hn).trans ha, fun t ht => ?_⟩
    rw [htask n hn] at ht
    rw [hgcq t (h.mem_registered hn ht), hg t ht]

theorem Shape.aside (h : Shape s l) (hn : n ∉ l) (ht : t ∉ s.registered) (hhead : s'.head = s.head)
    (hreg : s'.registered = s.registered) (hnode : ∀ m, m ≠ n → s'.fd m = s.fd m ∧ s'.bk m = s.bk m ∧ s'.task m = s.task m ∧
      s'.allocated m = s.allocated m) (hgcq : ∀ u, u ≠ t → s'.gcq u = s.gcq u) : Shape s' l := by
  have hne : ∀ m ∈ l, m ≠ n := fun m hm => ne_of_mem_of_not_mem hm hn
  exact h.congr (fun m hm => (hnode m (hne m hm)).1) (fun m hm => (hnode m (hne m hm)).2.1) hhead
    (fun m hm => (hnode m (hne m hm)).2.2.1) hreg (fun m hm => (hnode m (hne m hm)).2.2.2)
    fun u hu => hgcq u (ne_of_mem_of_not_mem hu ht)

theorem insert_other : (s.insert t n).task = s.task ∧ (s.insert t n).gcq = s.gcq ∧ (s.insert t n).allocated = s.allocated ∧
    (s.insert t n).registered = t :: s.registered ∧ (s.insert t n).head = n := by
  rw [State.insert]
  split <;> exact ⟨rfl, rfl, rfl, rfl, rfl⟩

theorem Shape.insert (h : Shape s l) (hn : n ∉ l) (h0 : n ≠ 0) (ha : s.allocated n = true) (ht : s.task n = some t)
    (hg : s.gcq t = n) (hr : t ∉ s.registered) : Shape (s.insert t n) (n :: l) := by
  obtain ⟨htask, hgcq, halloc, hreg, hhead⟩ := insert_other (s := s) (t := t) (n := n)
  refine ⟨?_, by rw [hhead]; rfl, ?_, ?_, ?_⟩
  · rw [State.insert]
    cases l with
    | nil =>
      rw [if_pos (show s.head = 0 from h.head)]
      exact ⟨nodup_singleton n, by simp [Lib.Ring.Path]⟩
    | cons m l =>
      have hm : s.head = m := h.head
      have hmn : m ≠ n := by
        rintro rfl
        exact hn mem_cons_self
      rw [if_neg (h.head_ne (by simp))]
      simp only [hm, update_of_ne hmn]
      exact h.circle.push hn
  · rw [htask, hreg, map_cons, map_cons, ht, h.tasks]
  · rw [hreg]
    exact nodup_cons.mpr ⟨hr, h.nodup⟩
  · rw [htask, hgcq, halloc]
    intro m hm
    rcases mem_cons.mp hm with rfl | hm
    · refine ⟨h0, ha, fun u hu => ?_⟩
      cases ht.symm.trans hu
      exact hg
    · exact h.held m hm

theorem Shape.splice [DecidableEq T] (h : Shape s l) (hg : s.gcq t = n) (hr : t ∈ s.registered) (hlen : 2 ≤ s.registered.length) :
    ∃ l', Shape (s.splice t n) l' ∧ n ∉ l' ∧ s.task n = some t ∧ n ≠ 0 ∧ s.allocated n = true := by
  obtain ⟨hmem, htask⟩ := h.gcq_mem hr
  rw [hg] at hmem htask
  have hlen' : 2 ≤ l.length := by rwa [h.length_eq]
  obtain ⟨hfd, hbn⟩ := h.circle.neighbours_ne hmem hlen'
  obtain ⟨l1, l2, rfl⟩ := append_of_mem hmem
  have hnodup := h.circle.nodup
  have hbk : update s.bk (s.fd n) (s.bk n) n = s.bk n := update_of_ne (Ne.symm hfd) _ _
  have hsub : (l1 ++ l2).Sublist (l1 ++ n :: l2) := by simp
  have hout : n ∉ l1 ++ l2 := by
    intro hm
    exact (nodup_cons.mp (perm_middle.nodup hnodup)).1 hm
  refine ⟨l1 ++ l2, ⟨?_, ?_, ?_, ?_, ?_⟩, hout, htask, (h.held n hmem).1, (h.held n hmem).2.1⟩
  · simp only [splice, hbk]
    refine h.circle.unlink fun hnil => ?_
    simp only [append_eq_nil_iff] at hnil
    simp [hnil] at hlen'
  · have hhead := h.head
    simp only [splice, hbk]
    cases l1 with
    | nil =>
      have hr : Circle s.fd s.bk (n :: l2) := h.circle
      cases l2 with
      | nil => simp at hlen'
      | cons m l2 =>
        rw [if_pos (show s.head = n from hhead), update_of_ne (Ne.symm hbn)]
        exact hr.2.1
    | cons m l1 =>
      have hmn : s.head ≠ n := by
        rw [show s.head = m from hhead]
        rintro rfl
        exact hout mem_cons_self
      rw [if_neg hmn]
      exact hhead
  · have hmap : l1.map s.task ++ some t :: l2.map s.task = s.registered.map some := by
      rw [← h.tasks, ← htask]
      simp
    obtain ⟨r1, r, hreg, h1, h2⟩ := map_eq_append_iff.mp hmap.symm
    obtain ⟨u, r2, rfl, hu, h3⟩ := map_eq_cons_iff.mp h2
    cases hu
    have hnt : t ∉ r1 := by
      have hd := h.nodup
      rw [hreg] at hd
      intro hm
      exact (nodup_append.mp hd).2.2 t hm t mem_cons_self rfl
    simp only [splice, hreg, erase_append_right _ hnt, erase_cons_head, map_append, h1, h3]
  · exact h.nodup.erase t
  · intro m hm
    exact h.held m (hsub.subset hm)

end Shapes

section Stages

@[simp] def inside : Pc T → Bool
  | .pushUpdate .. | .pushUnlock .. | .removeTest .. | .removeLast .. | .removeLastUnlock .. | .removeSplice .. => true
  | .removeClear .. | .removeUnlock .. => true
  | _ => false

@[simp] def subject : Pc T → Option T
  | .idle => none
  | .pushLock t _ | .pushUpdate t _ | .pushUnlock t | .removeLock t | .removeTest t | .removeLast t _ => some t
  | .removeLastUnlock t _ | .removeSplice t _ | .removeClear t _ | .removeUnlock t _ | .removeRelease t _ => some t

def Expected : Pc T → Option Record → Prop
  | .idle, r => r = none ∨ r = some ⟨1, 1, true⟩
  | .pushLock .., r | .removeLock .., r => r = some ⟨0, 0, true⟩
  | .removeRelease .., r => r = some ⟨1, 1, true⟩
  | _, r => r = some ⟨1, 0, true⟩

structure Private (s : State P T) (t : T) (n : Nat) : Prop where
  nonnull : n ≠ 0
  allocated : s.allocated n = true
  task : s.task n = some t
  unregistered : t ∉ s.registered

def Stage (s : State P T) : Pc T → Prop
  | .pushLock t n | .pushUpdate t n => Private s t n ∧ s.gcq t = n
  | .removeSplice t n => s.gcq t = n ∧ t ∈ s.registered ∧ 2 ≤ s.registered.length
  | .removeClear t n | .removeUnlock t n | .removeRelease t n => Private s t n
  | .removeLast .. | .removeLastUnlock .. => False
  | _ => True

structure Inv (s : State P T) : Prop where
  shape : ∃ l, Shape s l
  guarded : Lock.Guarded s.lock fun p => inside (s.pc p)
  busy : ∀ p t, subject (s.pc p) = some t → s.busy t = true
  apart : ∀ p q t, subject (s.pc p) = some t → subject (s.pc q) = some t → p = q
  stage : ∀ p, Stage s (s.pc p)
  record : ∀ p, Expected (s.pc p) (s.call p)

theorem Inv.stage_at {c : Pc T} (hI : Inv s) (hp : s.pc p = c) : Stage s c := hp ▸ hI.stage p

theorem Inv.record_at {c : Pc T} (hI : Inv s) (hp : s.pc p = c) : Expected c (s.call p) := hp ▸ hI.record p

theorem Private.not_mem (hp : Private s t n) (h : Shape s l) : n ∉ l := fun hn =>
  hp.unregistered (h.mem_registered hn hp.task)

structure Frame (s s' : State P T) (p : P) (t : T) : Prop where
  pc : ∀ q, q ≠ p → s'.pc q = s.pc q ∧ s'.call q = s.call q
  busy : ∀ u, u ≠ t → s'.busy u = s.busy u ∧ s'.gcq u = s.gcq u
  rest : ∀ u n, u ≠ t → Private s u n → Private s' u n
  registered : s'.registered = s.registered ∨ inside (s.pc p) = true

theorem Stage.frame {c : Pc T} (h : Stage s c) (hpriv : ∀ u n, subject c = some u → Private s u n → Private s' u n)
    (hgcq : ∀ u, subject c = some u → s'.gcq u = s.gcq u) (hreg : inside c = true → s'.registered = s.registered) :
    Stage s' c := by
  cases c with
  | idle | pushUnlock | removeLock | removeTest => trivial
  | pushLock u m | pushUpdate u m => exact ⟨hpriv u m rfl h.1, (hgcq u rfl).trans h.2⟩
  | removeSplice u m =>
    obtain ⟨hg, hr⟩ := h
    refine ⟨(hgcq u rfl).trans hg, ?_⟩
    rw [hreg rfl]
    exact hr
  | removeClear u m | removeUnlock u m | removeRelease u m => exact hpriv u m rfl h
  | removeLast | removeLastUnlock => exact h

theorem Inv.of_frame (hI : Inv s) (hf : Frame s s' p t) (hshape : ∃ l, Shape s' l)
    (hlock : Lock.Effect s.lock s'.lock (fun q => inside (s.pc q)) (fun q => inside (s'.pc q)) p)
    (hmine : subject (s.pc p) = some t ∨ s.pc p = .idle ∧ s.busy t = false)
    (hnext : subject (s'.pc p) = some t ∧ s'.busy t = true ∨ subject (s'.pc p) = none)
    (hstage : Stage s' (s'.pc p)) (hrecord : Expected (s'.pc p) (s'.call p)) : Inv s' := by
  have hne : ∀ q, q ≠ p → ∀ u, subject (s.pc q) = some u → u ≠ t := by
    rintro q hq u hu rfl
    rcases hmine with hp | ⟨-, hb⟩
    · exact hq (hI.apart q p _ hu hp)
    · simp [hI.busy q _ hu] at hb
  refine ⟨hshape, hI.guarded.step hlock fun q hq => by rw [(hf.pc q hq).1], ?_, ?_, ?_, ?_⟩
  · intro q u hu
    by_cases hq : q = p
    · subst hq
      rcases hnext with ⟨ht, hb⟩ | hn
      · cases ht.symm.trans hu
        exact hb
      · simp [hn, -subject] at hu
    · rw [(hf.pc q hq).1] at hu
      rw [(hf.busy u (hne q hq u hu)).1]
      exact hI.busy q u hu
  · have hother : ∀ q, q ≠ p → ∀ u, subject (s'.pc p) = some u → subject (s'.pc q) ≠ some u := by
      intro q hq u hu hqu
      rw [(hf.pc q hq).1] at hqu
      rcases hnext with ⟨ht, -⟩ | hn
      · cases ht.symm.trans hu
        exact hne q hq _ hqu rfl
      · simp [hn, -subject] at hu
    intro q r u hq hr
    by_cases hqp : q = p
    · subst hqp
      by_contra hqr
      exact hother r (Ne.symm hqr) u hq hr
    · by_cases hrp : r = p
      · subst hrp
        exact absurd hq (hother q hqp u hr)
      · rw [(hf.pc q hqp).1] at hq
        rw [(hf.pc r hrp).1] at hr
        exact hI.apart q r u hq hr
  · intro q
    by_cases hq : q = p
    · subst hq
      exact hstage
    · rw [(hf.pc q hq).1]
      refine (hI.stage q).frame (fun u n hu => hf.rest u n (hne q hq u hu)) (fun u hu => (hf.busy u (hne q hq u hu)).2) ?_
      intro hin
      refine hf.registered.resolve_right fun hp => ?_
      exact hq (hI.guarded.unique hin hp)
  · intro q
    by_cases hq : q = p
    · subst hq
      exact hrecord
    · rw [(hf.pc q hq).1, (hf.pc q hq).2]
      exact hI.record q

theorem Inv.of_quiet (hI : Inv s) (hpc : ∀ q, q ≠ p → s'.pc q = s.pc q ∧ s'.call q = s.call q)
    (hbusy : ∀ u, u ≠ t → s'.busy u = s.busy u) (hhead : s'.head = s.head) (hfd : s'.fd = s.fd) (hbk : s'.bk = s.bk)
    (htask : s'.task = s.task) (hgcq : s'.gcq = s.gcq) (halloc : s'.allocated = s.allocated)
    (hreg : s'.registered = s.registered)
    (hlock : Lock.Effect s.lock s'.lock (fun q => inside (s.pc q)) (fun q => inside (s'.pc q)) p)
    (hmine : subject (s.pc p) = some t) (hnext : subject (s'.pc p) = some t ∧ s'.busy t = true ∨ subject (s'.pc p) = none)
    (hstage : Stage s (s'.pc p)) (hrecord : Expected (s'.pc p) (s'.call p)) : Inv s' := by
  have hpriv : ∀ u m, Private s u m → Private s' u m := fun u m hp =>
    ⟨hp.nonnull, halloc ▸ hp.allocated, htask ▸ hp.task, hreg ▸ hp.unregistered⟩
  obtain ⟨l, hl⟩ := hI.shape
  refine hI.of_frame ⟨hpc, fun u hu => ⟨hbusy u hu, by rw [hgcq]⟩, fun u m _ => hpriv u m, .inl hreg⟩ ⟨l, ?_⟩ hlock (.inl hmine)
    hnext (hstage.frame (fun u m _ => hpriv u m) (fun u _ => by rw [hgcq]) fun _ => hreg) hrecord
  exact hl.congr (fun _ _ => by rw [hfd]) (fun _ _ => by rw [hbk]) hhead (fun _ _ => by rw [htask]) hreg
    (fun _ _ => by rw [halloc]) fun _ _ => by rw [hgcq]

end Stages

section Steps

variable [DecidableEq P] [DecidableEq T]

theorem push_inv (hI : Inv s) (h : step s (.push p t n) = some s') : Inv s' := by
  simp only [step] at h
  split at h
  case isFalse => cases h
  next hok =>
    obtain ⟨hidle, hbusy, hreg, h0, hfree⟩ := hok
    cases h
    obtain ⟨l, hl⟩ := hI.shape
    have hnl : n ∉ l := fun hm => by simp [(hl.held n hm).2.1] at hfree
    refine hI.of_frame (p := p) (t := t) ⟨?_, ?_, ?_, .inl rfl⟩ ⟨l, ?_⟩ ?_ (.inr ⟨hidle, hbusy⟩) (.inl ?_) ?_ ?_
    · intro q hq
      simp [hq]
    · intro u hu
      simp [hu]
    · intro u m _ hp
      have hmn : m ≠ n := by
        rintro rfl
        simp [hp.allocated] at hfree
      exact ⟨hp.nonnull, by simp [hmn, hp.allocated],
        by simp [hmn, hp.task], hp.unregistered⟩
    · refine hl.aside hnl hreg rfl rfl (fun m hm => ?_) fun u hu => ?_
      · simp [hm]
      · simp [hu]
    · exact .keep rfl (by simp [hidle])
    · simp
    · simp only [begin, goto, update_self]
      exact ⟨⟨h0, by simp, by simp, hreg⟩, by simp⟩
    · simp [Expected]

theorem remove_inv (hI : Inv s) (h : step s (.remove p t) = some s') : Inv s' := by
  simp only [step] at h
  split at h
  case isFalse => cases h
  next hok =>
    obtain ⟨hidle, hbusy⟩ := hok
    cases h
    refine hI.of_frame (p := p) (t := t) ⟨?_, ?_, fun u m _ hp => ⟨hp.1, hp.2, hp.3, hp.4⟩, .inl rfl⟩ ?_ ?_
      (.inr ⟨hidle, hbusy⟩) (.inl ?_) ?_ ?_
    · intro q hq
      simp [hq]
    · intro u hu
      simp [hu]
    · obtain ⟨l, hl⟩ := hI.shape
      exact ⟨l, hl.1, hl.2, hl.3, hl.4, hl.5⟩
    · exact .keep rfl (by simp [hidle])
    · simp
    · simp [Stage]
    · simp [Expected]

theorem test_inv (hI : Inv s) (hp : s.pc p = .removeTest t) (hr : t ∈ s.registered) (hlen : 2 ≤ s.registered.length)
    (h : advance s p = some s') : Inv s' := by
  obtain ⟨l, hl⟩ := hI.shape
  obtain ⟨hmem, -⟩ := hl.gcq_mem hr
  have hlen' : 2 ≤ l.length := by rwa [hl.length_eq]
  have hn0 := (hl.held _ hmem).1
  have hh0 := hl.head_ne (ne_nil_of_mem hmem)
  have hfd := (hl.circle.neighbours_ne hmem hlen').1
  simp only [advance, hp, hn0, hh0, or_self, if_false, hfd] at h
  cases h
  refine hI.of_quiet (p := p) (t := t) ?_ (fun _ _ => rfl) rfl rfl rfl rfl rfl rfl rfl ?_ (by simp [hp]) (.inl ?_) ?_ ?_
  · intro q hq
    simp [hq]
  · exact .keep rfl (by simp [hp])
  · exact ⟨by simp, hI.busy p t (by simp [hp])⟩
  · simp [Stage, hr, hlen]
  · simpa [Expected] using hI.record_at hp

omit [DecidableEq T] in
theorem acquire_inv {c : Pc T} (hI : Inv s) (hfree : s.lock = none) (hmine : subject (s.pc p) = some t)
    (hcall : s.call p = some ⟨0, 0, true⟩) (hsub : subject c = some t) (hstage : Stage s c)
    (hc : Expected c (some ⟨1, 0, true⟩)) : Inv ((s.acquire p).goto p c) := by
  refine hI.of_quiet (p := p) (t := t) ?_ (fun _ _ => rfl) rfl rfl rfl rfl rfl rfl rfl (.acquire hfree rfl) hmine (.inl ?_) ?_ ?_
  · intro q hq
    simp [acquire, hq]
  · exact ⟨by simp [hsub, -subject], hI.busy p t hmine⟩
  · simpa using hstage
  · simpa [acquire, hcall] using hc

omit [DecidableEq T] in
theorem release_call (hI : Inv s) (hin : inside (s.pc p) = true) (hcall : s.call p = some ⟨1, 0, true⟩) :
    (s.release p).call p = some ⟨1, 1, true⟩ := by
  have hl : s.lock = some p := hI.guarded p hin
  simp [release, hcall, hl]

omit [DecidableEq T] in
theorem pushUpdate_inv (hI : Inv s) (hp : s.pc p = .pushUpdate t n) : Inv ((s.insert t n).goto p (.pushUnlock t)) := by
  obtain ⟨htask, hgcq, halloc, hreg, -⟩ := insert_other (s := s) (t := t) (n := n)
  have hsame : (s.insert t n).pc = s.pc ∧ (s.insert t n).call = s.call ∧ (s.insert t n).busy = s.busy ∧
      (s.insert t n).lock = s.lock := by
    rw [State.insert]
    split <;> exact ⟨rfl, rfl, rfl, rfl⟩
  obtain ⟨hpc, hcall, hbusy, hlock⟩ := hsame
  obtain ⟨hpriv, hg⟩ := hI.stage_at hp
  obtain ⟨l, hl⟩ := hI.shape
  have hmine : subject (s.pc p) = some t := by rw [hp]; rfl
  refine hI.of_frame (p := p) (t := t) ⟨?_, ?_, ?_, .inr (by rw [hp]; rfl)⟩ ⟨n :: l, ?_⟩ ?_ (.inl hmine) (.inl ?_) ?_ ?_
  · intro q hq
    simp [hq, hpc, hcall]
  · intro u _
    simp [hbusy, hgcq]
  · intro u m hu hm
    refine ⟨hm.nonnull, by simp [halloc, hm.allocated], by simp [htask, hm.task], ?_⟩
    simp [hreg, hu, hm.unregistered]
  · have := hl.insert (hpriv.not_mem hl) hpriv.nonnull hpriv.allocated hpriv.task hg hpriv.unregistered
    exact ⟨this.1, this.2, this.3, this.4, this.5⟩
  · exact .keep (by simp [hlock]) (by simp [hp])
  · exact ⟨by simp, by simp [hbusy, hI.busy p t hmine]⟩
  · simp [Stage]
  · simpa [hcall, Expected] using hI.record_at hp

theorem removeSplice_inv (hI : Inv s) (hp : s.pc p = .removeSplice t n) : Inv ((s.splice t n).goto p (.removeClear t n)) := by
  obtain ⟨hg, hr, hlen⟩ := hI.stage_at hp
  obtain ⟨l, hl⟩ := hI.shape
  obtain ⟨l', hl', -, htask, h0, halloc⟩ := hl.splice hg hr hlen
  have hmine : subject (s.pc p) = some t := by rw [hp]; rfl
  refine hI.of_frame (p := p) (t := t) ⟨?_, fun _ _ => ⟨rfl, rfl⟩, ?_, .inr (by rw [hp]; rfl)⟩ ⟨l', ?_⟩ ?_ (.inl hmine)
    (.inl ?_) ?_ ?_
  · intro q hq
    simp [splice, hq]
  · intro u m _ hm
    exact ⟨hm.nonnull, hm.allocated, hm.task, fun hu => hm.unregistered (mem_of_mem_erase hu)⟩
  · exact ⟨hl'.1, hl'.2, hl'.3, hl'.4, hl'.5⟩
  · exact .keep rfl (by simp [hp])
  · exact ⟨by simp, hI.busy p t hmine⟩
  · simp only [goto, update_self]
    exact ⟨h0, halloc, htask, hl.nodup.not_mem_erase⟩
  · simpa [splice, Expected] using hI.record_at hp

theorem removeClear_inv (hI : Inv s) (hp : s.pc p = .removeClear t n) (h : advance s p = some s') : Inv s' := by
  have hpriv : Private s t n := hI.stage_at hp
  obtain ⟨l, hl⟩ := hI.shape
  have hout := hpriv.not_mem hl
  have hmine : subject (s.pc p) = some t := by rw [hp]; rfl
  simp only [advance, hp] at h
  cases h
  refine hI.of_frame (p := p) (t := t) ⟨?_, ?_, fun u m _ hm => ⟨hm.1, hm.2, hm.3, hm.4⟩, .inl rfl⟩ ⟨l, ?_⟩ ?_ (.inl hmine)
    (.inl ?_) ?_ ?_
  · intro q hq
    simp [hq]
  · intro u hu
    simp [hu]
  · refine hl.aside hout hpriv.unregistered rfl rfl (fun m hm => ?_) fun u hu => ?_
    · simp [hm]
    · simp [hu]
  · exact .keep rfl (by simp [hp])
  · exact ⟨by simp, hI.busy p t hmine⟩
  · simp only [goto, update_self]
    exact ⟨hpriv.1, hpriv.2, hpriv.3, hpriv.4⟩
  · simpa [Expected] using hI.record_at hp

theorem removeRelease_inv (hI : Inv s) (hp : s.pc p = .removeRelease t n) (h : advance s p = some s') : Inv s' := by
  have hpriv : Private s t n := hI.stage_at hp
  obtain ⟨l, hl⟩ := hI.shape
  have hout := hpriv.not_mem hl
  have hmine : subject (s.pc p) = some t := by rw [hp]; rfl
  simp only [advance, hp] at h
  cases h
  refine hI.of_frame (p := p) (t := t) ⟨?_, ?_, ?_, .inl rfl⟩ ⟨l, ?_⟩ ?_ (.inl hmine) (.inr ?_) ?_ ?_
  · intro q hq
    simp [hq]
  · intro u hu
    simp [hu]
  · intro u m hu hm
    have hmn : m ≠ n := by
      rintro rfl
      exact hu (Option.some.inj (hm.task.symm.trans hpriv.task))
    exact ⟨hm.nonnull, by simp [hmn, hm.allocated], hm.task, hm.unregistered⟩
  · refine hl.aside hout hpriv.unregistered rfl rfl (fun m hm => ?_) fun _ _ => rfl
    simp [hm]
  · exact .keep rfl (by simp [hp])
  · simp
  · simp [Stage]
  · have hcall : s.call p = some ⟨1, 1, true⟩ := hI.record_at hp
    simp [Expected, hcall]

theorem advance_inv (hI : Inv s) (hf : Found s (.step p)) (h : advance s p = some s') : Inv s' := by
  cases hp : s.pc p with
  | idle => simp [advance, hp] at h
  | removeLast t n | removeLastUnlock t n =>
    exact (hI.stage_at hp).elim
  | pushLock t n | removeLock t =>
    have hstage := hI.stage_at hp
    simp only [advance, hp] at h
    split at h <;> cases h
    next hfree => exact acquire_inv hI hfree (by rw [hp]; rfl) (hI.record_at hp) rfl hstage rfl
  | pushUpdate t n =>
    simp only [advance, hp] at h
    cases h
    exact pushUpdate_inv hI hp
  | pushUnlock t =>
    simp only [advance, hp] at h
    cases h
    have hcall := release_call hI (by rw [hp]; rfl) (hI.record_at hp)
    refine hI.of_quiet (p := p) (t := t) ?_ ?_ rfl rfl rfl rfl rfl rfl rfl ?_ (by rw [hp]; rfl) (.inr ?_) ?_ ?_
    · intro q hq
      simp [release, hq]
    · intro u hu
      simp [release, hu]
    · exact .release (by rw [hp]; rfl) (by simp)
    · simp
    · simp [Stage]
    · simp only [leave, goto, update_self, hcall]
      exact .inr rfl
  | removeTest t =>
    obtain ⟨hr, hlen⟩ := hf t hp
    exact test_inv hI hp hr hlen h
  | removeSplice t n =>
    simp only [advance, hp] at h
    cases h
    exact removeSplice_inv hI hp
  | removeClear t n => exact removeClear_inv hI hp h
  | removeUnlock t n =>
    simp only [advance, hp] at h
    cases h
    have hcall := release_call hI (by rw [hp]; rfl) (hI.record_at hp)
    refine hI.of_quiet (p := p) (t := t) ?_ (fun _ _ => rfl) rfl rfl rfl rfl rfl rfl rfl ?_ (by rw [hp]; rfl) (.inl ?_) ?_ ?_
    · intro q hq
      simp [release, hq]
    · exact .release (by rw [hp]; rfl) (by simp)
    · exact ⟨by simp, hI.busy p t (by rw [hp]; rfl)⟩
    · simp only [goto, update_self]
      exact (hI.stage_at hp :)
    · simp only [goto, update_self, hcall]
      rfl
  | removeRelease t n => exact removeRelease_inv hI hp h

end Steps

section Runs

variable [DecidableEq P] [DecidableEq T]

omit [DecidableEq P] [DecidableEq T] in
theorem init_inv : Inv (init : State P T) := by
  refine ⟨⟨[], trivial, rfl, rfl, nodup_nil, by simp⟩, ?_, ?_, ?_, fun _ => trivial, fun _ => .inl rfl⟩ <;>
    simp [init, Lock.Guarded]

theorem run_inv (h : Run (machine P T) Found s) : Inv s := by
  refine h.invariant (I := Inv) ?_ ?_
  · rintro s rfl
    exact init_inv
  · intro s a s' hI hf hs
    cases a with
    | push p t n => exact push_inv hI hs
    | remove p t => exact remove_inv hI hs
    | step p => exact advance_inv hI hf hs

omit [DecidableEq P] [DecidableEq T] in
theorem Inv.wellFormed (hI : Inv s) : WellFormed s := by
  obtain ⟨l, hl⟩ := hI.shape
  exact ⟨l, hl.circle, fun h0 => (hl.held 0 h0).1 rfl, hl.head, hl.tasks⟩

omit [DecidableEq P] [DecidableEq T] in
theorem Inv.disciplined (hI : Inv s) : Disciplined s := by
  intro p r hr
  have hrec := hI.record p
  rw [Option.mem_def] at hr
  rw [hr] at hrec
  cases hp : s.pc p <;> rw [hp] at hrec
  case idle =>
    rcases hrec with hrec | hrec
    · cases hrec
    · cases hrec
      exact ⟨rfl, Nat.le_refl _, Nat.le_refl _, fun _ => rfl⟩
  all_goals
    cases hrec
    exact ⟨rfl, by simp, by simp, by simp⟩

/-- In every run that removes a task only while it is registered and is not the
only one, the list is well formed whenever the lock is free, and every call
acquires and releases the lock once. -/
theorem root_list_intact (h : Run (machine P T) Found s) : (s.lock = none → WellFormed s) ∧ Disciplined s :=
  ⟨fun _ => (run_inv h).wellFormed, (run_inv h).disciplined⟩

end Runs

instance (s : State (Fin 1) (Fin 2)) : (a : Act (Fin 1) (Fin 2)) → Decidable (Found s a)
  | .step _ => inferInstanceAs (Decidable (∀ _, _))
  | .push .. | .remove .. => .isTrue trivial

def pushing (t : Fin 2) (n : Nat) : List (Act (Fin 1) (Fin 2)) := .push 0 t n :: List.replicate 3 (.step 0)

def removing (t : Fin 2) (k : Nat) : List (Act (Fin 1) (Fin 2)) := .remove 0 t :: List.replicate k (.step 0)

/-- The first of two tasks is removed. -/
theorem root_list_intact_two : ∃ s : State (Fin 1) (Fin 2), Run (machine (Fin 1) (Fin 2)) Found s ∧
    s.lock = none ∧ s.registered = [1] ∧ s.call 0 = some ⟨1, 1, true⟩ ∧ WellFormed s ∧ Disciplined s := by
  have hx : (exec (machine (Fin 1) (Fin 2)) Found (pushing 0 16 ++ pushing 1 48 ++ removing 0 6) init).map
      (fun s => (s.lock, s.registered, s.call 0)) = some (none, [1], some ⟨1, 1, true⟩) := by decide
  obtain ⟨s, hr, he⟩ := exec_reads hx (.init rfl)
  simp only [Prod.mk.injEq] at he
  obtain ⟨hw, hd⟩ := root_list_intact hr
  exact ⟨s, hr, he.1, he.2.1, he.2.2, hw he.1, hd⟩

/-- The removal of the only task releases the lock twice, and that of a task
that is not registered does not release it. -/
theorem lock_misused : (∃ s : State (Fin 1) (Fin 2), Reachable (machine (Fin 1) (Fin 2)) s ∧ ¬ Disciplined s ∧
      s.pc 0 = .idle ∧ s.call 0 = some ⟨1, 2, false⟩) ∧
    ∃ s : State (Fin 1) (Fin 2), Reachable (machine (Fin 1) (Fin 2)) s ∧ ¬ Disciplined s ∧
      s.pc 0 = .idle ∧ s.lock = some 0 := by
  constructor
  · have hx : (walk (machine (Fin 1) (Fin 2)) (pushing 0 16 ++ removing 0 7) init).map
        (fun s => (s.pc 0, s.call 0)) = some (.idle, some ⟨1, 2, false⟩) := by decide
    obtain ⟨s, hr, he⟩ := exec_reads hx (.init rfl)
    simp only [Prod.mk.injEq] at he
    refine ⟨s, hr, fun hd => ?_, he.1, he.2⟩
    exact absurd (hd 0 _ he.2).1 (by simp)
  · have hx : (walk (machine (Fin 1) (Fin 2)) (removing 0 2) init).map
        (fun s => (s.pc 0, s.lock, s.call 0)) = some (.idle, some 0, some ⟨1, 0, true⟩) := by decide
    obtain ⟨s, hr, he⟩ := exec_reads hx (.init rfl)
    simp only [Prod.mk.injEq] at he
    refine ⟨s, hr, fun hd => ?_, he.1, he.2.1⟩
    exact absurd ((hd 0 _ he.2.2).2.2.2 he.1) (by simp)

end Picasso.Gc.RootList
