import Picasso.Lib.Parties
import Picasso.Sync.RwMutex

namespace Picasso.Sync.RwMutexExclusion

open Lib.Transition Lib.Counting RwMutex State

variable {T : Type} [DecidableEq T]

/-- A reader that has called `rwmutex_runlock` holds the lock until its subtraction. -/
@[simp] def readShare (s : State T) (t : T) : Nat := s.reads t + if s.pc t = .runlockSub then 1 else 0

@[simp] def draining : Pc T → Bool
  | .drain | .drainYield | .drainAsleep => true
  | _ => false

@[simp] def unlocking : Pc T → Bool
  | .rwunlockAcquire | .rwunlockStore => true
  | _ => false

@[simp] def writeShare (s : State T) (t : T) : Nat :=
  s.writes t + (draining (s.pc t)).toNat + (unlocking (s.pc t)).toNat

/-- The writer has seen the word without readers and has not yet cleared it. -/
@[simp] def Settled (s : State T) (t : T) : Prop := 0 < s.writes t ∨ unlocking (s.pc t) = true

/-- What a step of `t` can do to the word and to the shares of `t` in it. -/
inductive WordEffect (s s' : State T) (t : T) : Prop
  | quiet (hr : readShare s' t = readShare s t) (hw : writeShare s' t = writeShare s t) (hs : s'.state = s.state)
      (hx : Settled s' t → Settled s t ∨ s.state = WRITER_BIT ∧ draining (s.pc t) = true)
  | readIn (hb : writerBit s.state = false) (hr : readShare s' t = readShare s t + 1)
      (hw : writeShare s' t = writeShare s t) (hs : s'.state = s.state + READER_INC)
  | readOut (hr : readShare s t = readShare s' t + 1) (hw : writeShare s' t = writeShare s t)
      (hs : s'.state = s.state - READER_INC) (hx : Settled s' t → Settled s t)
  | writeIn (hb : writerBit s.state = false) (hr : readShare s' t = readShare s t)
      (hw : writeShare s' t = writeShare s t + 1) (hs : s'.state = s.state + WRITER_BIT)
      (hx : Settled s' t → Settled s t)
  | writeOut (hx : Settled s t) (hr : readShare s' t = readShare s t)
      (hw : writeShare s t = writeShare s' t + 1) (hs : s'.state = 0)

omit [DecidableEq T] in
@[simp] theorem queue_pc (s : State T) (m : Mode) (t : T) : (s.queue m t).pc = s.pc := by cases m <;> rfl

omit [DecidableEq T] in
@[simp] theorem queue_reads (s : State T) (m : Mode) (t : T) : (s.queue m t).reads = s.reads := by
  cases m <;> rfl

omit [DecidableEq T] in
@[simp] theorem queue_writes (s : State T) (m : Mode) (t : T) : (s.queue m t).writes = s.writes := by
  cases m <;> rfl

omit [DecidableEq T] in
@[simp] theorem queue_state (s : State T) (m : Mode) (t : T) : (s.queue m t).state = s.state := by
  cases m <;> rfl

variable {s s' : State T} {t u : T}

theorem advance_other (h : advance s t = some s') (hu : u ≠ t) :
    s'.pc u = s.pc u ∧ s'.reads u = s.reads u ∧ s'.writes u = s.writes u := by
  cases hp : s.pc t with
  | cas m old =>
    simp only [advance, hp] at h
    split at h <;> cases h
    · cases m <;> simp [exchange, hu]
    · simp [hu]
  | _ =>
    simp only [advance, hp] at h
    try split at h
    all_goals cases h
    all_goals simp [hu]

theorem advance_word (h : advance s t = some s') (hc : ∀ m old, s.pc t = .cas m old → writerBit old = false) :
    WordEffect s s' t := by
  cases hp : s.pc t with
  | cas m old =>
    have hb := hc m old hp
    simp only [advance, hp] at h
    split at h
    · next he =>
      cases h
      subst he
      cases m with
      | reader =>
        refine .readIn hb ?_ ?_ rfl <;>
          simp [exchange, hp]
      | writer =>
        refine .writeIn hb ?_ ?_ ?_ ?_ <;>
          simp [exchange, hp, withWriterBit, hb]
    · cases h
      refine .quiet ?_ ?_ rfl ?_ <;>
        simp [hp]
  | runlockSub =>
    simp only [advance, hp] at h
    cases h
    refine .readOut ?_ ?_ rfl ?_ <;>
      split <;> simp_all
  | rwunlockStore =>
    simp only [advance, hp] at h
    cases h
    refine .writeOut (.inr (by simp [hp])) ?_ ?_ rfl <;>
      simp [hp]
  | drain =>
    simp only [advance, hp] at h
    split at h <;> cases h
    · next he =>
      refine .quiet ?_ ?_ rfl (fun _ => .inr ⟨he, by simp [hp]⟩) <;>
        simp [hp]
    · refine .quiet ?_ ?_ rfl ?_ <;>
        simp [hp]
      exact .inl
  | _ =>
    simp only [advance, hp] at h
    try split at h
    all_goals cases h
    all_goals refine .quiet ?_ ?_ ?_ (fun hx => .inl ?_) <;>
      simp_all

theorem advance_expected (h : advance s t = some s') {m : Mode} {old : Int} (hp' : s'.pc t = .cas m old) :
    writerBit old = false := by
  cases hp : s.pc t with
  | cas m old =>
    simp only [advance, hp] at h
    split at h <;> cases h
    · cases m <;> simp [exchange] at hp'
    · simp at hp'
  | load m =>
    simp only [advance, hp] at h
    cases h
    simp only [goto, Function.update_self] at hp'
    split at hp' <;> cases hp'
    simpa using ‹¬ writerBit s.state = true›
  | _ =>
    simp only [advance, hp] at h
    try split at h
    all_goals cases h
    all_goals simp only [goto, queue_pc, Function.update_self] at hp'
    all_goals cases hp'

structure Effect (s s' : State T) (t : T) : Prop where
  other : ∀ u, u ≠ t → s'.pc u = s.pc u ∧ s'.reads u = s.reads u ∧ s'.writes u = s.writes u
  word : WordEffect s s' t
  expected : ∀ m old, s'.pc t = .cas m old → writerBit old = false

theorem step_effect {a : Act T} (h : step s a = some s')
    (hc : ∀ m old, s.pc a.task = .cas m old → writerBit old = false) : Effect s s' a.task := by
  cases a with
  | step t => exact ⟨fun u => advance_other h, advance_word h hc, fun m old => advance_expected h⟩
  | rlock t | rwlock t =>
    simp only [step] at h
    split at h <;> cases h
    next hp =>
      refine ⟨fun u hu => ?_, .quiet ?_ ?_ rfl (fun hx => .inl ?_), ?_⟩ <;>
        simp_all [Act.task]
  | runlock t | rwunlock t =>
    simp only [step] at h
    split at h <;> cases h
    next hp =>
      obtain ⟨hp, h0⟩ := hp
      refine ⟨fun u hu => ?_, .quiet ?_ ?_ rfl (fun hx => .inl ?_), ?_⟩ <;>
        simp_all [Act.task]
      all_goals omega
  | spurious t =>
    simp only [step] at h
    split at h <;> cases h
    next m old hp =>
      refine ⟨fun u hu => ?_, .quiet ?_ ?_ rfl (fun hx => .inl ?_), ?_⟩ <;>
        simp_all [Act.task]

omit [DecidableEq T] in
theorem settled_share (h : Settled s t) : 0 < writeShare s t := by
  rcases h with h | h
  · simp only [writeShare]; omega
  · simp [h, -unlocking]

theorem settled_other (he : Effect s s' t) (hu : u ≠ t) (h : Settled s' u) : Settled s u := by
  simpa only [Settled, he.other u hu] using h

section Counting

variable [Fintype T]

def readerCount (s : State T) : Nat := ∑ t, readShare s t

/-- The number of writers that own the lock or drain its readers. -/
def writerCount (s : State T) : Nat := ∑ t, writeShare s t

structure Inv (s : State T) : Prop where
  word : s.state = READER_INC * readerCount s + WRITER_BIT * writerCount s
  single : writerCount s ≤ 1
  settled : ∀ t, Settled s t → readerCount s = 0
  expected : ∀ t m old, s.pc t = .cas m old → writerBit old = false

variable {s s' : State T}

theorem readerCount_step {t : T} (he : Effect s s' t) :
    readerCount s' + readShare s t = readerCount s + readShare s' t :=
  sum_point fun u hu => by simp [he.other u hu]

theorem writerCount_step {t : T} (he : Effect s s' t) :
    writerCount s' + writeShare s t = writerCount s + writeShare s' t :=
  sum_point fun u hu => by simp [he.other u hu]

theorem inv_step {a : Act T} (h : Inv s) (hs : step s a = some s') : Inv s' := by
  have he := step_effect hs (h.expected a.task)
  have hr := readerCount_step he
  have hw := writerCount_step he
  have hword := h.word
  have hsingle := h.single
  have hexp (t : T) (m : Mode) (old : Int) (hp : s'.pc t = .cas m old) : writerBit old = false := by
    by_cases ht : t = a.task
    · exact he.expected m old (ht ▸ hp)
    · exact h.expected t m old ((he.other t ht).1 ▸ hp)
  simp only [READER_INC, WRITER_BIT] at hword
  have hzero (hb : writerBit s.state = false) : writerCount s = 0 := by
    simp only [writerBit, decide_eq_false_iff_not] at hb
    omega
  have hset {t : T} (hx : Settled s' a.task → Settled s a.task) (ht : Settled s' t) : Settled s t := by
    by_cases hta : t = a.task
    · exact hta ▸ hx (hta ▸ ht)
    · exact settled_other he hta ht
  cases he.word with
  | quiet er ew es hx =>
    refine ⟨?_, by omega, fun t ht => ?_, hexp⟩
    · simp only [READER_INC, WRITER_BIT]; omega
    · by_cases hta : t = a.task
      · subst hta
        rcases hx ht with hset | ⟨hv, hd⟩
        · have := h.settled _ hset; omega
        · -- the drain loop leaves with the word equal to the writer bit
          have := share_le_sum (writeShare s) a.task
          have : 0 < writeShare s a.task := by simp [hd, -draining]
          simp only [writerCount, WRITER_BIT] at *
          omega
      · have := h.settled t (settled_other he hta ht); omega
  | readIn hb er ew es =>
    -- the exchanged value had no writer bit, so nobody is settled before or after
    have hzero := hzero hb
    refine ⟨?_, by omega, fun t ht => ?_, hexp⟩
    · simp only [READER_INC, WRITER_BIT] at *; omega
    · have := share_le_sum (writeShare s') t
      have := settled_share ht
      simp only [writerCount] at *
      omega
  | readOut er ew es hx =>
    refine ⟨?_, by omega, fun t ht => ?_, hexp⟩
    · simp only [READER_INC, WRITER_BIT] at *; omega
    · have := h.settled t (hset hx ht)
      omega
  | writeIn hb er ew es hx =>
    have hzero := hzero hb
    refine ⟨?_, by omega, fun t ht => ?_, hexp⟩
    · simp only [READER_INC, WRITER_BIT] at *; omega
    · exfalso
      have := share_le_sum (writeShare s) t
      have := settled_share (hset hx ht)
      simp only [writerCount] at *
      omega
  | writeOut hx er ew es =>
    have hread := h.settled _ hx
    refine ⟨?_, by omega, fun t ht => ?_, hexp⟩
    · have := share_le_sum (writeShare s) a.task
      simp only [READER_INC, WRITER_BIT, writerCount] at *; omega
    · omega

theorem inv_create : Inv (create : State T) := by
  constructor <;>
    simp [create, readerCount, writerCount, READER_INC,
      WRITER_BIT]

theorem reachable_inv (h : Reachable (machine T) s) : Inv s := by
  refine Run.invariant ?_ ?_ h
  · rintro s rfl
    exact inv_create
  · intro s a s' hi _ hs
    exact inv_step hi hs

/-- A writer between its return from `rwmutex_rwlock` and its unlock excludes
every other writer and every reader, and the word always counts the readers
and the one writer that owns the lock or drains it. -/
theorem rwmutex_exclusive {s : State T} (h : Reachable (machine T) s) :
    (∀ t, 0 < s.writes t → (∀ u, 0 < s.writes u → u = t) ∧ ∀ u, s.reads u = 0) ∧
      s.state = READER_INC * readerCount s + if ∃ t, 0 < writeShare s t then WRITER_BIT else 0 := by
  have hi := reachable_inv h
  refine ⟨fun t ht => ⟨fun u hu => ?_, fun u => ?_⟩, ?_⟩
  · by_contra hne
    have hsum := two_shares_le_sum (f := writeShare s) hne
    have hsingle := hi.single
    simp only [writerCount, writeShare] at *
    omega
  · have hread := hi.settled t (.inl ht)
    have hshare := share_le_sum (readShare s) u
    simp only [readerCount, readShare] at *
    omega
  · have hword := hi.word
    have hsingle := hi.single
    split
    · next hx =>
      obtain ⟨t, ht⟩ := hx
      have hshare := share_le_sum (writeShare s) t
      simp only [writerCount, WRITER_BIT] at *
      omega
    · next hx =>
      have hzero : writerCount s = 0 :=
        Finset.sum_eq_zero fun t _ => Nat.eq_zero_of_not_pos fun ht => hx ⟨t, ht⟩
      rw [hword, hzero]
      simp

end Counting

/-- A writer sets its bit while a reader is inside and returns after the
reader's subtraction. -/
theorem rwmutex_exclusive_drained : ∃ s : State (Fin 2), Reachable (machine (Fin 2)) s ∧ 0 < s.writes 1 ∧
      (∀ u, 0 < s.writes u → u = 1) ∧ ∀ u, s.reads u = 0 := by
  have hx : (walk (machine (Fin 2)) [.rlock 0, .step 0, .step 0, .rwlock 1, .step 1, .step 1,
      .runlock 0, .step 0, .step 1] create).map (fun s => s.writes 1) = some 1 := by decide
  obtain ⟨s, hr, he⟩ := exec_reads hx (.init rfl)
  have hw : 0 < s.writes 1 := by omega
  exact ⟨s, hr, hw, (rwmutex_exclusive hr).1 1 hw⟩

end Picasso.Sync.RwMutexExclusion
