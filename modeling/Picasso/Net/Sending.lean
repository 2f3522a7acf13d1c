import Picasso.Net.Displacement
import Picasso.Lib.Lists

namespace Picasso.Net.Sending

open Lib.Transition Lib.Chunks Function List

variable {T : Type} [DecidableEq T]

/-- The poller, the worker and the tasks with what they have sent: the bytes at
the buffer of each task, the bytes handed to each socket, those that had been
handed over when a task issued its operation, and the error that its last
`send` met. -/
structure Wired (T : Type) where
  base : State T
  buf : T → Nat → UInt8
  wire : Int → List UInt8
  mark : T → List UInt8
  failure : T → Option Nat

@[simp] def Wired.send (s : Wired T) (t : T) : Result → Wired T
  | .value n =>
    let io := s.base.io t
    { s with wire := update s.wire io.fd (s.wire io.fd ++ chunk (s.buf t) io.offset.toNat n) }
  | .error e => if e = eagain then s else { s with failure := update s.failure t (some e) }

/-- An operation is issued with a buffer; the worker calls `send` for a write. -/
@[simp] def Wired.carry (s : Wired T) (a : Act T) (buf : Nat → UInt8) : Wired T :=
  match a, s.base.events with
  | .issue t _ fd _, _ =>
    { s with
      buf := update s.buf t buf
      mark := update s.mark t (s.wire fd)
      failure := update s.failure t none }
  | .result r, t :: _ => if (s.base.io t).op = .write then s.send t r else s
  | _, _ => s

def wireStep (s : Wired T) (l : Act T × (Nat → UInt8)) : Option (Wired T) :=
  (step s.base l.1).map fun b => { s.carry l.1 l.2 with base := b }

def wired (T : Type) [DecidableEq T] : Machine (Wired T) (Act T × (Nat → UInt8)) :=
  ⟨fun s => s = ⟨start, fun _ _ => 0, fun _ => [], fun _ => [], fun _ => none⟩, wireStep⟩

def Wired.bytes (s : Wired T) (t : T) : List UInt8 := chunk (s.buf t) 0 (s.base.io t).offset.toNat

/-- A write has ended with all bytes sent, or with the error that `send` met. -/
def Wired.Ended (s : Wired T) (t : T) : Prop :=
  (s.base.io t).doneN = (s.base.io t).reqN ∧ s.bytes t = chunk (s.buf t) 0 (s.base.io t).reqN.toNat ∧ s.failure t = none ∨
    (s.base.io t).doneN = -1 ∧ s.failure t = some (s.base.io t).ioErr

/-- The socket of a write has been handed the bytes of the buffer in order, up
to the offset and nothing else while the write goes on, and the task resumes
when the write has ended. -/
structure Complete (s : Wired T) (t : T) : Prop where
  now : s.base.Active t → s.wire (s.base.io t).fd = s.mark t ++ s.bytes t
  kept : s.mark t ++ s.bytes t <+: s.wire (s.base.io t).fd
  resumed : ∀ l s', wireStep s l = some s' → s.base.pc t = .waiting → s'.base.pc t = .idle → s.Ended t

open Wired

section Invariant

@[simp] def Turn.ends (turn : Turn T) (t : T) : Prop := turn = .del t ∨ turn = .finish t

open Sending.Turn

structure Fate (s : Wired T) (t : T) : Prop where
  offset : 0 ≤ (s.base.io t).offset
  now : s.base.Active t → s.wire (s.base.io t).fd = s.mark t ++ s.bytes t
  kept : s.mark t ++ s.bytes t <+: s.wire (s.base.io t).fd
  clear : (s.base.io t).ioDone = false → ¬ ends s.base.turn t → s.failure t = none
  ended : (s.base.io t).ioDone = true ∨ ends s.base.turn t → s.Ended t

variable {s s' : Wired T} {t u : T}

omit [DecidableEq T] in
theorem Fate.frame (h : Fate s u) (hio : s'.base.io u = s.base.io u) (hbuf : s'.buf u = s.buf u)
    (hmark : s'.mark u = s.mark u) (hfail : s'.failure u = s.failure u)
    (hactive : s'.base.Active u → s.base.Active u ∧ s'.wire (s.base.io u).fd = s.wire (s.base.io u).fd)
    (hwire : s.wire (s.base.io u).fd <+: s'.wire (s.base.io u).fd)
    (hturn : ends s'.base.turn u ↔ ends s.base.turn u) : Fate s' u := by
  have hbytes : s'.bytes u = s.bytes u := by rw [bytes, bytes, hio, hbuf]
  refine ⟨hio ▸ h.offset, fun ha => ?_, ?_, fun hd ht => ?_, fun hd => ?_⟩
  · obtain ⟨ha, hw⟩ := hactive ha
    rw [hio, hw, h.now ha, hmark, hbytes]
  · rw [hio, hmark, hbytes]
    exact h.kept.trans hwire
  · rw [hfail]
    exact h.clear (hio ▸ hd) (mt hturn.mpr ht)
  · rw [Wired.Ended, hio, hbytes, hbuf, hfail]
    exact h.ended (hd.imp (hio ▸ ·) hturn.mp)

theorem handle_write {io : Io} (hop : io.op = .write) (r : Result) :
    io.handle r = { io with ioErr := 0 }.handleWrite r := by rw [Io.handle, hop]

omit [DecidableEq T] in
theorem Fate.value {n : Nat} (h : Fate s t) (ha : s.base.Active t)
    (hp : (s.base.io t).offset + n ≤ (s.base.io t).reqN) (hturn : ¬ ends s.base.turn t)
    (hio : s'.base.io t = { s.base.io t with
      ioErr := 0, offset := (s.base.io t).offset + n, doneN := (s.base.io t).offset + n })
    (hbuf : s'.buf t = s.buf t) (hmark : s'.mark t = s.mark t) (hfail : s'.failure t = s.failure t)
    (hwire : s'.wire (s.base.io t).fd =
      s.wire (s.base.io t).fd ++ chunk (s.buf t) (s.base.io t).offset.toNat n)
    (hends : ends s'.base.turn t → ¬ (s.base.io t).offset + n < (s.base.io t).reqN) : Fate s' t := by
  have hoff := h.offset
  have hn : ((s.base.io t).offset + n).toNat = (s.base.io t).offset.toNat + n := by omega
  have hbytes : s'.bytes t = s.bytes t ++ chunk (s.buf t) (s.base.io t).offset.toNat n := by
    rw [bytes, hbuf, hio, hn, chunk_add, Nat.zero_add]
    rfl
  have hall : s'.wire (s'.base.io t).fd = s'.mark t ++ s'.bytes t := by
    rw [hio, hwire, h.now ha, hmark, hbytes, append_assoc]
  have hclear : s'.failure t = none := hfail.trans (h.clear ha.2 hturn)
  refine ⟨by rw [hio]; dsimp only; omega, fun _ => hall, ⟨[], by rw [hall, append_nil]⟩, fun _ _ => hclear, fun hd => ?_⟩
  -- the operation ends only when the offset has come to the length
  have heq : (s.base.io t).offset + n = (s.base.io t).reqN := by
    have hnot : ¬ (s.base.io t).offset + n < (s.base.io t).reqN := by
      refine hends (hd.resolve_left ?_)
      rw [hio, ha.2]
      simp
    omega
  refine .inl ⟨by rw [hio]; exact heq, ?_, hclear⟩
  rw [bytes, hio]
  dsimp only
  rw [heq]

omit [DecidableEq T] in
theorem Fate.error {e : Nat} (h : Fate s t) (ha : s.base.Active t) (hturn : ¬ ends s.base.turn t)
    (hio : s'.base.io t = if e = eagain then { s.base.io t with ioErr := 0 } else { s.base.io t with ioErr := e, doneN := -1 })
    (hbuf : s'.buf t = s.buf t) (hmark : s'.mark t = s.mark t)
    (hfail : s'.failure t = if e = eagain then s.failure t else some e) (hwire : s'.wire = s.wire)
    (hends : ends s'.base.turn t ↔ e ≠ eagain) : Fate s' t := by
  have hsame : (s'.base.io t).offset = (s.base.io t).offset ∧ (s'.base.io t).fd = (s.base.io t).fd ∧
      (s'.base.io t).ioDone = (s.base.io t).ioDone := by
    rw [hio]
    split <;> exact ⟨rfl, rfl, rfl⟩
  have hbytes : s'.bytes t = s.bytes t := by rw [bytes, bytes, hbuf, hsame.1]
  have hall : s'.wire (s'.base.io t).fd = s'.mark t ++ s'.bytes t := by rw [hsame.2.1, hwire, h.now ha, hmark, hbytes]
  refine ⟨hsame.1 ▸ h.offset, fun _ => hall, ⟨[], by rw [hall, append_nil]⟩, fun _ hn => ?_, fun hd => ?_⟩
  · rw [hfail, if_pos (by simpa [hends, -ends] using hn)]
    exact h.clear ha.2 hturn
  · have he : e ≠ eagain := by
      refine hends.mp (hd.resolve_left ?_)
      rw [hsame.2.2, ha.2]
      simp
    right
    rw [hio, hfail, if_neg he, if_neg he]
    exact ⟨rfl, rfl⟩

omit [DecidableEq T] in
theorem not_ends_turn {next : Next} (hut : u ≠ t) : ¬ ends (next.turn t) u := by
  cases next <;> simp [Next.turn, Ne.symm hut]

theorem send_other (s : Wired T) (r : Result) (hut : u ≠ t) :
    (s.send t r).buf = s.buf ∧ (s.send t r).mark = s.mark ∧ (s.send t r).failure u = s.failure u ∧
      (∀ fd, s.wire fd <+: (s.send t r).wire fd) ∧ ∀ fd, fd ≠ (s.base.io t).fd → (s.send t r).wire fd = s.wire fd := by
  cases r with
  | value n =>
    refine ⟨rfl, rfl, rfl, fun fd => ?_, fun fd hfd => update_of_ne hfd _ _⟩
    by_cases hfd : fd = (s.base.io t).fd
    · simp [hfd]
    · simp [hfd]
  | error e =>
    rw [send]
    split
    · exact ⟨rfl, rfl, rfl, fun _ => prefix_rfl, fun _ _ => rfl⟩
    · exact ⟨rfl, rfl, update_of_ne hut _ _, fun _ => prefix_rfl, fun _ _ => rfl⟩

def looked (s : Wired T) (t : T) (rest : List T) (r : Result) : Wired T :=
  { (if (s.base.io t).op = .write then s.send t r else s) with
    base := { s.base with
      io := update s.base.io t ((s.base.io t).handle r).1
      events := rest
      turn := ((s.base.io t).handle r).2.turn t } }

section Looked

variable {rest : List T} {r : Result} (hI : Inv s.base) (hturn : s.base.turn = .take)
  (hevents : s.base.events = t :: rest)

include hI hturn hevents

theorem looked_self (hF : Fate s t) (hp : (s.base.io t).possible r = true) (hop : (s.base.io t).op = .write) :
    Fate (looked s t rest r) t := by
  have hactive : s.base.Active t := ((hI.good t).hands (by simp [State.hands, hevents])).1
  have hends : ¬ ends s.base.turn t := by simp [hturn]
  cases r with
  | value n =>
    have hle : (s.base.io t).offset + n ≤ (s.base.io t).reqN := by simpa [Io.possible, hop] using hp
    refine hF.value (n := n) hactive hle hends ?_ ?_ ?_ ?_ ?_ ?_
    · simp [looked, handle_write hop, Io.handleWrite]
    · simp [looked, hop]
    · simp [looked, hop]
    · simp [looked, hop]
    · simp [looked, hop]
    · intro he hlt
      simp [looked, handle_write hop, Io.handleWrite, hlt, Next.turn] at he
  | error e =>
    by_cases heq : e = eagain
    · refine hF.error (e := e) hactive hends ?_ ?_ ?_ ?_ ?_ ?_
      all_goals simp [looked, hop, handle_write hop, Io.handleWrite, heq, Next.turn]
    · refine hF.error (e := e) hactive hends ?_ ?_ ?_ ?_ ?_ ?_
      all_goals simp [looked, hop, handle_write hop, Io.handleWrite, Io.fail, heq, Next.turn]

theorem looked_other (hF : Fate s u) (hut : u ≠ t) : Fate (looked s t rest r) u := by
  have hactive : s.base.Active t := ((hI.good t).hands (by simp [State.hands, hevents])).1
  have hio : (looked s t rest r).base.io u = s.base.io u := by simp [looked, hut]
  have hturn' : ends (looked s t rest r).base.turn u ↔ ends s.base.turn u := by
    rw [hturn]
    exact iff_of_false (not_ends_turn hut) (by simp)
  have hstill : (looked s t rest r).base.Active u → s.base.Active u := by
    rw [State.Active, hio]
    exact id
  by_cases hop : (s.base.io t).op = .write
  · obtain ⟨hbuf, hmark, hfail, hext, hwire⟩ := send_other s r hut
    have hsend : (looked s t rest r).wire = (s.send t r).wire := by rw [looked, if_pos hop]
    refine hF.frame hio ?_ ?_ ?_ (fun ha => ⟨hstill ha, ?_⟩) ?_ hturn'
    · rw [looked, if_pos hop, hbuf]
    · rw [looked, if_pos hop, hmark]
    · rw [looked, if_pos hop, hfail]
    · rw [hsend]
      exact hwire _ (hI.ne_fd hactive u hut (hstill ha))
    · rw [hsend]
      exact hext _
  · have hsame : looked s t rest r = { s with base := (looked s t rest r).base } := by rw [looked, if_neg hop]
    rw [hsame] at hio hturn' hstill ⊢
    exact hF.frame hio rfl rfl rfl (fun ha => ⟨hstill ha, rfl⟩) prefix_rfl hturn'

end Looked

structure Tracked (s : Wired T) : Prop where
  inv : Inv s.base
  fate : ∀ t, (s.base.io t).op = .write → Fate s t

omit [DecidableEq T] in
theorem Tracked.quiet (h : Tracked s) {b : State T} (hI : Inv b) (hio : b.io = s.base.io)
    (hactive : ∀ u, b.Active u → s.base.Active u) (hturn : ∀ u, ends b.turn u ↔ ends s.base.turn u) :
    Tracked { s with base := b } := by
  refine ⟨hI, fun u hop => ?_⟩
  have hop : (b.io u).op = .write := hop
  rw [hio] at hop
  exact (h.fate u hop).frame (congrFun hio u) rfl rfl rfl (fun ha => ⟨hactive u ha, rfl⟩) prefix_rfl (hturn u)

theorem active_of_goto {s s' : State T} {p : Pc} (hpc : s.pc t ≠ .idle) (hgoto : s'.pc = (s.goto t p).pc)
    (hio : s'.io = s.io) (u : T) (ha : s'.Active u) : s.Active u := by
  refine ⟨?_, hio ▸ ha.2⟩
  by_cases hut : u = t
  · exact hut ▸ hpc
  · simpa [hgoto, hut] using ha.1

theorem advance_same {s s' : State T} (h : advance s t = some s') :
    s'.io = s.io ∧ s'.turn = s.turn ∧ (∃ p, s'.pc = (s.goto t p).pc) ∧ ∀ u, s'.Active u → s.Active u := by
  cases hpc : s.pc t with
  | idle => simp [advance, hpc] at h
  | add =>
    simp only [advance, hpc] at h
    split at h <;> cases h <;> exact ⟨rfl, rfl, ⟨_, rfl⟩, active_of_goto (by simp [hpc]) rfl rfl⟩
  | mod | yield =>
    simp only [advance, hpc] at h
    cases h
    exact ⟨rfl, rfl, ⟨_, rfl⟩, active_of_goto (by simp [hpc]) rfl rfl⟩
  | waiting =>
    simp only [advance, hpc] at h
    split at h <;> cases h
    exact ⟨rfl, rfl, ⟨_, rfl⟩, active_of_goto (by simp [hpc]) rfl rfl⟩

theorem tracked_issue (h : Tracked s) {op : Op} {fd reqN : Int} {buf : Nat → UInt8} (hpc : s.base.pc t = .idle)
    (hI : Inv { s.base.goto t .add with io := update s.base.io t ⟨fd, op, reqN, 0, 0, 0, false⟩ }) :
    Tracked { s.carry (.issue t op fd reqN) buf with
      base := { s.base.goto t .add with io := update s.base.io t ⟨fd, op, reqN, 0, 0, 0, false⟩ } } := by
  refine ⟨hI, fun u hop => ?_⟩
  by_cases hut : u = t
  · subst hut
    have hends : ¬ ends s.base.turn u := by
      intro he
      have hmem : u ∈ s.base.hands := mem_hands_of_turn (by rcases he with he | he <;> rw [he] <;> rfl)
      exact ((h.inv.good u).hands hmem).1.1 hpc
    refine ⟨?_, fun _ => ?_, ?_, fun _ _ => ?_, fun hd => ?_⟩
    · simp
    · simp [bytes, chunk]
    · simp [bytes, chunk]
    · simp
    · refine absurd (hd.resolve_left ?_) hends
      simp
  · have hold : (s.base.io u).op = .write := by simpa [hut] using hop
    refine (h.fate u hold).frame ?_ ?_ ?_ ?_ (fun ha => ⟨?_, rfl⟩) prefix_rfl Iff.rfl
    · simp [hut]
    · simp [hut]
    · simp [hut]
    · simp [hut]
    · simpa [State.Active, hut] using ha

theorem tracked_turn (h : Tracked s) {b : State T} (hI : Inv b) (hs : step s.base .turn = some b) :
    Tracked { s with base := b } := by
  rw [step] at hs
  split at hs
  · cases hs
  · next t hturn =>
    cases hs
    exact h.quiet hI rfl (fun _ => id) fun u => by simp [hturn]
  · next t hturn =>
    cases hs
    exact h.quiet hI rfl (fun _ => id) fun u => by simp [hturn]
  · next t hturn =>
    cases hs
    refine ⟨hI, fun u hop => ?_⟩
    by_cases hut : u = t
    · subst hut
      have hF := h.fate u (by simpa using hop)
      refine ⟨?_, fun ha => ?_, ?_, fun hd => ?_, fun _ => ?_⟩
      · simpa using hF.offset
      · simp [State.Active] at ha
      · simpa [bytes] using hF.kept
      · simp at hd
      · simpa [Wired.Ended, bytes] using hF.ended (.inr (.inr hturn))
    · have hF := h.fate u (by simpa [hut] using hop)
      refine hF.frame ?_ rfl rfl rfl (fun ha => ⟨?_, rfl⟩) prefix_rfl ?_
      · simp [hut]
      · simpa [State.Active, hut] using ha
      · simp [hturn, Ne.symm hut]

theorem tracked_step {l : Act T × (Nat → UInt8)} (h : Tracked s) (hok : Alone s.base l.1) (hs : wireStep s l = some s') :
    Tracked s' := by
  obtain ⟨b, hb, rfl⟩ := Option.map_eq_some_iff.mp hs
  have hI := step_inv h.inv hok hb
  obtain ⟨a, buf⟩ := l
  cases a with
  | issue t op fd reqN =>
    simp only [step] at hb
    split at hb <;> cases hb
    next hpc => exact tracked_issue h hpc hI
  | fail t =>
    simp only [step] at hb
    split at hb <;> cases hb
    next hpc =>
      exact h.quiet hI rfl (active_of_goto (by simp [hpc]) rfl rfl) fun _ => Iff.rfl
  | step t =>
    obtain ⟨hio, hturn, -, hactive⟩ := advance_same hb
    exact h.quiet hI hio hactive fun u => by rw [hturn]
  | wait fds =>
    simp only [step] at hb
    split at hb
    · split at hb <;> cases hb
      exact h.quiet hI rfl (fun _ => id) fun _ => Iff.rfl
    · cases hb
  | result r =>
    simp only [step] at hb
    split at hb
    · next t rest hturn hevents =>
      split at hb <;> cases hb
      next hp =>
        have hlooked : ({ s.carry (.result r) buf with
            base := { s.base with
              io := update s.base.io t ((s.base.io t).handle r).1
              events := rest
              turn := ((s.base.io t).handle r).2.turn t } } : Wired T) = looked s t rest r := by
          simp [hevents, looked]
        rw [hlooked]
        refine ⟨hI, fun u hop => ?_⟩
        by_cases hut : u = t
        · subst hut
          have hop : (s.base.io u).op = .write := by simpa [looked, (handle_same _ r).2.1] using hop
          exact looked_self h.inv hturn hevents (h.fate u hop) hp hop
        · exact looked_other h.inv hturn hevents (h.fate u (by simpa [looked, hut] using hop)) hut
    · cases hb
  | turn => exact tracked_turn h hI hb

theorem run_tracked (h : Run (wired T) (fun s l => Alone s.base l.1) s) : Tracked s := by
  refine h.invariant (I := Tracked) ?_ fun s l s' hi hok hs => tracked_step hi hok hs
  rintro s rfl
  exact ⟨start_inv, by simp [start, noIo]⟩

theorem resumed_ready {a : Act T} {b b' : State T} (h : step b a = some b') (hw : b.pc t = .waiting)
    (hi : b'.pc t = .idle) : t ∈ b.ready := by
  -- the other steps leave the task where it is
  have hstay (hpc : b'.pc t = b.pc t) : t ∈ b.ready := by rw [hpc, hw] at hi; cases hi
  cases a with
  | issue u | fail u =>
    simp only [step] at h
    split at h <;> cases h
    next hu =>
      have hut : t ≠ u := by
        rintro rfl
        simp [hw] at hu
      exact hstay (update_of_ne hut _ _)
  | step u =>
    by_cases hut : t = u
    · subst hut
      simp only [step, advance, hw] at h
      split at h
      · next hm => exact hm
      · cases h
    · obtain ⟨-, -, ⟨p, hp⟩, -⟩ := advance_same h
      exact hstay (by rw [hp]; exact update_of_ne hut _ _)
  | wait | result =>
    simp only [step] at h
    split at h
    · split at h <;> cases h
      exact hstay rfl
    · cases h
  | turn =>
    simp only [step] at h
    split at h <;> cases h <;> exact hstay rfl

end Invariant

/-- Where no operation is issued on a descriptor on which another task has one,
every write is complete. -/
theorem write_complete {s : Wired T} (h : Run (wired T) (fun s l => Alone s.base l.1) s) {t : T}
    (hop : (s.base.io t).op = .write) : Complete s t := by
  have hT := run_tracked h
  have hF := hT.fate t hop
  refine ⟨hF.now, hF.kept, fun l s' hs hw hi => ?_⟩
  obtain ⟨b, hb, rfl⟩ := Option.map_eq_some_iff.mp hs
  exact hF.ended (.inl ((hT.inv.good t).ready (resumed_ready hb hw hi)).1)

def hello (i : Nat) : UInt8 := [104, 101, 108, 108, 111].getD i 0

def inParts (t : Fin 2) : List (Act (Fin 2)) :=
  switchOut t .write 6 5 ++ [.wait [6], .result (.value 2), .turn, .wait [6], .result (.error eagain), .turn,
    .wait [6], .result (.value 3), .turn]

theorem write_complete_parts :
    ∃ s : Wired (Fin 2), Run (wired (Fin 2)) (fun s l => Alone s.base l.1) s ∧ (s.base.io 0).op = .write ∧
      s.base.ready = [0] ∧ s.wire 6 = [104, 101, 108, 108, 111] ∧ Complete s 0 := by
  have hx : (exec (wired (Fin 2)) (fun s l => Alone s.base l.1) ((inParts 0).map fun a => (a, hello))
      ⟨start, fun _ _ => 0, fun _ => [], fun _ => [], fun _ => none⟩).map
      (fun s => ((s.base.io 0).op, s.base.ready, s.wire 6)) = some (.write, [0], [104, 101, 108, 108, 111]) := by decide
  obtain ⟨s, hr, he⟩ := exec_reads hx (.init rfl)
  simp only [Prod.mk.injEq] at he
  exact ⟨s, hr, he.1, he.2.1, he.2.2, write_complete hr he.1⟩

end Picasso.Net.Sending
