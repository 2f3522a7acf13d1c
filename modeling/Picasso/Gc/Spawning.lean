import Picasso.Gc.Flags
import Picasso.Gc.Reach

namespace Picasso.Gc.Spawning

open Alloc.Chunk Alloc.Allocator Alloc.Arenas Alloc.Custody Alloc.Interference Collector Marks Survive Flags
open Reach Lib.Transition List Option
open Alloc.Invariant hiding Inv

variable {w w' : World} {G G' : Nat → Ghost} {g' : Ghost} {h : Holding} {i : Nat}

instance (m : Mem) (b : Block) (v : Nat) : Decidable (Inside m b v) := inferInstanceAs (Decidable (_ ∧ _))

/-- What a call of `thread` finds: the arguments, the addresses of the task and
of the payload in the global arena, the registers that `getcontext` saves, and
the new stack. -/
structure Spawn where
  args : List Nat
  t : Nat
  payload : Nat
  saved : List Nat
  stack : Nat
  words : Nat
  entry : Nat

/-- `platform_ctx_make`: the trampoline is entered with the task and the
payload in the first two registers, on an empty stack. -/
def platformCtxMake (saved : List Nat) (entry a b stack words : Nat) : Task :=
  ⟨false, stack, List.replicate words 0, (saved.set 0 a).set 1 b, stack + 8 * words, entry⟩

def taskCreate (sp : Spawn) : Task := platformCtxMake sp.saved sp.entry sp.t sp.payload sp.stack sp.words

/-- A task that no scheduler has resumed yet. Its arguments are in cells of the
global arena. `passed` are the blocks that they point into, but for those that
the program itself has released since. -/
structure Pending where
  task : Task
  args : List Nat
  passed : List (Nat × Block)

structure State where
  heap : Collecting
  started : List Task
  pending : List Pending

def State.tasks (s : State) : List Task := s.started ++ s.pending.map Pending.task

def pointees (w : World) (v : Nat) : List (Nat × Block) :=
  w.arenas.zipIdx.flatMap fun (h, i) => (h.live.filter fun b => Inside w.mem b v).map fun b => (i, b)

def thread (w : World) (sp : Spawn) : Pending := ⟨taskCreate sp, sp.args, sp.args.flatMap (pointees w)⟩

def Pending.drop (a : Act) (p : Pending) : Pending :=
  match a with
  | .release i b => { p with passed := p.passed.filter (· ≠ (i, b)) }
  | _ => p

inductive PAct
  | mutate (a : Act)
  | run (tasks : List Task)
  | thread (sp : Spawn)
  | start (k : Nat)
  | mark
  | sweep

/-- The started tasks run and change their words at will. The memory of the
global arena is in no registered heap. -/
def pstep (s : State) : PAct → Option State
  | .mutate a => (gcStep s.heap (.mutate a)).map fun c => { s with heap := c, pending := s.pending.map (Pending.drop a) }
  | .run tasks => if s.heap.todo.isEmpty then some { s with started := tasks } else none
  | .thread sp =>
    if s.heap.todo.isEmpty ∧ ∀ heap ∈ heapsOf s.heap.world, ∀ a ∈ [sp.t, sp.payload], a < heap.1 ∨ heap.2 ≤ a then
      some { s with pending := thread s.heap.world sp :: s.pending }
    else none
  | .start k =>
    if s.heap.todo.isEmpty then do
      let p ← s.pending[k]?
      return { s with started := p.task :: s.started, pending := s.pending.eraseIdx k }
    else none
  | .mark => (gcStep s.heap (.mark s.tasks)).map fun c => { s with heap := c }
  | .sweep => (gcStep s.heap .sweep).map fun c => { s with heap := c }

def machine : Machine State PAct := ⟨(· = ⟨⟨start, []⟩, [], []⟩), pstep⟩

def Pending.Needs (p : Pending) (w : World) : Nat → Block → Prop := Reaches w (stackOf p.args)

/-- A collection begins only when it will meet, on the stacks and in the
registers of the tasks, each heap block that a task yet to start needs. The
releases are smooth ones. -/
def Held (s : State) : PAct → Prop
  | .mutate a => Calm s.heap (.mutate a)
  | .sweep => Calm s.heap .sweep
  | .mark => ∀ p ∈ s.pending, ∀ i b, p.Needs s.heap.world i b → b.direct = false → Noted s.heap.world s.tasks b
  | _ => True

/-- Any number of collections, the last of which may still be under way. -/
inductive Collections (s : State) : State → Prop
  | refl : Collections s s
  | step {u v : State} {a : PAct} : Collections s u → a = .mark ∨ a = .sweep → Held u a → pstep u a = some v → Collections s v

/-- The blocks that the tasks yet to start need are marked as long as the sweep
has still to come to them. -/
def Sheltered (s : State) : Prop :=
  ∀ p ∈ s.pending, ∀ i c, p.Needs s.heap.world i ⟨c + 16, false⟩ → Ahead s.heap.todo i c →
    hasFlag (s.heap.world.mem c) GC_MARK = true

def Rooted (s : State) : Prop :=
  ∀ p ∈ s.pending, ∀ x ∈ p.passed, ∃ h, s.heap.world.arenas[x.1]? = some h ∧ x.2 ∈ h.live ∧
    ∃ v ∈ p.args, Inside s.heap.world.mem x.2 v

structure PInv (s : State) (G : Nat → Ghost) : Prop where
  inv : Inv s.heap G
  distinct : Distinct s.heap.todo
  sheltered : Sheltered s
  rooted : Rooted s

variable {s s' : State} {x : Nat × Block}

theorem Rooted.needs (hr : Rooted s) {p : Pending} (hp : p ∈ s.pending) (hx : x ∈ p.passed) :
    p.Needs s.heap.world x.1 x.2 := by
  obtain ⟨h, hi, hb, v, hv, hin⟩ := hr p hp x hx
  exact .root (mem_singleton.mpr rfl) rfl (by simp [words, hv]) hi hb hin

structure Spared (s s' : State) : Prop where
  pending : s'.pending = s.pending
  keeps : ∀ p ∈ s.pending, ∀ i b, p.Needs s.heap.world i b → Undisturbed s.heap.world s'.heap.world i b

theorem Spared.rooted (hs : Spared s s') (hr : Rooted s) : Rooted s' := by
  intro p hp x hx
  rw [hs.pending] at hp
  obtain ⟨-, -, -, v, hv, hin⟩ := hr p hp x hx
  obtain ⟨h', hi', hb', hsize, -⟩ := hs.keeps p hp _ _ (hr.needs hp hx)
  refine ⟨h', hi', hb', v, hv, ?_⟩
  rw [Inside, hsize]
  exact hin

theorem mark_spec (hP : PInv s G) (hnil : s.heap.todo = []) (hheld : Held s .mark) :
    ∃ s', pstep s .mark = some s' ∧ PInv s' G ∧ Spared s s' := by
  have hU := hP.inv.sound.toUpkeep
  obtain ⟨m, hmark, hm⟩ := gcMark_spec hU s.tasks
  have hstep : gcStep s.heap (.mark s.tasks) = some ⟨{ s.heap.world with mem := m }, cursors { s.heap.world with mem := m }⟩ := by
    simp only [gcStep, hnil, isEmpty_nil, if_true, hmark, map_some]
  obtain ⟨c, hrun, hI⟩ := inv_mark hP.inv hnil s.tasks
  cases hstep.symm.trans hrun
  -- marking writes to the headers only
  have hsame : ∀ i b, (∃ h, s.heap.world.arenas[i]? = some h ∧ b ∈ h.live) →
      Undisturbed s.heap.world { s.heap.world with mem := m } i b ∧
        Undisturbed { s.heap.world with mem := m } s.heap.world i b := by
    rintro i b ⟨h, hi, hb⟩
    obtain ⟨c, d, rfl, hd⟩ := (hU.kempt i h hi).block_of_mem hb
    have hpay : ∀ x, Payload (G i) c x → m x = s.heap.world.mem x := fun x hx =>
      hm.same x (payload_not_chunk hU hi hx)
    exact ⟨undisturbed_of_handed hU hm.upkeep (Nat.le_refl _) hi hd hd rfl hpay,
      undisturbed_of_handed hm.upkeep hU (Nat.le_refl _) (h := h) hi hd hd rfl fun x hx => (hpay x hx).symm⟩
  have hspared : Spared s { s with heap := ⟨{ s.heap.world with mem := m }, cursors { s.heap.world with mem := m }⟩ } :=
    ⟨rfl, fun p _ i b hb => (hsame i b (Reaches.live hb)).1⟩
  refine ⟨_, by simp only [pstep, hstep, map_some], ⟨hI, distinct_cursors hm.upkeep, ?_, hspared.rooted hP.rooted⟩,
    hspared⟩
  intro p hp i c hb _
  have hb' : p.Needs s.heap.world i ⟨c + 16, false⟩ :=
    Reaches.transfer (w := { s.heap.world with mem := m }) (fun i b hb => (hsame i b hb.live).2) hb
  obtain ⟨h, hi, hl⟩ := Reaches.live hb'
  obtain ⟨c', hc, hd⟩ := ((hU.kempt i h hi).live _).mp hl
  cases Nat.add_right_cancel hc
  exact (marked_iff_noted hU hi hm hd).mpr (hheld p hp i _ hb' rfl)

/-- A sweep step keeps the blocks that the tasks need, since it does not stand
at one of them without its mark. -/
theorem visit_spec {c : Cursor} {cs : List Cursor} (hP : PInv s G) (htodo : s.heap.todo = c :: cs)
    (hcalm : Calm s.heap .sweep) (hlt : c.scan < c.stop) :
    ∃ s' G', pstep s .sweep = some s' ∧ PInv s' G' ∧ Spared s s' := by
  have hU := hP.inv.sound.toUpkeep
  obtain ⟨h, e, hi, hh, hle, -, hp⟩ := hP.inv.head c (by simp [htodo])
  obtain ⟨h1, w', g', n, hi1, hv, hn, hrun, hI⟩ := inv_visit hP.inv htodo hcalm hlt
  cases hi.symm.trans hi1
  have hU' : Upkeep true w' (Function.update G c.arena g') := hI.sound.toUpkeep
  obtain ⟨d, x, hd, hend, hor⟩ := spot hU hi hh hle hlt hp
  have hown := spot_owned hd hend hor
  have hlen : w'.arenas.length = s.heap.world.arenas.length := by cases hv <;> simp [World.put]
  have hkeep {j e : Nat} {b : Bool} (hj : j < s.heap.world.arenas.length) := visit_keeps hU hi hown
    (fun c => spot_not_payload hU hi hd hend hor) hv (d := b) (c := e) hj
  have hspared : Spared s { s with heap := ⟨w', { c with scan := n } :: cs⟩ } := by
    refine ⟨rfl, fun p hp j b hb => ?_⟩
    obtain ⟨h', hj, hl⟩ := Reaches.live hb
    obtain ⟨e, b, rfl, hd⟩ := (hU.kempt j h' hj).block_of_mem hl
    have hmark : b = false → j = c.arena → e = c.scan → hasFlag (s.heap.world.mem c.scan) GC_MARK = true := by
      rintro rfl rfl rfl
      exact hP.sheltered p hp _ _ hb ⟨c, by simp [htodo], rfl, Nat.le_refl _, hlt⟩
    obtain ⟨hd', hcell, hmem⟩ := hkeep (lt_of_arena hj) hd hmark
    exact undisturbed_of_handed hU hU' (Nat.le_of_eq hlen.symm) hj hd hd' hcell hmem
  refine ⟨_, _, by simp only [pstep, hrun, map_some], ⟨hI, ?_, ?_, hspared.rooted hP.rooted⟩, hspared⟩
  · have := hP.distinct
    rw [htodo] at this
    exact pairwise_cons.mpr (pairwise_cons.mp this)
  · intro p hp j e hb ha
    -- what is left of the blocks was there before the visit
    have hback : ∀ j b, Reaches w' (stackOf p.args) j b → Undisturbed w' s.heap.world j b := by
      intro j b hb
      obtain ⟨h', hj, hl⟩ := hb.live
      obtain ⟨e, b, rfl, hd'⟩ := (hU'.kempt j h' hj).block_of_mem hl
      have hj' := getElem?_eq_getElem (hlen ▸ lt_of_arena hj)
      obtain ⟨hd, hmark⟩ := visit_back hU hi hown hv hj' hd'
      obtain ⟨-, hcell, hmem⟩ := hkeep (lt_of_arena hj') hd hmark
      refine undisturbed_of_handed hU' hU (Nat.le_of_eq hlen) hj hd' hd hcell.symm fun x hx => (hmem x ?_).symm
      obtain ⟨y, hy, hop, hx⟩ := hx
      obtain ⟨y', hy', hop', -⟩ := (hU.kempt j _ hj').handed_cell hd
      cases (hcell.symm.trans hy).symm.trans hy'
      exact ⟨y, hy', hop', hx⟩
    have hb' : p.Needs s.heap.world j ⟨e + 16, false⟩ := Reaches.transfer hback hb
    obtain ⟨h', hj, hl⟩ := Reaches.live hb
    obtain ⟨e', he, hd'⟩ := ((hU'.kempt j h' hj).live _).mp hl
    cases Nat.add_right_cancel he
    have hj' := getElem?_eq_getElem (hlen ▸ lt_of_arena hj)
    obtain ⟨-, -, hsame⟩ := visit_live hU hi hown hv hj' hd'
    have hold := hP.sheltered p hp j e hb' (by rw [htodo]; exact ha.advance (Nat.le_of_lt hn))
    rw [← hsame ?_] at hold
    · exact hold
    · rintro rfl rfl
      refine not_ahead_scan hU hi hh hle hlt (fun k hk => hP.inv.tail k (by rw [htodo]; exact hk)) ?_ hn ha
      rw [← htodo]
      exact hP.distinct

theorem sweep_spec (hP : PInv s G) (hcalm : Held s .sweep) (hne : s.heap.todo ≠ []) :
    ∃ s' G', pstep s .sweep = some s' ∧ PInv s' G' ∧ Spared s s' := by
  obtain ⟨c, cs, htodo⟩ := exists_cons_of_ne_nil hne
  by_cases hlt : c.scan < c.stop
  · exact visit_spec hP htodo hcalm hlt
  · have hrun : gcStep s.heap .sweep = some ⟨s.heap.world, cs⟩ := by
      simp only [gcStep, htodo, isEmpty_cons, Bool.false_eq_true, if_false, sweepStep, if_neg hlt, map_some]
    refine ⟨{ s with heap := ⟨s.heap.world, cs⟩ }, G, by simp only [pstep, hrun, map_some],
      ⟨⟨hP.inv.sound, ?_, ?_⟩, ?_, ?_, hP.rooted⟩, rfl, ?_⟩
    · intro c' hc'
      exact (hP.inv.tail c' (by rw [htodo]; exact mem_of_mem_head? hc')).at hP.inv.sound.toUpkeep
    · intro c' hc'
      exact hP.inv.tail c' (by rw [htodo]; exact mem_of_mem_tail hc')
    · have := hP.distinct
      rw [htodo] at this
      exact (pairwise_cons.mp this).2
    · rintro p hp i e hb ⟨k, hk, ha⟩
      exact hP.sheltered p hp i e hb ⟨k, by rw [htodo]; exact mem_cons_of_mem _ hk, ha⟩
    · intro p _ i b hb
      obtain ⟨h, hi, hl⟩ := Reaches.live hb
      exact .refl hi hl

theorem turn_keeps {a : Act} {b : Block} (hw : Sound true w G) (hw' : Sound true w' G') (ht : Turn w G a w' G')
    (hi : w.arenas[i]? = some h) (hb : b ∈ h.live) (hrel : a ≠ .release i b) :
    ∃ h', w'.arenas[i]? = some h' ∧ b ∈ h'.live ∧ b.size w'.mem = b.size w.mem := by
  cases hst : Act.isStore a with
  | false =>
    obtain ⟨c, d, rfl, hd⟩ := (hw.kempt i h hi).block_of_mem hb
    obtain ⟨hd', hcell, hmem⟩ := spared hw ht hi hd hrel hst
    obtain ⟨h', hi', hb', hsize, -⟩ := undisturbed_of_handed hw.toUpkeep hw'.toUpkeep (arenas_length_le ht) hi hd hd' hcell hmem
    exact ⟨h', hi', hb', hsize⟩
  | true =>
    cases ht with
    | store arena handed payload =>
      obtain ⟨c, d, rfl, hd⟩ := (hw.kempt i h hi).block_of_mem hb
      obtain ⟨x, hx, -, hext, -⟩ := (hw.kempt i h hi).handed_cell hd
      obtain ⟨x', hx', -, hext', -⟩ := (hw'.kempt i h hi).handed_cell hd
      cases hx.symm.trans hx'
      exact ⟨h, hi, hb, by simp only [block_size] at *; omega⟩
    | _ => cases hst

theorem mem_drop {a : Act} {p : Pending} (hx : x ∈ (p.drop a).passed) : x ∈ p.passed ∧ a ≠ .release x.1 x.2 := by
  cases a with
  | release i b =>
    obtain ⟨hx, hne⟩ := mem_filter.mp hx
    refine ⟨hx, ?_⟩
    rintro heq
    cases heq
    simp at hne
  | _ => exact ⟨hx, by simp⟩

theorem drop_args (a : Act) (p : Pending) : (p.drop a).args = p.args := by
  cases a <;> rfl

theorem mem_pointees {v : Nat} (hx : x ∈ pointees w v) :
    ∃ h, w.arenas[x.1]? = some h ∧ x.2 ∈ h.live ∧ Inside w.mem x.2 v := by
  obtain ⟨⟨h, i⟩, hi, hx⟩ := mem_flatMap.mp hx
  obtain ⟨b, hb, rfl⟩ := mem_map.mp hx
  obtain ⟨hl, hin⟩ := mem_filter.mp hb
  exact ⟨h, mem_zipIdx_iff_getElem?.mp hi, hl, of_decide_eq_true hin⟩

theorem sheltered_of_nil (hnil : s.heap.todo = []) : Sheltered s := by
  rintro p - i c - ⟨k, hk, -⟩
  rw [hnil] at hk
  cases hk

theorem collector_step {a : PAct} (hP : PInv s G) (ha : a = .mark ∨ a = .sweep) (hheld : Held s a)
    (hs : pstep s a = some s') : ∃ G', PInv s' G' ∧ Spared s s' := by
  rcases ha with rfl | rfl
  · have hnil : s.heap.todo = [] := by
      by_contra hne
      simp [pstep, gcStep, hne] at hs
    obtain ⟨u, hu, hP', hsp⟩ := mark_spec hP hnil hheld
    cases hu.symm.trans hs
    exact ⟨G, hP', hsp⟩
  · have hne : s.heap.todo ≠ [] := by
      rintro hnil
      simp [pstep, gcStep, hnil] at hs
    obtain ⟨u, G', hu, hP', hsp⟩ := sweep_spec hP hheld hne
    cases hu.symm.trans hs
    exact ⟨G', hP', hsp⟩

theorem pinv_step {a : PAct} (hP : PInv s G) (hheld : Held s a) (hs : pstep s a = some s') : ∃ G', PInv s' G' := by
  cases a with
  | mutate a =>
    obtain ⟨c, hc, rfl⟩ := map_eq_some_iff.mp hs
    simp only [gcStep] at hc
    split_ifs at hc
    obtain ⟨w', hw, rfl⟩ := map_eq_some_iff.mp hc
    obtain ⟨G', ht, hsound⟩ := hP.inv.sound.turn (fun _ i h b hab hi => by subst hab; exact hheld h hi) hw
    refine ⟨G', ⟨hsound, by simp, by simp⟩, .nil, sheltered_of_nil rfl, ?_⟩
    intro p hp x hx
    obtain ⟨p, hmem, rfl⟩ := mem_map.mp hp
    obtain ⟨hx, hrel⟩ := mem_drop hx
    obtain ⟨h, hi, hb, v, hv, hin⟩ := hP.rooted p hmem x hx
    obtain ⟨h', hi', hb', hsize⟩ := turn_keeps hP.inv.sound hsound ht hi hb hrel
    refine ⟨h', hi', hb', v, by rwa [drop_args], ?_⟩
    rw [Inside, hsize]
    exact hin
  | run tasks =>
    simp only [pstep] at hs
    split_ifs at hs
    cases hs
    exact ⟨G, hP.inv, hP.distinct, hP.sheltered, hP.rooted⟩
  | thread sp =>
    simp only [pstep] at hs
    split_ifs at hs with hok
    cases hs
    refine ⟨G, hP.inv, hP.distinct, sheltered_of_nil (List.isEmpty_iff.mp hok.1), ?_⟩
    intro p hp x hx
    rcases mem_cons.mp hp with rfl | hp
    · obtain ⟨v, hv, hx⟩ := mem_flatMap.mp hx
      obtain ⟨h, hi, hb, hin⟩ := mem_pointees hx
      exact ⟨h, hi, hb, v, hv, hin⟩
    · exact hP.rooted p hp x hx
  | start k =>
    simp only [pstep] at hs
    split_ifs at hs
    obtain ⟨p, -, hs⟩ := bind_eq_some_iff.mp hs
    cases hs
    exact ⟨G, hP.inv, hP.distinct, fun p hp => hP.sheltered p (mem_of_mem_eraseIdx hp),
      fun p hp => hP.rooted p (mem_of_mem_eraseIdx hp)⟩
  | mark =>
    obtain ⟨G', hP', -⟩ := collector_step hP (.inl rfl) hheld hs
    exact ⟨G', hP'⟩
  | sweep =>
    obtain ⟨G', hP', -⟩ := collector_step hP (.inr rfl) hheld hs
    exact ⟨G', hP'⟩

theorem run_pinv (hr : Run machine Held s) : ∃ G, PInv s G := by
  refine Run.invariant (I := fun s => ∃ G, PInv s G) ?_ ?_ hr
  · rintro s rfl
    exact ⟨_, ⟨sound_start, by simp, by simp⟩, .nil, sheltered_of_nil rfl, by simp [Rooted]⟩
  · rintro s a s' ⟨G, hP⟩ hheld hs
    exact pinv_step hP hheld hs

def Intact (s : State) : Prop :=
  ∀ p ∈ s.pending, ∀ x ∈ p.passed, ∃ h, s.heap.world.arenas[x.1]? = some h ∧ x.2 ∈ h.live

/-- In every run whose collections meet the needed blocks on the stacks, the
blocks passed to a task yet to start are handed out, and any number of
collections leaves alone all that they lead to. -/
theorem pending_args_kept {s : State} (hr : Run machine Held s) :
    Intact s ∧ ∀ s', Collections s s' → s'.pending = s.pending ∧
      ∀ p ∈ s.pending, ∀ i b, p.Needs s.heap.world i b → Undisturbed s.heap.world s'.heap.world i b := by
  obtain ⟨G, hP⟩ := run_pinv hr
  refine ⟨fun p hp x hx => Reaches.live (hP.rooted.needs hp hx), fun s' hc => ?_⟩
  suffices h : (∃ G, PInv s' G) ∧ Spared s s' from ⟨h.2.pending, h.2.keeps⟩
  induction hc with
  | refl =>
    refine ⟨⟨G, hP⟩, rfl, fun p _ i b hb => ?_⟩
    obtain ⟨h, hi, hl⟩ := Reaches.live hb
    exact .refl hi hl
  | @step u v a _ ha hheld hs ih =>
    obtain ⟨⟨G', hP'⟩, hsp⟩ := ih
    obtain ⟨G'', hP'', hsp'⟩ := collector_step hP' ha hheld hs
    refine ⟨⟨G'', hP''⟩, hsp'.pending.trans hsp.pending, fun p hp i b hb => ?_⟩
    have hb' : p.Needs u.heap.world i b := Reaches.transfer (hsp.keeps p hp) hb
    exact (hsp.keeps p hp i b hb).trans (hsp'.keeps p (by rwa [hsp.pending]) i b hb')

def spawnWith (v : Nat) : Spawn := ⟨[v], 65536, 65600, [0, 0], 131072, 1, 4096⟩

def spawned (started : List Task) : List PAct :=
  [.mutate (.create 4096 1048576), .mutate (.allocate 0 32 0), .thread (spawnWith 1048592), .run started, .mark, .sweep,
    .sweep, .sweep]

def AllNoted (s : State) : PAct → Prop
  | .mark => ∀ h ∈ s.heap.world.arenas, ∀ b ∈ h.live, Noted s.heap.world s.tasks b
  | a => Held s a

instance (w : World) (tasks : List Task) (b : Block) : Decidable (Noted w tasks b) :=
  inferInstanceAs (Decidable (_ ∨ ∃ _ ∈ _, _))

instance (s : State) : (a : PAct) → Decidable (AllNoted s a)
  | .mark => inferInstanceAs (Decidable (∀ _ ∈ _, _))
  | .mutate a => inferInstanceAs (Decidable (Calm s.heap (.mutate a)))
  | .sweep => inferInstanceAs (Decidable (Calm s.heap .sweep))
  | .run _ | .thread _ | .start _ => inferInstanceAs (Decidable True)

theorem held_of_allNoted (s : State) (a : PAct) (ha : AllNoted s a) : Held s a := by
  cases a with
  | mark =>
    intro p _ i b hb _
    obtain ⟨h, hi, hl⟩ := Reaches.live hb
    exact ha h (mem_of_getElem? hi) b hl
  | _ => exact ha

/-- The task that has called `thread` still has the block on its stack. -/
theorem pending_args_kept_held : ∃ s p, Run machine Held s ∧ s.pending = [p] ∧ p.passed = [(0, ⟨1048592, false⟩)] ∧ Intact s := by
  have hx : (exec machine AllNoted (spawned (stackOf [1048592])) ⟨⟨start, []⟩, [], []⟩).map
      (fun s => s.pending.map Pending.passed) = some [[(0, ⟨1048592, false⟩)]] := by decide +kernel
  obtain ⟨s, hs, he⟩ := Option.map_eq_some_iff.mp hx
  obtain ⟨p, hp, hpass⟩ := map_eq_singleton_iff.mp he
  have hr : Run machine Held s := (exec_run (.init rfl) hs).mono held_of_allNoted
  exact ⟨s, p, hr, hp, hpass, (pending_args_kept hr).1⟩

/-- The only reference is in the payload, which the collector does not see. -/
theorem pending_args_released : ¬ ∀ s, Reachable machine s → Intact s := by
  intro hall
  have hx : (walk machine (spawned []) ⟨⟨start, []⟩, [], []⟩).map
      (fun s => (s.pending.map Pending.passed, s.heap.world.arenas.map Holding.live)) =
      some ([[(0, ⟨1048592, false⟩)]], [[]]) := by decide +kernel
  obtain ⟨s, hr, he⟩ := exec_reads hx (.init rfl)
  simp only [Prod.mk.injEq] at he
  obtain ⟨p, hp, hpass⟩ := map_eq_singleton_iff.mp he.1
  obtain ⟨h, hi, hl⟩ := hall s hr p (by simp [hp]) _ (by rw [hpass]; exact mem_singleton.mpr rfl)
  have hmem : h.live ∈ s.heap.world.arenas.map Holding.live := mem_map_of_mem (mem_of_getElem? hi)
  rw [he.2, mem_singleton] at hmem
  rw [hmem] at hl
  cases hl

end Picasso.Gc.Spawning
