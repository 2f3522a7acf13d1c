import Picasso.Build.Order

namespace Picasso.Build.History

open Lexing Parsing Lib.Exploration Lib.Transition AList Generator

variable {ν : Type} {w w' : Project ν} {s s' : State ν} {p q : Bytes} {files : Files ν}

def Unchanged (w w' : Project ν) (p : Bytes) : Prop :=
  ∀ m, Reaches (imports w.files) p m → w'.files.lookup m = w.files.lookup m

theorem Unchanged.reaches (h : Unchanged w w' p) {m : Bytes} :
    Reaches (imports w'.files) p m ↔ Reaches (imports w.files) p m :=
  Reaches.congr fun y hy => by rw [imports, imports, h y hy]

theorem Unchanged.imports_iff (h : Unchanged w w' p) : Imports w'.files p q ↔ Imports w.files p q := by
  have himp : imports w'.files p = imports w.files p := by rw [imports, imports, h p .refl]
  rw [Imports, Imports, himp]
  refine exists_congr fun i => and_congr_right fun hi => ?_
  exact Reaches.congr fun y hy => by rw [imports, imports, h y (.head hi hy)]

theorem Imports.reaches (h : Imports files p q) : Reaches (imports files) p q := by
  obtain ⟨i, hi, hr⟩ := h
  exact .head hi hr

theorem Fresh.congr (h : Fresh w p) (hfiles : Unchanged w w' p) (hout : w'.outputs.lookup p = w.outputs.lookup p)
    (hexp : w'.exports.lookup p = w.exports.lookup p) : Fresh w' p := by
  obtain ⟨f, o, h⟩ := h
  refine ⟨f, o, (hfiles p .refl).trans h.source, hout.trans h.output, hexp.trans h.exports, h.tree, ?_, ?_⟩
  · exact fun q hq => h.declares q (hfiles.imports_iff.mp hq)
  · intro e he
    obtain ⟨himp, f', hf', hclear⟩ := h.declared e he
    exact ⟨hfiles.imports_iff.mpr himp, f', (hfiles e.1 himp.reaches).trans hf', hclear⟩

def Settled (files : Files ν) (time : Nat) (p : Bytes) : Prop :=
  ∀ m, Reaches (imports files) p m → ∃ f, files.lookup m = some f ∧ f.modTime ≤ time

structure Inv (s : State ν) : Prop where
  times : ∀ p f, s.project.files.lookup p = some f → 0 < f.modTime ∧ f.modTime ≤ s.now
  saved : s.completedAt ≤ s.project.lastBuild ∧ s.project.lastBuild ≤ s.now
  settled : ∀ p, Reaches (imports s.loaded) main p → Settled s.project.files s.completedAt p → Fresh s.project p
  completed : s.completed = true → ∀ p, Reaches (imports s.project.files) main p → Fresh s.project p

theorem Initial.inv (h : Initial s) : Inv s where
  times := h.times
  saved := by
    rw [h.lastBuild, h.completedAt]
    exact ⟨Nat.le_refl _, Nat.zero_le _⟩
  settled p _ hp := by
    obtain ⟨f, hf, ht⟩ := hp p .refl
    have := h.times p f hf
    rw [h.completedAt] at ht
    omega
  completed hc := by
    rw [h.completed] at hc
    cases hc

theorem Inv.change {time : Nat} {e : Bytes} (h : Inv s) (ht : s.now < time)
    (hframe : ∀ q, q ≠ e → files.lookup q = s.project.files.lookup q)
    (hedit : ∀ f, files.lookup e = some f → f.modTime = time) : Inv (s.change files time) where
  times p f hf := by
    by_cases hp : p = e
    · have := hedit f (hp ▸ hf)
      exact ⟨by omega, this.le⟩
    · have := h.times p f ((hframe p hp).symm.trans hf)
      exact ⟨this.1, this.2.trans ht.le⟩
  saved := ⟨h.saved.1, h.saved.2.trans ht.le⟩
  settled p hp hs := by
    have hne : ∀ m, Reaches (imports files) p m → m ≠ e := by
      rintro m hm rfl
      obtain ⟨f, hf, hle⟩ := hs m hm
      have := hedit f hf
      have := h.saved
      exact absurd hle (by change ¬ f.modTime ≤ s.completedAt; omega)
    have hsame : Unchanged (s.change files time).project s.project p := fun m hm => (hframe m (hne m hm)).symm
    have hback : Unchanged s.project (s.change files time).project p := fun m hm =>
      hframe m (hne m (hsame.reaches.mp hm))
    refine (h.settled p hp fun m hm => ?_).congr hback rfl rfl
    obtain ⟨f, hf, hle⟩ := hs m (hsame.reaches.mp hm)
    exact ⟨f, (hsame m (hsame.reaches.mp hm)).trans hf, hle⟩
  completed hc := by cases hc

section Build

variable {v : Verdicts} {r : Ranges} {packages : Packages ν} {outputs : Outputs ν} {time : Nat}

/-- A build that is given up writes outputs of dirty packages only; those
packages import something modified since. -/
theorem Inv.abort (h : Inv s) (ht : s.now < time) (hload : loadPackages v r s.project = some packages)
    (hout : ∀ q, packages.lookup q = none → outputs.lookup q = s.project.outputs.lookup q) :
    Inv { s with
      project := { s.project with lastBuild := time, outputs := outputs }
      now := time
      completed := false } where
  times p f hf := by
    have := h.times p f hf
    exact ⟨this.1, this.2.trans ht.le⟩
  saved := ⟨(h.saved.1.trans h.saved.2).trans ht.le, Nat.le_refl _⟩
  settled p hp hs := by
    refine (h.settled p hp hs).congr (fun _ _ => rfl) (hout p ?_) rfl
    rw [loadPackages_lookup hload, if_neg]
    intro hd
    obtain ⟨m, hm, f, hf, hlt⟩ := modified_of_dirty hd
    obtain ⟨f', hf', hle⟩ := hs m hm
    cases hf.symm.trans hf'
    exact absurd (hle.trans h.saved.1) (Nat.not_le_of_lt hlt)
  completed hc := by cases hc

section Complete

variable (hload : loadPackages v r w = some packages)
    (hplain : ∀ p, Reaches (imports w.files) main p → Plain w.files p)

include hplain

include hload

theorem lookup_dirty (hp : Reaches (imports w.files) main p) (hd : p ∈ w.dirty r) :
    ∃ f, w.files.lookup p = some f ∧ packages.lookup p = some f.tree := by
  obtain ⟨f, hf, -⟩ := hplain p hp
  exact ⟨f, hf, by rw [loadPackages_lookup hload, if_pos hd, hf]; rfl⟩

omit hplain in
theorem lookup_clean (hd : p ∉ w.dirty r) : packages.lookup p = none := by
  rw [loadPackages_lookup hload, if_neg hd]

theorem needs_dirty (hp : Reaches (imports w.files) main p) (hd : p ∈ w.dirty r) :
    Reaches (needs ⟨packages, w.files.keys, w.exports, v.compiles⟩) main p := by
  have h := (Rebuild.ofProject v r w hplain).needs_of_reaches .refl hp (decide_eq_true hd)
  rwa [Rebuild.ofProject_generator hplain hload] at h

variable (hclean : ∀ p, Reaches (imports w.files) main p → p ∉ w.dirty r → Fresh w p)

include hclean

theorem packageAST_reached {g : Generator ν} (hg : g.packages = packages) (hexp : g.exports = w.exports)
    (hp : Reaches (imports w.files) main p) :
    ∃ f t, w.files.lookup p = some f ∧ g.packageAST p = some t ∧ clearDefinitions t = clearDefinitions f.tree := by
  by_cases hd : p ∈ w.dirty r
  · obtain ⟨f, hf, hl⟩ := lookup_dirty hload hplain hp hd
    exact ⟨f, f.tree, hf, by rw [packageAST, hg, hl], rfl⟩
  · obtain ⟨f, o, h⟩ := hclean p hp hd
    refine ⟨f, clearDefinitions f.tree, h.source, ?_, clearDefinitions_idem f.tree⟩
    rw [packageAST, hg, lookup_clean hload hd, hexp]
    exact h.exports

theorem next_reached {g : Generator ν} (hg : g.packages = packages) (hexp : g.exports = w.exports)
    (hp : Reaches (imports w.files) main p) : g.next p = imports w.files p := by
  obtain ⟨f, t, hf, ht, hclear⟩ := packageAST_reached hload hplain hclean hg hexp hp
  rw [Generator.next, ht, imports, hf]
  change extractUserImports t = extractUserImports f.tree
  rw [← extractUserImports_clear t, hclear, extractUserImports_clear]

theorem fresh_of_complete {u : Session ν} {t : Nat}
    (hbuild : buildAll ⟨packages, w.files.keys, w.exports, v.compiles⟩ w.outputs = .ok u)
    (hp : Reaches (imports w.files) main p) :
    Fresh { w with outputs := u.outputs, exports := generateExports packages w.exports, lastBuild := t } p := by
  have hb := buildPackage_ok hbuild
  have hexports := generateExports_lookup packages w.exports p (loadPackages_nodup hload)
  by_cases hd : p ∈ w.dirty r
  · obtain ⟨f, hf, hl⟩ := lookup_dirty hload hplain hp hd
    have hbuilt : p ∈ u.builtPkgs := hb.explored.mem_iff.mpr (needs_dirty hload hplain hp hd)
    obtain ⟨d, hres, hout⟩ := hb.writes p hbuilt List.not_mem_nil f.tree hl
    obtain ⟨hall, hsound⟩ := resolveUserImports_ok hres
    have himp : imports w.files p = extractUserImports f.tree := by rw [imports, hf]; rfl
    have hnext : ∀ i ∈ extractUserImports f.tree, ∀ q,
        Reaches (Generator.next ⟨packages, w.files.keys, w.exports, v.compiles⟩) i q ↔
          Reaches (imports w.files) i q := by
      intro i hi q
      refine Reaches.congr fun y hy => next_reached hload hplain hclean rfl rfl ?_
      exact hp.trans (.head (by rw [himp]; exact hi) hy)
    rw [hl] at hexports
    refine ⟨f, ⟨f.tree, d.trees⟩, hf, hout, hexports, rfl, fun q hq => ?_, fun e he => ?_⟩
    · obtain ⟨i, hi, hr⟩ := hq
      change i ∈ imports w.files p at hi
      rw [himp] at hi
      exact hall q ⟨i, hi, (hnext i hi q).mpr hr⟩
    · obtain ⟨⟨i, hi, hr⟩, hast⟩ := hsound e he
      have hi' : i ∈ imports w.files p := by rw [himp]; exact hi
      have hr' := (hnext i hi e.1).mp hr
      obtain ⟨f', t, hf', ht, hclear⟩ := packageAST_reached hload hplain hclean
        (g := ⟨packages, w.files.keys, w.exports, v.compiles⟩) rfl rfl (hp.trans (.head hi' hr'))
      rw [hast] at ht
      cases ht
      exact ⟨⟨i, hi', hr'⟩, f', hf', hclear⟩
  · have hnone := lookup_clean hload hd
    rw [hnone] at hexports
    exact (hclean p hp hd).congr (fun _ _ => rfl) (hb.skips p hnone) hexports

end Complete

theorem Inv.build (h : Inv s) (ht : s.now < time) (hok : Timely s (.build time v r)) :
    Inv (s.built time (s.project.build v r time)) := by
  rw [Project.build]
  cases hload : loadPackages v r s.project with
  | none =>
    refine ⟨fun p f hf => ?_, ⟨h.saved.1, h.saved.2.trans ht.le⟩, h.settled, fun hc => by cases hc⟩
    have := h.times p f hf
    exact ⟨this.1, this.2.trans ht.le⟩
  | some packages =>
    dsimp only
    cases hbuild : buildAll ⟨packages, s.project.files.keys, s.project.exports, v.compiles⟩ s.project.outputs with
    | error e =>
      refine h.abort ht hload fun q hq => ?_
      have hleaves := buildAll_leaves ⟨packages, s.project.files.keys, s.project.exports, v.compiles⟩
        s.project.outputs q hq
      rw [hbuild] at hleaves
      exact hleaves
    | ok u =>
      -- what is not dirty has been part of the last build that completed
      have hclean : ∀ p, Reaches (imports s.project.files) main p → p ∉ s.project.dirty r → Fresh s.project p := by
        intro p hp hd
        obtain ⟨-, ⟨m, hm, hmod⟩ | ⟨hloaded, hold⟩⟩ := hok p hp
        · exact absurd (dirty_of_modified (fun q hq => (hok q hq).1) hp hm hmod) hd
        · refine h.settled p hloaded fun m hm => ?_
          obtain ⟨f, hf, -⟩ := (hok m (hp.trans hm)).1
          refine ⟨f, hf, Nat.le_of_not_lt fun hlt => hold m hm ⟨f, hf, hlt⟩⟩
      have hfresh := fun p hp =>
        fresh_of_complete (t := time) hload (fun q hq => (hok q hq).1) hclean hbuild (p := p) hp
      refine ⟨fun p f hf => ?_, ⟨Nat.le_refl _, Nat.le_refl _⟩, fun p hp _ => hfresh p hp, fun _ => hfresh⟩
      have := h.times p f hf
      exact ⟨this.1, this.2.trans ht.le⟩

end Build

theorem inv_step {a : Act ν} (h : Inv s) (hok : Timely s a) (hs : step s a = some s') : Inv s' := by
  unfold step at hs
  split at hs
  · next ht =>
    cases a with
    | edit time e tree underBuild =>
      cases hs
      refine h.change ht (fun q hq => lookup_insert_ne hq) fun f hf => ?_
      rw [lookup_insert] at hf
      cases hf
      rfl
    | remove time e =>
      cases hs
      refine h.change ht (fun q hq => lookup_erase_ne hq) fun f hf => ?_
      rw [lookup_erase] at hf
      cases hf
    | build time v r =>
      cases hs
      exact h.build ht hok
  · cases hs

section Histories

def addFile (s : State ν) (e : Bytes) (tree : List (Statement ν)) : State ν :=
  s.change (s.project.files.insert e ⟨tree, s.now + 1, false⟩) (s.now + 1)

theorem build_files (v : Verdicts) (r : Ranges) (time : Nat) (w : Project ν) : (w.build v r time).1.files = w.files := by
  rw [Project.build]
  split
  · rfl
  · dsimp only
    split <;> rfl

def emptyProject : State Nat := ⟨⟨∅, ∅, ∅, 0⟩, 0, ∅, 0, false⟩

theorem emptyProject_initial : Initial emptyProject where
  times p f h := by
    rw [emptyProject, lookup_empty] at h
    cases h
  outputs := rfl
  exports := rfl
  lastBuild := rfl
  completedAt := rfl
  completed := rfl

def importingA : List (Statement Nat) := [.importStatement ⟨"start.pic", 1, 9⟩ (ascii "a") (ascii "a")]

def written : State Nat := addFile (addFile emptyProject (ascii "a") []) main importingA

end Histories

section Rebuilding

structure Stamped (s : State ν) : Prop where
  times : ∀ p f, s.project.files.lookup p = some f → f.modTime ≤ s.now
  completed : s.completed = true → s.project.lastBuild = s.now ∧ main ∈ s.project.files.keys

theorem build_completed (v : Verdicts) (r : Ranges) (time : Nat) (w : Project ν) (h : (w.build v r time).2 = true) :
    (w.build v r time).1.lastBuild = time ∧ main ∈ w.files.keys := by
  rw [Project.build] at h ⊢
  split at h
  · cases h
  · dsimp only at h ⊢
    split at h
    · cases h
    · next hall =>
      refine ⟨rfl, by_contra fun hmain => ?_⟩
      simp [buildAll, buildPackage, hmain] at hall

theorem stamped_step {a : Act ν} (h : Stamped s) (hs : step s a = some s') : Stamped s' := by
  unfold step at hs
  split at hs
  · next ht =>
    have hold {p : Bytes} {f : SourceFile ν} (hf : s.project.files.lookup p = some f) : f.modTime ≤ a.time :=
      (h.times p f hf).trans ht.le
    cases a with
    | edit time e tree underBuild =>
      cases hs
      refine ⟨fun p f hf => ?_, nofun⟩
      by_cases hpe : p = e
      · subst hpe
        cases (lookup_insert _).symm.trans hf
        exact Nat.le_refl _
      · exact hold ((lookup_insert_ne hpe).symm.trans hf)
    | remove time e =>
      cases hs
      refine ⟨fun p f hf => hold (p := p) ?_, nofun⟩
      by_cases hpe : p = e
      · subst hpe
        cases (lookup_erase _ _).symm.trans hf
      · exact (lookup_erase_ne hpe).symm.trans hf
    | build time v r =>
      cases hs
      have hfiles := build_files v r time s.project
      have hdone := build_completed v r time s.project
      generalize s.project.build v r time = x at hfiles hdone
      obtain ⟨w, _ | _⟩ := x
      · exact ⟨fun p f hf => hold (hfiles ▸ hf), nofun⟩
      · exact ⟨fun p f hf => hold (hfiles ▸ hf), fun _ => hfiles ▸ hdone rfl⟩
  · cases hs

/-- A build after one that has completed, with nothing edited in between, finds
nothing dirty, compiles nothing and completes. -/
theorem rebuild_idle (h : Reachable (machine ν) s) (hc : s.completed = true) {v : Verdicts}
    (hv : ∀ p, v.parsesImports p = true) (r : Ranges) (time : Nat) :
    (∀ p, p ∉ s.project.dirty r) ∧ s.project.build v r time = ({ s.project with lastBuild := time }, true) := by
  have hst : Stamped s := Run.invariant (fun s hs => ⟨fun p f hf => (hs.times p f hf).2, by simp [hs.completed]⟩)
    (fun _ _ _ hi _ hs => stamped_step hi hs) h
  obtain ⟨hlast, hmain⟩ := hst.completed hc
  have hclean : ∀ p, p ∉ s.project.dirty r := by
    intro p hp
    obtain ⟨m, -, f, hf, ht⟩ := modified_of_dirty hp
    have := hst.times m f hf
    omega
  have hload : loadPackages v r s.project = some [] := by simp [loadPackages, hclean, hv]
  refine ⟨hclean, ?_⟩
  simp [Project.build, hload, buildAll, buildPackage, hmain, generateExports, Session.finish]

theorem rebuild_idle_rewritten : ∃ s : State Nat, Reachable (machine Nat) s ∧ s.completed = true ∧
    (∀ p, p ∉ s.project.dirty inOrder) ∧ (s.project.build noTrouble inOrder 6).2 = true := by
  have hx : (walk (machine Nat) [.edit 1 (ascii "a") [] false, .edit 2 main importingA false,
      .build 3 noTrouble inOrder, .edit 4 main (importingA ++ [.breakStatement ⟨"start.pic", 2, 1⟩]) false,
      .build 5 noTrouble inOrder] emptyProject).map State.completed = some true := by decide +kernel
  obtain ⟨s, hr, hc⟩ := exec_reads hx (.init emptyProject_initial)
  obtain ⟨hclean, hbuild⟩ := rebuild_idle hr hc (v := noTrouble) (fun _ => rfl) inOrder 6
  exact ⟨s, hr, hc, hclean, by rw [hbuild]⟩

end Rebuilding

end Picasso.Build.History
