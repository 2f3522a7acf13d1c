import Picasso.Build.History

namespace Picasso.Build

open Lexing Parsing Lib.Exploration Lib.Folds List Generator AList

variable {ν : Type} {g : Generator ν} {n : Nat} {s s' : Session ν} {p q : Bytes}

section Sorting

/-- A list of packages that have been built, the last one first: each once, and
behind it the packages that it is built after. -/
def Sorted (g : Generator ν) : List Bytes → Prop
  | [] => True
  | p :: built => p ∉ built ∧ (∀ q ∈ g.needs p, q ∈ built) ∧ Sorted g built

variable {built post : List Bytes}

theorem Sorted.closed (h : Sorted g built) (hp : p ∈ built) (hq : q ∈ g.needs p) : q ∈ built := by
  induction built with
  | nil => cases hp
  | cons r built ih =>
    obtain ⟨-, hneeds, hrest⟩ := h
    rcases mem_cons.mp hp with rfl | hp
    · exact mem_cons_of_mem _ (hneeds q hq)
    · exact mem_cons_of_mem _ (ih hrest hp)

theorem Sorted.nodup (h : Sorted g built) : built.Nodup := by
  induction built with
  | nil => exact nodup_nil
  | cons p built ih => exact nodup_cons.mpr ⟨h.1, ih h.2.2⟩

theorem Sorted.suffix {pre : List Bytes} (h : Sorted g (pre ++ post)) : Sorted g post := by
  induction pre with
  | nil => exact h
  | cons p pre ih => exact ih h.2.2

theorem Sorted.behind (h : Sorted g (p :: post)) {r : Bytes} (hr : r ∈ g.needs p) (hq : Reaches g.needs r q) :
    q ∈ post :=
  hq.closed (fun _ _ => h.2.2.closed) (h.2.1 r hr)

theorem Sorted.acyclic (h : Sorted g built) (hp : p ∈ built) {r : Bytes} (hr : r ∈ g.needs p) :
    ¬ Reaches g.needs r p := by
  obtain ⟨pre, post, rfl⟩ := append_of_mem hp
  exact fun hq => h.suffix.1 (h.suffix.behind hr hq)

theorem foldlM_keeps {ε σ α : Type} {f : σ → α → Except ε σ} {I : σ → Prop} {l : List α} {s s' : σ}
    (hf : ∀ s a s', f s a = .ok s' → I s → I s') (h : l.foldlM f s = .ok s') (hs : I s) : I s' := by
  induction l generalizing s with
  | nil =>
    cases h
    exact hs
  | cons a l ih =>
    obtain ⟨s1, ha, hrest⟩ := foldlM_cons_ok h
    exact ih hrest (hf s a s1 ha hs)

/-- What holds between the calls: the packages that are being visited are not
yet built. -/
structure InOrder (g : Generator ν) (s : Session ν) : Prop where
  sorted : Sorted g s.builtPkgs
  unbuilt : ∀ p ∈ s.visitingPkgs, p ∉ s.builtPkgs

theorem InOrder.finish {visiting : List Bytes} (h : InOrder g s) (hp : s.visitingPkgs = p :: visiting) (hnew : p ∉ visiting)
    (hneeds : ∀ q ∈ g.needs p, q ∈ s.builtPkgs) : InOrder g (s.finish p) where
  sorted := ⟨h.unbuilt p (by rw [hp]; exact mem_cons_self), hneeds, h.sorted⟩
  unbuilt q hq := by
    simp only [Session.finish, hp, erase_cons_head] at hq ⊢
    rw [mem_cons, not_or]
    exact ⟨fun heq => hnew (heq ▸ hq), h.unbuilt q (by rw [hp]; exact mem_cons_of_mem _ hq)⟩

theorem buildPackage_inOrder (h : buildPackage g n s p = .ok s') (hs : InOrder g s) : InOrder g s' := by
  induction n generalizing s p s' with
  | zero => cases h
  | succ n ih =>
    rw [buildPackage] at h
    split at h
    · cases h
      exact hs
    · next hbuilt =>
      split at h
      · cases h
      · next hvis =>
        have henter : InOrder g { s with visitingPkgs := p :: s.visitingPkgs } :=
          ⟨hs.sorted, forall_mem_cons.mpr ⟨hbuilt, hs.unbuilt⟩⟩
        dsimp only at h
        split at h
        · split at h
          · next hnone =>
            cases h
            exact henter.finish rfl hvis (by simp [needs, hnone, extractUserImports])
          · next tree htree =>
            obtain ⟨s1, hloop, hlast⟩ := bind_eq_ok h
            obtain ⟨s2, hcomp, hfin⟩ := bind_eq_ok hlast
            cases hfin
            obtain ⟨d, -, rfl⟩ := compile_ok hcomp
            have hb := Builds.loop (fun s p s' => buildPackage_ok) hloop
            have hin := foldlM_keeps (fun s p s' => ih) hloop henter
            have hout : InOrder g { s1 with outputs := s1.outputs.insert p ⟨tree, d.trees⟩ } := ⟨hin.sorted, hin.unbuilt⟩
            refine hout.finish hb.visiting hvis fun q hq => hb.explored.visits q ?_
            rwa [needs, htree, Option.getD_some] at hq
        · cases h

end Sorting

section Failures

def Fails (g : Generator ν) (e : Abort × Session ν) : Prop :=
  ∃ s p tree, g.packages.lookup p = some tree ∧ g.compile s p tree = .error e

theorem declaration_noCycle {e : Abort} {d : Declarations ν}
    (h : recursiveTransitiveDeclaration g n d p = .error e) : e ≠ .cyclicDependency q := by
  induction n generalizing d p e with
  | zero =>
    cases h
    simp
  | succ n ih =>
    rcases declaration_error h with rfl | ⟨-, tree, -, h⟩
    · simp
    · exact foldlM_not_bad (I := fun _ => True) (B := fun e => e = .cyclicDependency q)
        (fun _ _ _ _ _ => ih) (fun _ _ _ _ _ _ => trivial) trivial e h

theorem Fails.noCycle {e : Abort × Session ν} (h : Fails g e) : e.1 ≠ .cyclicDependency q := by
  obtain ⟨s, p, tree, -, hc⟩ := h
  rcases compile_error hc with he | he
  · simp [he]
  · exact foldlM_not_bad (I := fun _ => True) (B := fun e => e = .cyclicDependency q)
      (fun _ _ _ _ _ => declaration_noCycle) (fun _ _ _ _ _ _ => trivial) trivial _ he

def Cycle (g : Generator ν) (p : Bytes) : Prop := ∃ r ∈ g.needs p, Reaches g.needs r p

theorem buildPackage_cycle {e : Abort × Session ν} (hknown : ∀ p, Reaches g.needs main p → p ∈ g.allPkgs)
    (hn : unseen g.allPkgs s.visitingPkgs < n) (hp : Reaches g.needs main p)
    (hvis : ∀ v ∈ s.visitingPkgs, ∃ r ∈ g.needs v, Reaches g.needs r p) (h : buildPackage g n s p = .error e) :
    Fails g e ∨ ∃ q, e.1 = .cyclicDependency q ∧ Reaches g.needs main q ∧ Cycle g q := by
  induction n generalizing s p e with
  | zero => exact absurd hn (Nat.not_lt_zero _)
  | succ n ih =>
    rcases buildPackage_error h with ⟨hmem, rfl⟩ | ⟨hnew, ⟨hunknown, -⟩ | ⟨-, tree, htree, h | ⟨s1, h⟩⟩⟩
    · exact .inr ⟨p, rfl, hp, hvis p hmem⟩
    · exact absurd (hknown p hp) hunknown
    · have hneeds : g.needs p = extractUserImports tree := by rw [needs, htree, Option.getD_some]
      have hlt := unseen_lt (hknown p hp) hnew
      -- the loop keeps the packages that are being visited
      refine not_not.mp (foldlM_not_bad (I := fun s1 => s1.visitingPkgs = p :: s.visitingPkgs)
        (B := fun e => ¬ (Fails g e ∨ ∃ q, e.1 = .cyclicDependency q ∧ Reaches g.needs main q ∧ Cycle g q))
        (fun s1 i hi hs1 e he hbad => ?_)
        (fun s1 i _ hs1 s2 hi => (buildPackage_ok hi).visiting.trans hs1) rfl e h)
      rw [← hneeds] at hi
      refine hbad (ih (by rw [hs1]; omega) (hp.tail hi) ?_ he)
      rw [hs1]
      refine forall_mem_cons.mpr ⟨⟨i, hi, .refl⟩, fun v hv => ?_⟩
      obtain ⟨r, hr, hreach⟩ := hvis v hv
      exact ⟨r, hr, hreach.tail hi⟩
    · exact .inl ⟨s1, p, tree, htree, h⟩

end Failures

section Rebuilding

/-- A project, and a set of packages to rebuild with all those that `start` reaches
and that import one of them. What `start` reaches is known. -/
structure Rebuild (ν : Type) where
  trees : Bytes → List (Statement ν)
  known : List Bytes
  dirty : Bytes → Bool
  exports : Exports ν
  compiles : Bytes → Bool
  reached : ∀ p, Reaches (fun p => extractUserImports (trees p)) main p → p ∈ known
  importers : ∀ p q, Reaches (fun p => extractUserImports (trees p)) main p →
    Reaches (fun p => extractUserImports (trees p)) p q → dirty q → dirty p

def Rebuild.imports (R : Rebuild ν) (p : Bytes) : List Bytes := extractUserImports (R.trees p)

def Rebuild.generator (R : Rebuild ν) : Generator ν where
  packages := (R.known.filter R.dirty).map fun p => (p, R.trees p)
  allPkgs := R.known
  exports := R.exports
  compiles := R.compiles

/-- The packages of the set in the order in which they are compiled; each is
finished right after it is compiled. -/
def Rebuild.compiled (R : Rebuild ν) (s : Session ν) : List Bytes := s.builtPkgs.reverse.filter R.dirty

variable (R : Rebuild ν)

theorem lookup_map_pair {α β : Type} [BEq α] [LawfulBEq α] [DecidableEq α] (f : α → β) (l : List α) (a : α) :
    (l.map fun x => (x, f x)).lookup a = if a ∈ l then some (f a) else none := by
  induction l with
  | nil => simp
  | cons x l ih =>
    by_cases h : a = x
    · simp [h]
    · have hbeq : (a == x) = false := by simpa using h
      simp [lookup_cons, hbeq, ih, h]

theorem Rebuild.lookup (p : Bytes) :
    R.generator.packages.lookup p = if p ∈ R.known ∧ R.dirty p then some (R.trees p) else none := by
  refine (lookup_map_pair R.trees _ p).trans ?_
  simp [mem_filter]

theorem Rebuild.needs_eq (p : Bytes) : R.generator.needs p = if p ∈ R.known ∧ R.dirty p then R.imports p else [] := by
  rw [needs, R.lookup]
  split <;> rfl

theorem Rebuild.mem_imports (h : q ∈ R.generator.needs p) : q ∈ R.imports p := by
  rw [R.needs_eq] at h
  split at h
  · exact h
  · cases h

theorem Rebuild.reaches_of_needs (h : Reaches R.generator.needs p q) : Reaches R.imports p q :=
  h.closed (fun _ _ ha hb => ha.tail (R.mem_imports hb)) .refl

theorem Rebuild.needs_of_dirty (hp : Reaches R.imports main p) (hd : R.dirty p) : R.generator.needs p = R.imports p := by
  rw [R.needs_eq, if_pos ⟨R.reached p hp, hd⟩]

theorem Rebuild.needs_of_reaches (hp : Reaches R.imports main p) (h : Reaches R.imports p q) (hd : R.dirty q) :
    Reaches R.generator.needs p q := by
  induction h using Relation.ReflTransGen.head_induction_on with
  | refl => exact .refl
  | head hb hreach ih =>
    refine .head ?_ (ih (hp.tail hb))
    rw [R.needs_of_dirty hp (R.importers _ q hp (.head hb hreach) hd)]
    exact hb

/-- The packages that a build of a project compiles, as `checkBuildCache` finds
them, if the imports come first in all that `start` reaches. -/
def Rebuild.ofProject (v : Verdicts) (r : Ranges) (w : Project ν)
    (hplain : ∀ p, Reaches (History.imports w.files) main p → History.Plain w.files p) : Rebuild ν where
  trees p := ((w.files.lookup p).map SourceFile.tree).getD []
  known := w.files.keys
  dirty p := p ∈ w.dirty r
  exports := w.exports
  compiles := v.compiles
  reached p hp := by
    obtain ⟨f, hf, -⟩ := hplain p hp
    exact lookup_isSome.mp (by simp [hf])
  importers p q hp hpq hd := by
    obtain ⟨m, hm, hmod⟩ := History.modified_of_dirty (of_decide_eq_true hd)
    exact decide_eq_true (History.dirty_of_modified hplain hp (hpq.trans hm) hmod)

theorem Rebuild.ofProject_generator {v : Verdicts} {r : Ranges} {w : Project ν} {packages : Packages ν}
    (hplain : ∀ p, Reaches (History.imports w.files) main p → History.Plain w.files p)
    (h : loadPackages v r w = some packages) :
    (ofProject v r w hplain).generator = ⟨packages, w.files.keys, w.exports, v.compiles⟩ := by
  rw [loadPackages] at h
  split at h
  · cases h
    have hpackages : (ofProject v r w hplain).generator.packages =
        (w.files.entries.filter fun e => e.1 ∈ w.dirty r).map fun e => (e.1, e.2.tree) := by
      change ((w.files.entries.map Sigma.fst).filter _).map _ = _
      rw [filter_map, map_map]
      refine map_congr_left fun e he => ?_
      have hlookup : w.files.lookup e.1 = some e.2 := mem_lookup_iff.mpr (mem_filter.mp he).1
      change (e.1, ((w.files.lookup e.1).map SourceFile.tree).getD []) = _
      rw [hlookup]
      rfl
    rw [← hpackages]
    rfl
  · cases h

/-- The outcome of a build of all packages that `start` reaches. Only what is
to be rebuilt is compiled. If the build completes, there is no cycle in the set
and the packages of the set that `start` reaches are compiled once each, after
those of the set that they import. Otherwise a cycle is reported, and there is
one, or a package cannot be compiled. -/
theorem build_order (outputs : Outputs ν) :
    (∀ q, ¬ R.dirty q → (final (buildAll R.generator outputs)).outputs.lookup q = outputs.lookup q) ∧
      match buildAll R.generator outputs with
      | .ok s =>
        (∀ p r, Reaches R.imports main p → R.dirty p → r ∈ R.imports p → ¬ Reaches R.imports r p) ∧
          (R.compiled s).Nodup ∧ (∀ p, p ∈ R.compiled s ↔ R.dirty p ∧ Reaches R.imports main p) ∧
          ∀ pre p post, R.compiled s = pre ++ p :: post → ∀ r ∈ R.imports p, ∀ q, Reaches R.imports r q →
            R.dirty q → q ∈ pre
      | .error (.cyclicDependency p, _) =>
        R.dirty p ∧ Reaches R.imports main p ∧ ∃ r ∈ R.imports p, Reaches R.imports r p
      | .error e => e.1 ≠ .fuel ∧ Fails R.generator e := by
  refine ⟨fun q hq => buildAll_leaves R.generator outputs q (by rw [R.lookup, if_neg fun h => hq h.2]), ?_⟩
  cases hrun : buildAll R.generator outputs with
  | ok s =>
    have hsorted := (buildPackage_inOrder hrun ⟨trivial, fun _ h => (not_mem_nil h).elim⟩).sorted
    have hmem (p : Bytes) : p ∈ s.builtPkgs ↔ Reaches R.generator.needs main p :=
      (buildPackage_ok hrun).explored.mem_iff
    have hcompiled (p : Bytes) : p ∈ R.compiled s ↔ R.dirty p ∧ Reaches R.imports main p := by
      rw [Rebuild.compiled, mem_filter, mem_reverse, hmem, and_comm]
      exact and_congr_right fun hd => ⟨R.reaches_of_needs, fun h => R.needs_of_reaches .refl h hd⟩
    refine ⟨fun p r hp hd hr hback => ?_, (nodup_reverse.mpr hsorted.nodup).filter _, hcompiled, ?_⟩
    · refine hsorted.acyclic ((hmem p).mpr (R.needs_of_reaches .refl hp hd)) (r := r) ?_
        (R.needs_of_reaches (hp.tail hr) hback hd)
      rwa [R.needs_of_dirty hp hd]
    · intro pre p post hsplit r hr q hq hd
      have hp : p ∈ R.compiled s := by rw [hsplit]; simp
      obtain ⟨hdp, hreach⟩ := (hcompiled p).mp hp
      obtain ⟨l₁, l₂, hl, rfl, hl₂⟩ := filter_eq_append_iff.mp hsplit
      obtain ⟨l₃, l₄, rfl, hl₃, -, -⟩ := filter_eq_cons_iff.mp hl₂
      have hbuilt : s.builtPkgs = l₄.reverse ++ p :: (l₁ ++ l₃).reverse := by
        rw [← reverse_reverse s.builtPkgs, hl]
        simp
      have hlast : Sorted R.generator (p :: (l₁ ++ l₃).reverse) := Sorted.suffix (hbuilt ▸ hsorted)
      have hold := hlast.behind (by rwa [R.needs_of_dirty hreach hdp]) (R.needs_of_reaches (hreach.tail hr) hq hd)
      rw [mem_reverse, mem_append] at hold
      exact mem_filter.mpr ⟨hold.resolve_right fun h => hl₃ q h hd, hd⟩
  | error e =>
    have hfuel := buildAll_fuel R.generator outputs e hrun
    have herror := buildPackage_cycle (fun p hp => R.reached p (R.reaches_of_needs hp))
      (Nat.lt_succ_of_le (unseen_le_length _ [])) .refl (fun _ h => (not_mem_nil h).elim) hrun
    obtain ⟨abort, s⟩ := e
    cases abort with
    | cyclicDependency p =>
      obtain ⟨q, hq, hreach, r, hr, hback⟩ := herror.resolve_left fun h => h.noCycle rfl
      cases hq
      have hdirty : R.dirty p := by
        rw [R.needs_eq] at hr
        split at hr
        · next h => exact h.2
        · cases hr
      exact ⟨hdirty, R.reaches_of_needs hreach, r, R.mem_imports hr, R.reaches_of_needs hback⟩
    | _ => exact ⟨hfuel, herror.resolve_right fun ⟨q, hq, _⟩ => by cases hq⟩

def importing (names : List String) : SourceFile Nat :=
  ⟨names.map fun name => .importStatement ⟨"", 1, 1⟩ (ascii name) (ascii name), 1, false⟩

/-- `start` imports `a` and `b`, which both import `c`. -/
def diamond : Project Nat where
  files := AList.insert (ascii "c") (importing []) (AList.insert (ascii "b") (importing ["c"])
    (AList.insert (ascii "a") (importing ["c"]) (AList.insert main (importing ["a", "b"]) ∅)))
  outputs := ∅
  exports := ∅
  lastBuild := 0

theorem diamond_plain (p : Bytes) (hp : Reaches (History.imports diamond.files) main p) :
    History.Plain diamond.files p := by
  have hfiles : ∀ e ∈ diamond.files.entries, e.2.underBuild = false ∧
      extractUserImports (parseImports e.2.tree) = extractUserImports e.2.tree ∧
        ∀ q ∈ extractUserImports e.2.tree, q ∈ diamond.files.keys := by decide +kernel
  have hkeys : p ∈ diamond.files := by
    refine hp.closed (P := fun p => p ∈ diamond.files) (fun a b ha hb => ?_) (by decide)
    obtain ⟨f, hf⟩ := Option.isSome_iff_exists.mp (lookup_isSome.mpr ha)
    rw [History.imports, hf] at hb
    exact (hfiles ⟨a, f⟩ (mem_lookup_iff.mp hf)).2.2 b hb
  obtain ⟨f, hf⟩ := Option.isSome_iff_exists.mp (lookup_isSome.mpr hkeys)
  obtain ⟨hbuild, hfirst, -⟩ := hfiles ⟨p, f⟩ (mem_lookup_iff.mp hf)
  exact ⟨f, hf, hbuild, hfirst⟩

theorem build_order_diamond :
    let R := Rebuild.ofProject History.noTrouble History.inOrder diamond diamond_plain
    ∃ s, buildAll R.generator ∅ = .ok s ∧ R.compiled s = [ascii "c", ascii "a", ascii "b", main] ∧
      ∀ p r, Reaches R.imports main p → R.dirty p → r ∈ R.imports p → ¬ Reaches R.imports r p := by
  intro R
  have hrun : ((buildAll R.generator ∅).toOption.map R.compiled) = some [ascii "c", ascii "a", ascii "b", main] := by
    decide +kernel
  have horder := (build_order R ∅).2
  cases hbuild : buildAll R.generator ∅ with
  | error e =>
    rw [hbuild] at hrun
    cases hrun
  | ok s =>
    rw [hbuild] at hrun horder
    exact ⟨s, rfl, Option.some.inj hrun, horder.1⟩

end Rebuilding

end Picasso.Build
