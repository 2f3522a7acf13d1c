import Picasso.Build.Project
import Picasso.Lib.Lists

namespace Picasso.Build

open Lexing Parsing Lib.Exploration Lib.Folds List AList Generator

variable {ν : Type} {g : Generator ν} {p : Bytes}

section Declarations

variable {n : Nat} {d d' d'' : Declarations ν} {us vs : List Bytes}

def Generator.next (g : Generator ν) (p : Bytes) : List Bytes := extractUserImports ((g.packageAST p).getD [])

structure Declares (g : Generator ν) (d : Declarations ν) (vs : List Bytes) (d' : Declarations ν) : Prop where
  explored : Explored g.next d.declared vs d'.declared
  keeps : ∀ e ∈ d.trees, e ∈ d'.trees
  adds : ∀ q ∈ d'.declared, q ∉ d.declared → ∃ tree, (q, tree) ∈ d'.trees
  sound : ∀ e ∈ d'.trees, e ∈ d.trees ∨ e.1 ∈ d'.declared ∧ g.packageAST e.1 = some e.2

theorem Declares.nil (d : Declarations ν) : Declares g d [] d :=
  ⟨.nil, fun _ h => h, fun _ h h' => absurd h h', fun _ h => .inl h⟩

theorem Declares.cons (h : Declares g d [p] d') (h' : Declares g d' vs d'') : Declares g d (p :: vs) d'' where
  explored := h.explored.cons h'.explored
  keeps e he := h'.keeps e (h.keeps e he)
  adds q hq hn := by
    by_cases hq' : q ∈ d'.declared
    · obtain ⟨tree, ht⟩ := h.adds q hq' hn
      exact ⟨tree, h'.keeps _ ht⟩
    · exact h'.adds q hq hq'
  sound e he := by
    rcases h'.sound e he with he | he
    · exact (h.sound e he).imp_right fun he => ⟨h'.explored.grows _ he.1, he.2⟩
    · exact .inr he

theorem Declares.loop {f : Declarations ν → Bytes → Except Abort (Declarations ν)}
    (hf : ∀ d p d', f d p = .ok d' → Declares g d [p] d') (h : vs.foldlM f d = .ok d') : Declares g d vs d' := by
  induction vs generalizing d with
  | nil =>
    cases h
    exact .nil _
  | cons p vs ih =>
    obtain ⟨d1, hp, hrest⟩ := foldlM_cons_ok h
    exact (hf d p d1 hp).cons (ih hrest)

theorem declaration_ok (h : recursiveTransitiveDeclaration g n d p = .ok d') : Declares g d [p] d' := by
  induction n generalizing d p d' with
  | zero => cases h
  | succ n ih =>
    rw [recursiveTransitiveDeclaration] at h
    split at h
    · next hp =>
      cases h
      exact ⟨.skip hp, fun _ h => h, fun _ h h' => absurd h h', fun _ h => .inl h⟩
    · next hp =>
      split at h
      · cases h
      · next tree htree =>
        obtain ⟨d1, hloop, hlast⟩ := bind_eq_ok h
        cases hlast
        have hd := Declares.loop (fun d p d' => ih) hloop
        have hnext : g.next p = extractUserImports tree := by rw [Generator.next, htree, Option.getD_some]
        have hexp : Explored g.next d.declared [p] d1.declared := .enter (by rw [hnext]; exact hd.explored)
        refine ⟨hexp, fun e he => mem_append_left _ (hd.keeps e he), fun q hq hn => ?_, fun e he => ?_⟩
        · by_cases hqp : q = p
          · exact ⟨tree, by simp [hqp]⟩
          · obtain ⟨t, ht⟩ := hd.adds q hq (by simp [hqp, hn])
            exact ⟨t, mem_append_left _ ht⟩
        · rcases mem_append.mp he with he | he
          · exact hd.sound e he
          · rw [mem_singleton.mp he]
            exact .inr ⟨hexp.visits p (mem_singleton_self p), htree⟩

variable {tree : List (Statement ν)}

theorem resolveUserImports_ok (h : g.resolveUserImports tree = .ok d) :
    (∀ q, (∃ i ∈ extractUserImports tree, Reaches g.next i q) → ∃ t, (q, t) ∈ d.trees) ∧
      ∀ e ∈ d.trees, (∃ i ∈ extractUserImports tree, Reaches g.next i e.1) ∧ g.packageAST e.1 = some e.2 := by
  have hd := Declares.loop (fun d p d' => declaration_ok) h
  refine ⟨fun q hq => hd.adds q ?_ not_mem_nil, fun e he => ?_⟩
  · obtain ⟨i, hi, hr⟩ := hq
    exact hr.closed (fun a b ha hb => hd.explored.closed a ha not_mem_nil b hb) (hd.explored.visits i hi)
  · obtain ⟨hmem, hast⟩ := (hd.sound e he).resolve_left not_mem_nil
    exact ⟨(hd.explored.sound e.1 hmem).resolve_left not_mem_nil, hast⟩

theorem next_names {q : Bytes} (h : q ∈ g.next p) : q ∈ g.names := by
  rw [Generator.next, packageAST] at h
  rw [names, mem_append]
  split at h
  · next tree hl =>
    obtain ⟨l, l', heq, -⟩ := lookup_eq_some_iff.mp hl
    exact .inl (mem_flatMap.mpr ⟨(p, tree), by rw [heq]; simp, h⟩)
  · cases hl : g.exports.lookup p with
    | none => simp [hl, extractUserImports] at h
    | some tree =>
      rw [hl] at h
      exact .inr (mem_flatMap.mpr ⟨⟨p, tree⟩, AList.mem_lookup_iff.mp hl, h⟩)

theorem declaration_error {e : Abort} (h : recursiveTransitiveDeclaration g (n + 1) d p = .error e) :
    e = .loadingExports p ∨ p ∉ d.declared ∧ ∃ tree, g.packageAST p = some tree ∧
      (extractUserImports tree).foldlM (recursiveTransitiveDeclaration g n) { d with declared := p :: d.declared } =
        .error e := by
  rw [recursiveTransitiveDeclaration] at h
  split at h
  · cases h
  · next hseen =>
    split at h
    · cases h
      exact .inl rfl
    · next tree htree =>
      rcases bind_eq_error h with h | ⟨d', -, h⟩
      · exact .inr ⟨hseen, tree, htree, h⟩
      · cases h

theorem declaration_fuel (hp : p ∈ g.names) (hn : unseen g.names d.declared < n) :
    ∀ e, recursiveTransitiveDeclaration g n d p = .error e → e ≠ .fuel := by
  induction n generalizing d p with
  | zero => exact absurd hn (Nat.not_lt_zero _)
  | succ n ih =>
    intro e h
    rcases declaration_error h with rfl | ⟨hseen, tree, htree, h⟩
    · simp
    · have hlt := unseen_lt hp hseen
      exact foldlM_not_bad (I := fun d => unseen g.names d.declared < n) (B := fun e : Abort => e = .fuel)
        (fun d q hq hd => ih (next_names (p := p) (by rw [Generator.next, htree]; exact hq)) hd)
        (fun d q _ hd d' hq => (unseen_le (declaration_ok hq).explored.grows).trans_lt hd)
        (by dsimp only; omega) e h

theorem resolveUserImports_fuel (hp : g.packages.lookup p = some tree) :
    ∀ e, g.resolveUserImports tree = .error e → e ≠ .fuel := by
  rw [resolveUserImports]
  apply foldlM_not_bad (I := fun d : Declarations ν => unseen g.names d.declared < g.names.length + 1)
    (B := fun e : Abort => e = .fuel)
  · intro d q hq hd
    apply declaration_fuel _ hd
    apply next_names (p := p)
    rw [Generator.next, packageAST, hp]
    exact hq
  · exact fun d q _ hd d' hq => (unseen_le (declaration_ok hq).explored.grows).trans_lt hd
  · exact Nat.lt_succ_of_le (unseen_le_length _ [])

end Declarations

section Packages

variable {n : Nat} {s s' s'' : Session ν} {vs : List Bytes}

/-- The packages that a package is built after: its imports, if it is compiled
at all. -/
def Generator.needs (g : Generator ν) (p : Bytes) : List Bytes := extractUserImports ((g.packages.lookup p).getD [])

structure Builds (g : Generator ν) (s : Session ν) (vs : List Bytes) (s' : Session ν) : Prop where
  explored : Explored g.needs s.builtPkgs vs s'.builtPkgs
  visiting : s'.visitingPkgs = s.visitingPkgs
  keeps : ∀ q, q ∈ s.builtPkgs ∨ q ∉ s'.builtPkgs → s'.outputs.lookup q = s.outputs.lookup q
  skips : ∀ q, g.packages.lookup q = none → s'.outputs.lookup q = s.outputs.lookup q
  writes : ∀ q ∈ s'.builtPkgs, q ∉ s.builtPkgs → ∀ tree, g.packages.lookup q = some tree →
    ∃ d, g.resolveUserImports tree = .ok d ∧ s'.outputs.lookup q = some ⟨tree, d.trees⟩

theorem Builds.nil (s : Session ν) : Builds g s [] s :=
  ⟨.nil, rfl, fun _ _ => rfl, fun _ _ => rfl, fun _ h h' => absurd h h'⟩

theorem Builds.cons (h : Builds g s [p] s') (h' : Builds g s' vs s'') : Builds g s (p :: vs) s'' where
  explored := h.explored.cons h'.explored
  visiting := h'.visiting.trans h.visiting
  keeps q hq := by
    rcases hq with hq | hq
    · rw [h'.keeps q (.inl (h.explored.grows q hq)), h.keeps q (.inl hq)]
    · rw [h'.keeps q (.inr hq), h.keeps q (.inr fun hq' => hq (h'.explored.grows q hq'))]
  skips q hq := (h'.skips q hq).trans (h.skips q hq)
  writes q hq hn tree ht := by
    by_cases hq' : q ∈ s'.builtPkgs
    · rw [h'.keeps q (.inl hq')]
      exact h.writes q hq' hn tree ht
    · exact h'.writes q hq hq' tree ht

variable {f : Session ν → Bytes → Except (Abort × Session ν) (Session ν)} {tree : List (Statement ν)}

theorem Builds.loop (hf : ∀ s p s', f s p = .ok s' → Builds g s [p] s') (h : vs.foldlM f s = .ok s') :
    Builds g s vs s' := by
  induction vs generalizing s with
  | nil =>
    cases h
    exact .nil _
  | cons p vs ih =>
    obtain ⟨s1, hp, hrest⟩ := foldlM_cons_ok h
    exact (hf s p s1 hp).cons (ih hrest)

theorem compile_ok (h : g.compile s p tree = .ok s') :
    ∃ d, g.resolveUserImports tree = .ok d ∧ s' = { s with outputs := s.outputs.insert p ⟨tree, d.trees⟩ } := by
  rw [compile] at h
  split at h
  · split at h
    · cases h
    · next d hd =>
      cases h
      exact ⟨d, hd, rfl⟩
  · cases h

theorem buildPackage_ok (h : buildPackage g n s p = .ok s') : Builds g s [p] s' := by
  induction n generalizing s p s' with
  | zero => cases h
  | succ n ih =>
    rw [buildPackage] at h
    split at h
    · next hp =>
      cases h
      exact ⟨.skip hp, rfl, fun _ _ => rfl, fun _ _ => rfl, fun _ h h' => absurd h h'⟩
    · next hp =>
      split at h
      · cases h
      · dsimp only at h
        split at h
        · split at h
          · next hnone =>
            -- a package that is up to date is not entered
            cases h
            have hneeds : g.needs p = [] := by rw [needs, hnone]; rfl
            refine ⟨.leave (by rw [hneeds]; exact .nil), by simp [Session.finish], fun _ _ => rfl,
              fun _ _ => rfl, ?_⟩
            intro q hq hn tree ht
            rcases mem_cons.mp hq with rfl | hq
            · rw [hnone] at ht
              cases ht
            · exact absurd hq hn
          · next tree htree =>
            obtain ⟨s1, hloop, hlast⟩ := bind_eq_ok h
            obtain ⟨s2, hcomp, hfin⟩ := bind_eq_ok hlast
            cases hfin
            obtain ⟨d, hd, rfl⟩ := compile_ok hcomp
            have hb := Builds.loop (fun s p s' => ih) hloop
            have hneeds : g.needs p = extractUserImports tree := by rw [needs, htree, Option.getD_some]
            refine ⟨.leave (by rw [hneeds]; exact hb.explored), ?_, fun q hq => ?_, fun q hq => ?_, ?_⟩
            · rw [Session.finish]
              simp [hb.visiting]
            · have hqp : q ≠ p := by
                rintro rfl
                rcases hq with hq | hq
                · exact hp hq
                · exact hq mem_cons_self
              refine (lookup_insert_ne hqp).trans (hb.keeps q ?_)
              exact hq.imp_right fun h h' => h (mem_cons_of_mem p h')
            · have hqp : q ≠ p := by
                rintro rfl
                rw [htree] at hq
                cases hq
              exact (lookup_insert_ne hqp).trans (hb.skips q hq)
            · intro q hq hn t ht
              by_cases hqp : q = p
              · subst hqp
                rw [htree] at ht
                cases ht
                exact ⟨d, hd, lookup_insert _⟩
              · have hq1 := (mem_cons.mp hq).resolve_left hqp
                obtain ⟨d', hd', hout⟩ := hb.writes q hq1 hn t ht
                exact ⟨d', hd', (lookup_insert_ne hqp).trans hout⟩
        · cases h

def final : Except (Abort × Session ν) (Session ν) → Session ν
  | .ok s => s
  | .error e => e.2

def Leaves (g : Generator ν) (s s' : Session ν) : Prop :=
  ∀ q, g.packages.lookup q = none → s'.outputs.lookup q = s.outputs.lookup q

theorem leaves_loop (hf : ∀ s p, Leaves g s (final (f s p))) (vs : List Bytes) (s : Session ν) :
    Leaves g s (final (vs.foldlM f s)) := by
  induction vs generalizing s with
  | nil => exact fun _ _ => rfl
  | cons p vs ih =>
    rw [foldlM_cons]
    have hp := hf s p
    cases hrun : f s p with
    | error e =>
      rw [hrun] at hp
      exact hp
    | ok s1 =>
      rw [hrun] at hp
      exact fun q hq => (ih s1 q hq).trans (hp q hq)

theorem compile_leaves (hp : g.packages.lookup p = some tree) : Leaves g s (final (g.compile s p tree)) := by
  rw [compile]
  split
  · split
    · exact fun _ _ => rfl
    · intro q hq
      refine lookup_insert_ne ?_
      rintro rfl
      rw [hp] at hq
      cases hq
  · exact fun _ _ => rfl

theorem buildPackage_leaves (g : Generator ν) (n : Nat) (s : Session ν) (p : Bytes) :
    Leaves g s (final (buildPackage g n s p)) := by
  induction n generalizing s p with
  | zero => exact fun _ _ => rfl
  | succ n ih =>
    rw [buildPackage]
    split
    · exact fun _ _ => rfl
    · split
      · exact fun _ _ => rfl
      · dsimp only
        split
        · split
          · exact fun _ _ => rfl
          · next tree htree =>
            have hloop := leaves_loop ih (extractUserImports tree) { s with visitingPkgs := p :: s.visitingPkgs }
            cases hrun : (extractUserImports tree).foldlM (buildPackage g n)
                { s with visitingPkgs := p :: s.visitingPkgs } with
            | error e =>
              rw [hrun] at hloop
              exact hloop
            | ok s1 =>
              rw [hrun] at hloop
              have hcomp := compile_leaves (s := s1) htree
              change Leaves g s (final (g.compile s1 p tree >>= fun s => .ok (s.finish p)))
              cases hc : g.compile s1 p tree with
              | error e | ok s2 =>
                rw [hc] at hcomp
                exact fun q hq => (hcomp q hq).trans (hloop q hq)
        · exact fun _ _ => rfl

/-- A package is being visited or not known, or its imports are given up, or it
is itself. -/
theorem buildPackage_error {e : Abort × Session ν} (h : buildPackage g (n + 1) s p = .error e) :
    p ∈ s.visitingPkgs ∧ e = (.cyclicDependency p, s) ∨ p ∉ s.visitingPkgs ∧ (p ∉ g.allPkgs ∧ e.1 = .unknownModule p ∨
      p ∈ g.allPkgs ∧ ∃ tree, g.packages.lookup p = some tree ∧
        ((extractUserImports tree).foldlM (buildPackage g n) { s with visitingPkgs := p :: s.visitingPkgs } = .error e ∨
          ∃ s1, g.compile s1 p tree = .error e)) := by
  rw [buildPackage] at h
  split at h
  · cases h
  · split at h
    · next hvis =>
      cases h
      exact .inl ⟨hvis, rfl⟩
    · next hvis =>
      refine .inr ⟨hvis, ?_⟩
      dsimp only at h
      split at h
      · next hknown =>
        refine .inr ⟨hknown, ?_⟩
        split at h
        · cases h
        · next tree htree =>
          refine ⟨tree, htree, ?_⟩
          rcases bind_eq_error h with h | ⟨s1, -, h⟩
          · exact .inl h
          · rcases bind_eq_error h with h | ⟨s2, -, h⟩
            · exact .inr ⟨s1, h⟩
            · cases h
      · next hknown =>
        cases h
        exact .inl ⟨hknown, rfl⟩

theorem compile_error {e : Abort × Session ν} (h : g.compile s p tree = .error e) :
    e.1 = .compileError p ∨ g.resolveUserImports tree = .error e.1 := by
  rw [compile] at h
  split at h
  · split at h
    · next e' he =>
      cases h
      exact .inr he
    · cases h
  · cases h
    exact .inl rfl

theorem buildPackage_fuel (hn : unseen g.allPkgs s.visitingPkgs < n) :
    ∀ e, buildPackage g n s p = .error e → e.1 ≠ .fuel := by
  induction n generalizing s p with
  | zero => exact absurd hn (Nat.not_lt_zero _)
  | succ n ih =>
    intro e h
    rcases buildPackage_error h with ⟨-, rfl⟩ | ⟨hvis, ⟨-, he⟩ | ⟨hknown, tree, htree, h | ⟨s1, h⟩⟩⟩
    · simp
    · simp [he]
    · have hlt := unseen_lt hknown hvis
      exact foldlM_not_bad (I := fun s => unseen g.allPkgs s.visitingPkgs < n) (B := fun e => e.1 = .fuel)
        (fun s q _ hs => ih hs) (fun s q _ hs s' hq => by rw [(buildPackage_ok hq).visiting]; exact hs)
        (by dsimp only; omega) e h
    · rcases compile_error h with he | he
      · simp [he]
      · exact resolveUserImports_fuel htree _ he

theorem buildAll_leaves (g : Generator ν) (outputs : Outputs ν) (q : Bytes) (hq : g.packages.lookup q = none) :
    (final (buildAll g outputs)).outputs.lookup q = outputs.lookup q :=
  buildPackage_leaves g _ ⟨outputs, [], []⟩ main q hq

theorem buildAll_fuel (g : Generator ν) (outputs : Outputs ν) : ∀ e, buildAll g outputs = .error e → e.1 ≠ .fuel :=
  buildPackage_fuel (Nat.lt_succ_of_le (unseen_le_length _ []))

end Packages

end Picasso.Build
