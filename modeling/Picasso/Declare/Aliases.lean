import Picasso.Declare.Imports
import Picasso.Declare.Names

namespace Picasso.Declare

open Lexing Lib.Exploration Lib.Postorder List PackageEntry

/-- The packages of a project that are built. An import of a package that is
not there, or of a package that comes back to its importer, ends the build
before any import is resolved. -/
structure ImportGraph where
  packages : List Bytes
  imports : Bytes → List PackageEntry
  closed : ∀ p, ∀ e ∈ imports p, e.name ∈ packages
  acyclic : Acyclic name imports

structure Module extends ImportGraph where
  own : List PackageEntry
  own_mem : ∀ e ∈ own, e.name ∈ packages

def ImportGraph.load (G : ImportGraph) (p : Bytes) : Option (List PackageEntry) :=
  if p ∈ G.packages then some (G.imports p) else none

def AliasMap.write (m : AliasMap) (pkg : PackageEntry) : AliasMap := m.insert pkg.importAlias pkg.name

/-- The imports of a module are resolved, where the declaration of a package
does not fail and changes the state by `f`. -/
def Module.resolve {σ : Type} (M : Module) (f : σ → PackageEntry → σ) (s : σ) : Except (Halt Empty) σ :=
  (resolveUserImports M.load id (fun s pkg _ => .ok (f s pkg)) (M.packages.length + 1) s M.own).map Prod.snd

def Module.aliasMap (M : Module) : Except (Halt Empty) AliasMap := M.resolve AliasMap.write ∅

def AliasMap.writes (m : AliasMap) (pkgs : List PackageEntry) : AliasMap := pkgs.foldl AliasMap.write m

open AliasMap

section Writes

variable {m : AliasMap} {out : List PackageEntry} {a n : Bytes}

theorem lookup_write (m : AliasMap) (e : PackageEntry) (a : Bytes) :
    (m.write e).lookup a = if e.importAlias = a then some e.name else m.lookup a := by
  rw [write]
  split
  · next h => rw [← h, AList.lookup_insert]
  · next h => rw [AList.lookup_insert_ne (Ne.symm h)]

theorem writes_append (m : AliasMap) (pre post : List PackageEntry) :
    m.writes (pre ++ post) = (m.writes pre).writes post := foldl_append

theorem lookup_writes_of_ne (h : ∀ d ∈ out, d.importAlias ≠ a) : (m.writes out).lookup a = m.lookup a := by
  induction out generalizing m with
  | nil => rfl
  | cons e out ih =>
    refine (ih fun d hd => h d (mem_cons_of_mem _ hd)).trans ?_
    rw [lookup_write, if_neg (h e mem_cons_self)]

theorem of_lookup_writes (h : (m.writes out).lookup a = some n) :
    (∃ pre e post, out = pre ++ e :: post ∧ e.importAlias = a ∧ e.name = n ∧ ∀ d ∈ post, d.importAlias ≠ a) ∨
      m.lookup a = some n ∧ ∀ d ∈ out, d.importAlias ≠ a := by
  induction out generalizing m with
  | nil => exact .inr ⟨h, by simp⟩
  | cons e out ih =>
    rcases ih h with ⟨pre, f, post, rfl, hf⟩ | ⟨hm, hout⟩
    · exact .inl ⟨e :: pre, f, post, rfl, hf⟩
    · rw [lookup_write] at hm
      split at hm
      · next he => exact .inl ⟨[], e, out, rfl, he, Option.some.inj hm, hout⟩
      · next he => exact .inr ⟨hm, forall_mem_cons.mpr ⟨he, hout⟩⟩

theorem lookup_writes : (writes ∅ out).lookup a = some n ↔
      ∃ pre e post, out = pre ++ e :: post ∧ e.importAlias = a ∧ e.name = n ∧ ∀ d ∈ post, d.importAlias ≠ a := by
  constructor
  · intro h
    refine (of_lookup_writes h).resolve_right fun h => ?_
    rw [AList.lookup_empty] at h
    cases h.1
  · rintro ⟨pre, e, post, rfl, ha, hn, hpost⟩
    rw [writes_append, writes, foldl_cons, ← writes, lookup_writes_of_ne hpost, lookup_write,
      if_pos ha, hn]

theorem lookup_writes_ne {pre post : List PackageEntry} {e d : PackageEntry} (hnodup : (out.map name).Nodup)
    (hout : out = pre ++ e :: post) (hd : d ∈ post) (ha : d.importAlias = a) :
    (writes ∅ out).lookup a ≠ some e.name := by
  intro h
  obtain ⟨pre', f, post', heq, -, hf, hpost⟩ := lookup_writes.mp h
  rw [hout] at heq hnodup
  rcases Lib.Chunks.append_cons_cases heq with ⟨mid, rfl, -⟩ | ⟨rfl, rfl, -⟩ | ⟨mid, -, rfl⟩
  · obtain ⟨-, rfl⟩ := List.cons.inj (append_cancel_left ((append_assoc ..).symm.trans heq))
    exact hpost d (by simp [hd]) ha
  · obtain ⟨-, rfl⟩ := List.cons.inj (append_cancel_left heq)
    exact hpost d hd ha
  · rw [map_append, map_cons, nodup_append, nodup_cons] at hnodup
    exact hnodup.2.1.1 (mem_map.mpr ⟨f, by simp, hf⟩)

end Writes

section Search

variable {σ : Type}

theorem foldlM_pure {δ : Type} {g : σ → PackageEntry → Except δ σ} {f : σ → PackageEntry → σ} {s : σ}
    {out : List PackageEntry} (h : ∀ s, ∀ e ∈ out, g s e = .ok (f s e)) : out.foldlM g s = .ok (out.foldl f s) := by
  induction out generalizing s with
  | nil => rfl
  | cons e out ih =>
    rw [foldlM_cons, h s e mem_cons_self]
    exact ih fun s d hd => h s d (mem_cons_of_mem _ hd)

theorem Module.resolve_visits (M : Module) (f : σ → PackageEntry → σ) (s : σ) :
    ∃ seen out, Visits name M.imports [] M.own seen out ∧ M.resolve f s = .ok (out.foldl f s) := by
  have hload (p : Bytes) (hp : p ∈ M.packages) : M.load p = some (M.imports p) := if_pos hp
  have hnext (p : Bytes) (hp : p ∈ M.packages) : M.imports p = next M.load id p := by rw [next, hload p hp]; rfl
  have htotal : ∃ d, resolveUserImports M.load id (fun s pkg _ => (.ok (f s pkg) : Except Empty σ))
      (M.packages.length + 1) s M.own = .ok d :=
    resolveUserImports_total (fun p (hp : p ∈ M.packages) => ⟨M.imports p, hload p hp, M.closed p⟩)
      (fun s pkg _ => ⟨f s pkg, rfl⟩) M.own_mem (Nat.lt_succ_self _)
  obtain ⟨d, hd⟩ := htotal
  obtain ⟨out, hvisit, hout⟩ := resolveUserImports_runs hd
  have hmem (e : PackageEntry) (he : e ∈ M.own) (x : Bytes) (hx : Below name (next M.load id) e.name x) :
      x ∈ M.packages := by
    refine Reaches.closed (fun a b ha hb => ?_) hx (M.own_mem e he)
    obtain ⟨d, hd, rfl⟩ := mem_map.mp hb
    rw [← hnext a ha] at hd
    exact M.closed a d hd
  refine ⟨d.1, out, hvisit.congr fun e he x hx => hnext x (hmem e he x hx), ?_⟩
  have hfold : out.foldlM (declares M.load fun s pkg _ => (.ok (f s pkg) : Except Empty σ)) s =
      .ok (out.foldl f s) := by
    refine foldlM_pure fun s e he => ?_
    obtain ⟨g, hg, hx⟩ := hvisit.mem_iff.mp (mem_map_of_mem he)
    simp only [declares, hload _ (hmem g hg _ hx)]
  rw [Module.resolve, hd]
  exact congrArg Except.ok (Except.ok.inj (hout.symm.trans hfold))

end Search

section Orders

def Module.Reorders (M' M : Module) : Prop :=
  M'.packages = M.packages ∧ Lib.Postorder.Reorders M'.imports M.imports ∧ M'.own.Perm M.own

def Module.reorder (M : Module) (imports : Bytes → List PackageEntry) (own : List PackageEntry)
    (himports : Lib.Postorder.Reorders imports M.imports) (hown : own.Perm M.own) : Module where
  packages := M.packages
  imports := imports
  closed p e he := M.closed p e ((himports p).mem_iff.mp he)
  acyclic := himports.acyclic M.acyclic
  own := own
  own_mem e he := M.own_mem e (hown.mem_iff.mp he)

/-- The imports that are written in a module, or in a package below it. -/
def Module.Writes (M : Module) (d : PackageEntry) : Prop :=
  d ∈ M.own ∨ ∃ e ∈ M.own, ∃ p, Below name M.imports e.name p ∧ d ∈ M.imports p

variable {M : Module} {e d : PackageEntry} {seen : List Bytes} {out : List PackageEntry}

theorem visits_writes (h : Visits name M.imports [] M.own seen out) (hd : d ∈ out) : M.Writes d := by
  rcases h.edge hd with hd | ⟨f, hf, hd⟩
  · exact .inl hd
  · obtain ⟨e, he, hbelow⟩ := h.mem_iff.mp (mem_map_of_mem hf)
    exact .inr ⟨e, he, f.name, hbelow, hd⟩

theorem Module.Reorders.writes {M' : Module} (h : M'.Reorders M) (hd : M'.Writes d) : M.Writes d := by
  obtain ⟨-, himports, hown⟩ := h
  rcases hd with hd | ⟨e, he, p, hp, hd⟩
  · exact .inl (hown.mem_iff.mp hd)
  · exact .inr ⟨e, hown.mem_iff.mp he, p, himports.below.mp hp, (himports p).mem_iff.mp hd⟩

/-- An import is the first of its package that is met, if it is written in front
of the others, and so is all on the way to it. -/
theorem exists_reorder_visits (hd : M.Writes d) : ∃ M' : Module, M'.Reorders M ∧
      ∀ seen out, Visits name M'.imports [] M'.own seen out → d ∈ out := by
  obtain ⟨imports, hre, f, hf, -, hvis⟩ := exists_reorder_first M.acyclic hd
  refine ⟨M.reorder imports (f :: M.own.erase f) hre (perm_cons_erase hf).symm, ⟨rfl, hre,
    (perm_cons_erase hf).symm⟩, fun seen out hv => hvis _ _ _ _ (by simp) hv⟩

theorem exists_reorder_after (he : e ∈ M.own) (hd : M.Writes d)
    (hbelow : ¬ Below name M.imports e.name d.name) :
    ∃ M' : Module, M'.Reorders M ∧ ∀ seen out, Visits name M'.imports [] M'.own seen out →
      ∃ pre post, out = pre ++ e :: post ∧ d ∈ post := by
  obtain ⟨imports, hre, f, hf, hfd, hvis⟩ := exists_reorder_first M.acyclic hd
  have hne : f ≠ e := fun h => hbelow (h ▸ hfd)
  have hf' : f ∈ M.own.erase e := (mem_erase_of_ne hne).mpr hf
  have hperm : (e :: f :: (M.own.erase e).erase f).Perm M.own :=
    ((perm_cons_erase hf').symm.cons e).trans (perm_cons_erase he).symm
  refine ⟨M.reorder imports _ hre hperm, ⟨rfl, hre, hperm⟩, fun seen out hv => ?_⟩
  -- what has been seen after the first import lies below it
  obtain ⟨seen1, pre, post, rfl, hrest, hseen⟩ := hv.first not_mem_nil
  refine ⟨pre, post, rfl, hvis _ _ _ _ (fun z hz hmem => ?_) hrest⟩
  have hz' := (hseen z hmem).resolve_left not_mem_nil
  exact hbelow ((hre.below.mp hz').trans hz)

/-- Whatever the order in which imports are written, each alias of a module
stands for the package that it imports under it, just when neither the module
nor a package below it imports this package under another alias, nor imports
under this alias what does not lie below the package. -/
theorem own_aliases_win_iff (M : Module) : (∀ M' : Module, M'.Reorders M →
      ∃ m, M'.aliasMap = .ok m ∧ ∀ e ∈ M.own, m.lookup e.importAlias = some e.name) ↔
      ∀ e ∈ M.own, ∀ d, M.Writes d → (d.name = e.name → d.importAlias = e.importAlias) ∧
        (d.importAlias = e.importAlias → Below PackageEntry.name M.imports e.name d.name) := by
  constructor
  · intro h e he d hd
    constructor
    · intro hname
      obtain ⟨M', hre, hvis⟩ := exists_reorder_visits hd
      obtain ⟨m, hm, hwin⟩ := h M' hre
      obtain ⟨seen, out, hv, hres⟩ := M'.resolve_visits write ∅
      rw [Module.aliasMap, hres] at hm
      cases hm
      obtain ⟨pre, f, post, rfl, hf, hfe, -⟩ := lookup_writes.mp (hwin e he)
      -- the package is entered once, by the import in question
      have := inj_on_of_nodup_map hv.nodup (hvis seen _ hv) (show f ∈ pre ++ f :: post by simp) (hname.trans hfe.symm)
      rw [this, hf]
    · intro halias
      by_contra hbelow
      obtain ⟨M', hre, hvis⟩ := exists_reorder_after he hd hbelow
      obtain ⟨m, hm, hwin⟩ := h M' hre
      obtain ⟨seen, out, hv, hres⟩ := M'.resolve_visits write ∅
      rw [Module.aliasMap, hres] at hm
      cases hm
      obtain ⟨pre, post, rfl, hmem⟩ := hvis seen out hv
      exact lookup_writes_ne hv.nodup rfl hmem halias (hwin e he)
  · intro h M' hre
    obtain ⟨seen, out, hv, hres⟩ := M'.resolve_visits write ∅
    refine ⟨_, hres, fun e he => lookup_writes.mpr ?_⟩
    obtain ⟨f, hf, hfe⟩ := mem_map.mp (hv.mem_iff.mpr ⟨e, hre.2.2.mem_iff.mpr he, .refl _⟩)
    have hwrites (d : PackageEntry) (hd : d ∈ out) := h e he d (hre.writes (visits_writes hv hd))
    obtain ⟨pre, post, rfl⟩ := append_of_mem hf
    refine ⟨pre, f, post, rfl, (hwrites f hf).1 hfe, hfe, fun d hd halias => ?_⟩
    -- what is written later under the alias lies below the package, and so was met before it
    have hbelow := (hwrites d (by simp [hd])).2 halias
    obtain ⟨hpre, hne⟩ := hv.later rfl hd
    rw [← hfe, ← hre.2.1.below] at hbelow
    exact hpre (hv.below_before M'.acyclic rfl hbelow hne)

end Orders

/-- A module that imports the packages `b`, `c` and `d` under their names, where
`b` imports a package `e` under the alias `d`, and `c` under the alias `x`. -/
def clashing : Module where
  packages := [ascii "b", ascii "c", ascii "d", ascii "e"]
  imports p := if p = ascii "b" then [⟨ascii "e", ascii "d"⟩, ⟨ascii "c", ascii "x"⟩] else []
  closed p e he := by
    split at he
    · simp only [mem_cons, not_mem_nil, or_false] at he
      rcases he with rfl | rfl <;> decide
    · exact absurd he not_mem_nil
  acyclic := acyclic_of_rank (fun p => if p = ascii "b" then 1 else 0) fun p e he => by
    split at he
    · next hp =>
      simp only [mem_cons, not_mem_nil, or_false] at he
      rcases he with rfl | rfl <;> rw [hp] <;> decide
    · exact absurd he not_mem_nil
  own := [⟨ascii "d", ascii "d"⟩, ⟨ascii "b", ascii "b"⟩, ⟨ascii "c", ascii "c"⟩]
  own_mem := by decide

/-- Of the aliases that are written in the module, one stands for a package
that it does not import, and one for nothing. -/
theorem clashing_aliases :
    (clashing.aliasMap.toOption.map fun m => (m.lookup (ascii "d"), m.lookup (ascii "b"), m.lookup (ascii "c"))) =
      some (some (ascii "e"), some (ascii "b"), none) := by
  decide +kernel

section Idempotence

variable {m : AliasMap}

theorem qualifier_append_dot (p t : Bytes) : qualifier (p ++ 46 :: t) = qualifier p := by
  induction p with
  | nil => rfl
  | cons b p ih =>
    by_cases hb : b = 46
    · simp [qualifier, hb]
    · simpa [qualifier, hb] using ih

theorem dot_notMem_qualifier (name : Bytes) : 46 ∉ qualifier name := by
  intro h
  simpa using mem_takeWhile_imp h

theorem exists_eq_qualifier {name : Bytes} (h : 46 ∈ name) : ∃ t, name = qualifier name ++ 46 :: t := by
  induction name with
  | nil => cases h
  | cons b name ih =>
    by_cases hb : b = 46
    · exact ⟨name, by simp [qualifier, hb]⟩
    · obtain ⟨t, ht⟩ := ih ((mem_cons.mp h).resolve_left fun hb' => hb hb'.symm)
      refine ⟨t, ?_⟩
      have hq : qualifier (b :: name) = b :: qualifier name := by simp [qualifier, hb]
      rw [hq, cons_append, ← ht]

theorem resolveAlias_resolved (p t : Bytes) :
    resolveAlias m (p ++ 46 :: t) = p ++ 46 :: t ↔ (m.lookup (qualifier p)).getD (qualifier p) = qualifier p := by
  have hsplit : p ++ 46 :: t = qualifier p ++ (p ++ 46 :: t).dropWhile (· ≠ 46) := by
    rw [← qualifier_append_dot p t]
    exact takeWhile_append_dropWhile.symm
  rw [resolveAlias, if_pos (by simp), qualifier_append_dot]
  cases m.lookup (qualifier p) with
  | none => simp
  | some q =>
    refine ⟨fun h => append_cancel_right (h.trans hsplit), fun h => ?_⟩
    exact (congrArg (· ++ (p ++ 46 :: t).dropWhile (· ≠ 46)) h).trans hsplit.symm

/-- Names that are resolved stay as they are just when no alias stands for a
path whose first component is itself an alias of something else. -/
theorem resolveAlias_idempotent_iff (m : AliasMap) :
    (∀ name, resolveAlias m (resolveAlias m name) = resolveAlias m name) ↔
      ∀ a p q, 46 ∉ a → m.lookup a = some p → m.lookup (qualifier p) = some q → q = qualifier p := by
  constructor
  · intro h a p q ha hp hq
    have hname := h (a ++ 46 :: [])
    rw [resolveAlias_dot ha, hp, Option.getD_some, resolveAlias_resolved, hq] at hname
    exact hname
  · intro h name
    by_cases hdot : 46 ∈ name
    · obtain ⟨t, ht⟩ := exists_eq_qualifier hdot
      have hname := resolveAlias_dot (m := m) (dot_notMem_qualifier name) t
      rw [← ht] at hname
      rw [hname]
      cases hp : m.lookup (qualifier name) with
      | none =>
        rw [hp, Option.getD_none, ← ht] at hname
        rwa [Option.getD_none, ← ht]
      | some p =>
        refine (resolveAlias_resolved p t).mpr ?_
        cases hq : m.lookup (qualifier p) with
        | none => rfl
        | some q => exact h _ p q (dot_notMem_qualifier name) hp hq
    · simp [resolveAlias, hdot]

/-- A module that imports `x.y`, and a package `z` under the alias `x`. -/
def realiased : Module where
  packages := [ascii "x.y", ascii "z"]
  imports _ := []
  closed _ _ he := absurd he not_mem_nil
  acyclic := acyclic_of_rank (fun _ => 0) fun _ _ he => absurd he not_mem_nil
  own := [⟨ascii "x.y", ascii "y"⟩, ⟨ascii "z", ascii "x"⟩]
  own_mem := by decide

theorem realiased_twice : (realiased.aliasMap.toOption.map fun m =>
      (resolveAlias m (ascii "y.T"), resolveAlias m (resolveAlias m (ascii "y.T")))) =
      some (ascii "x.y.T", ascii "z.y.T") := by
  decide +kernel

end Idempotence

end Picasso.Declare
