import Picasso.Declare.Aliases

namespace Picasso.Declare

open Lexing Build Lib.Exploration Lib.Postorder List PackageEntry AliasMap

section Definitions

/-- The aliases in the course of a pass, and those by which the names of each
package were resolved. -/
structure Pass where
  aliasMap : AliasMap
  scopes : List (Bytes × AliasMap)

def Pass.declare (s : Pass) (pkg : PackageEntry) : Pass :=
  ⟨s.aliasMap.write pkg, s.scopes ++ [(pkg.name, s.aliasMap.write pkg)]⟩

def Module.pass (M : Module) : Except (Halt Empty) Pass := M.resolve Pass.declare ⟨∅, []⟩

def ImportGraph.package (G : ImportGraph) (p : Bytes) : Module := ⟨G, G.imports p, G.closed p⟩

/-- The aliases by which the names of a package are resolved when it is itself
compiled: it is declared last, under the last part of its name. -/
def ImportGraph.compiled (G : ImportGraph) (p : Bytes) : Except (Halt Empty) AliasMap :=
  (G.package p).aliasMap.map fun m => m.write ⟨p, endName p⟩

/-- In front of a module, the names of each package are resolved as when the
package is itself compiled: those that begin with an alias there, or with a part
of the name of a package below it. No other name stands for a type there. -/
def Module.Agrees (M : Module) : Prop :=
  ∃ s, M.pass = .ok s ∧ ∀ p m, (p, m) ∈ s.scopes → ∃ m', M.compiled p = .ok m' ∧
    ∀ written, (46 ∈ written → (m'.lookup (qualifier written)).isSome ∨
      ∃ q, Below name M.imports p q ∧ qualifier written ∈ q.splitOn 46) → resolveAlias m written = resolveAlias m' written

def PackageEntry.Plain (e : PackageEntry) : Prop := e.importAlias = endName e.name

def ImportGraph.Plain (G : ImportGraph) : Prop := ∀ p, ∀ e ∈ G.imports p, e.Plain

/-- A package below `p`, with another last name than `p`, that lies above all
other packages of its last name but those above `p`. -/
structure ImportGraph.Topmost (G : ImportGraph) (p top : Bytes) : Prop where
  below : Below name G.imports p top
  ne : endName top ≠ endName p
  others : ∀ r ∈ G.packages, endName r = endName top → r ≠ top →
    Below name G.imports top r ∨ Below name G.imports r p

end Definitions

section Passes

variable {s : Pass} {out : List PackageEntry} {p : Bytes} {m : AliasMap}

theorem lookup_isSome {a : Bytes} {e : PackageEntry} (he : e ∈ out) (ha : e.importAlias = a) :
    ∃ q, (writes ∅ out).lookup a = some q := by
  cases hm : (writes ∅ out).lookup a with
  | some q => exact ⟨q, rfl⟩
  | none =>
    induction out using List.reverseRecOn with
    | nil => exact absurd he not_mem_nil
    | append_singleton out f ih =>
      rw [writes_append, writes, foldl_cons, foldl_nil, lookup_write] at hm
      split at hm
      · cases hm
      · next hf =>
        rcases mem_append.mp he with he | he
        · exact ih he hm
        · exact absurd (mem_singleton.mp he ▸ ha) hf

end Passes

section Plain

variable {G : ImportGraph} {es pre post out : List PackageEntry} {e : PackageEntry} {seen : List Bytes} {p q : Bytes}

theorem plain_of_visits (hG : G.Plain) (hes : ∀ e ∈ es, e.Plain)
    (hv : Visits name G.imports [] es seen out) : ∀ e ∈ out, e.Plain := by
  intro e he
  rcases hv.edge he with he | ⟨d, -, he⟩
  · exact hes e he
  · exact hG _ e he

theorem mem_packages (hes : ∀ e ∈ es, e.name ∈ G.packages)
    (hv : Visits name G.imports [] es seen out) (he : e ∈ out) : e.name ∈ G.packages := by
  rcases hv.edge he with he | ⟨d, -, he⟩
  · exact hes e he
  · exact G.closed _ e he

theorem below_imports (hv : Visits name G.imports [] (G.imports p) seen out) (he : e ∈ out) :
    Below name G.imports p e.name := by
  obtain ⟨d, hd, hbelow⟩ := hv.mem_iff.mp (mem_map_of_mem he)
  exact .head hd hbelow

theorem mem_of_below (hv : Visits name G.imports [] (G.imports p) seen out)
    (hq : Below name G.imports p q) (hne : q ≠ p) : ∃ e ∈ out, e.name = q := by
  rcases Relation.ReflTransGen.cases_head hq with rfl | ⟨r, hr, hrq⟩
  · exact absurd rfl hne
  · obtain ⟨d, hd, rfl⟩ := mem_map.mp hr
    exact mem_map.mp (hv.mem_iff.mpr ⟨d, hd, hrq⟩)

theorem lookup_top (rest : List PackageEntry) (hv : Visits name G.imports [] es seen (out ++ rest))
    (hplain : ∀ d ∈ out, d.Plain) (he : e ∈ out)
    (hothers : ∀ d ∈ out, endName d.name = endName e.name → d.name ≠ e.name →
      Below name G.imports e.name d.name) :
    (writes ∅ out).lookup (endName e.name) = some e.name := by
  obtain ⟨pre, post, rfl⟩ := append_of_mem he
  refine lookup_writes.mpr ⟨pre, e, post, rfl, hplain e he, rfl, fun d hd halias => ?_⟩
  have hsplit : pre ++ e :: post ++ rest = pre ++ e :: (post ++ rest) := by simp
  have hmem : d ∈ pre ++ e :: post := by simp [hd]
  obtain ⟨hpre, hne⟩ := hv.later hsplit (mem_append_left rest hd)
  exact hpre (hv.below_before G.acyclic hsplit (hothers d hmem ((hplain d hmem).symm.trans halias) hne) hne)

theorem not_above_before {d : PackageEntry} (hv : Visits name G.imports [] es seen (pre ++ e :: post)) (hd : d ∈ pre) :
    ¬ Below name G.imports d.name e.name := by
  intro hbelow
  obtain ⟨pre1, post1, rfl⟩ := append_of_mem hd
  have hlater : pre1 ++ d :: post1 ++ e :: post = pre1 ++ d :: (post1 ++ e :: post) := by simp
  obtain ⟨hnot, hne⟩ := hv.later hlater (show e ∈ post1 ++ e :: post by simp)
  exact hnot (hv.below_before G.acyclic hlater hbelow hne)

theorem ImportGraph.Topmost.ne_self (h : G.Topmost p q) : q ≠ p := fun heq => h.ne (heq ▸ rfl)

theorem ImportGraph.Topmost.compiled (h : G.Topmost p q) (hG : G.Plain)
    (hv : Visits name G.imports [] (G.imports p) seen out) :
    (writes ∅ out).lookup (endName q) = some q := by
  obtain ⟨e, he, rfl⟩ := mem_of_below hv h.below h.ne_self
  refine lookup_top [] (by rwa [append_nil]) (plain_of_visits hG (hG p) hv) he fun d hd hname hne => ?_
  rcases h.others d.name (mem_packages (G.closed p) hv hd) hname hne with hbelow | hbelow
  · exact hbelow
  · exact absurd ((G.acyclic.antisymm hbelow (below_imports hv hd)) ▸ hname).symm h.ne

theorem ImportGraph.Topmost.declared (h : G.Topmost e.name q) (hG : G.Plain)
    (hes : ∀ e ∈ es, e.name ∈ G.packages ∧ e.Plain)
    (hv : Visits name G.imports [] es seen (pre ++ [e] ++ post)) :
    (writes ∅ (pre ++ [e])).lookup (endName q) = some q := by
  have hsplit : pre ++ [e] ++ post = pre ++ e :: post := by simp
  have hplain := plain_of_visits hG (fun e he => (hes e he).2) hv
  obtain ⟨g, hg, rfl⟩ := mem_map.mp (hv.below_before G.acyclic hsplit h.below h.ne_self)
  refine lookup_top post hv (fun d hd => hplain d (mem_append_left _ hd)) (mem_append_left _ hg)
    fun d hd hname hne => ?_
  have hmem : d ∈ pre ++ [e] ++ post := mem_append_left _ hd
  rcases h.others d.name (mem_packages (fun e he => (hes e he).1) hv hmem) hname hne with hbelow | hbelow
  · exact hbelow
  · rcases mem_append.mp hd with hd | hd
    · exact absurd hbelow (not_above_before (hsplit ▸ hv) hd)
    · rw [mem_singleton.mp hd] at hname
      exact absurd hname.symm h.ne

variable (hG : G.Plain) (h : ∀ M : Module, M.toImportGraph = G → (∀ e ∈ M.own, e.Plain) → M.Agrees)

include hG h

end Plain

/-- The packages `b`, which imports `u.t`, and others that import nothing. -/
def importing (others : List Bytes) : ImportGraph where
  packages := ascii "u.t" :: ascii "b" :: others
  imports p := if p = ascii "b" then [⟨ascii "u.t", ascii "t"⟩] else []
  closed p e he := by
    split at he
    · rw [mem_singleton.mp he]
      exact mem_cons_self
    · exact absurd he not_mem_nil
  acyclic := acyclic_of_rank (fun p => if p = ascii "b" then 1 else 0) fun p e he => by
    split at he
    · next hp =>
      rw [mem_singleton.mp he, hp]
      decide
    · exact absurd he not_mem_nil

end Picasso.Declare
