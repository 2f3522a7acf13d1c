import Picasso.Lexing.Token
import Mathlib.Data.List.AList
import Mathlib.Data.List.DropRight

namespace Picasso.Declare

open Lexing List

abbrev AliasMap := AList fun _ : Bytes => Bytes

def qualifier (name : Bytes) : Bytes := name.takeWhile (· ≠ 46)

def endName (name : Bytes) : Bytes := name.rtakeWhile (· ≠ 46)

def resolveAlias (aliasMap : AliasMap) (aliasField : Bytes) : Bytes :=
  if 46 ∈ aliasField then
    match aliasMap.lookup (qualifier aliasField) with
    | none => aliasField
    | some fqModuleName => fqModuleName ++ aliasField.dropWhile (· ≠ 46)
  else aliasField

variable {m m' : AliasMap} {name x p : Bytes}

theorem ne_dot (hx : 46 ∉ x) : ∀ b ∈ x, decide (b ≠ 46) = true := fun _ hb => decide_eq_true fun h => hx (h ▸ hb)

theorem qualifier_dot (hx : 46 ∉ x) (t : Bytes) : qualifier (x ++ 46 :: t) = x := by
  rw [qualifier, takeWhile_append_of_pos (ne_dot hx)]
  simp

theorem resolveAlias_eq_self (h : 46 ∉ name) : resolveAlias m name = name := by
  rw [resolveAlias, if_neg h]

theorem resolveAlias_dotFree {name' : Bytes} (h : resolveAlias m name = name') (hdot : 46 ∉ name') :
    name = name' := by
  by_cases hname : 46 ∈ name
  · refine absurd ?_ hdot
    have hdrop : 46 ∈ name.dropWhile (· ≠ 46) := by
      have hsplit := hname
      rw [← takeWhile_append_dropWhile (p := (· ≠ 46)) (l := name), mem_append] at hsplit
      exact hsplit.resolve_left fun htake => by simpa using mem_takeWhile_imp htake
    rw [resolveAlias, if_pos hname] at h
    split at h
    · rwa [← h]
    · rw [← h]
      exact mem_append_right _ hdrop
  · rwa [resolveAlias_eq_self hname] at h

theorem resolveAlias_dot (hx : 46 ∉ x) (t : Bytes) :
    resolveAlias m (x ++ 46 :: t) = (m.lookup x).getD x ++ 46 :: t := by
  have hdrop : (x ++ 46 :: t).dropWhile (· ≠ 46) = 46 :: t := by
    rw [dropWhile_append_of_pos (ne_dot hx)]
    simp
  rw [resolveAlias, if_pos (by simp), qualifier_dot hx, hdrop]
  cases m.lookup x <;> rfl

theorem resolveAlias_getD (hdot : 46 ∈ name) :
    resolveAlias m name = (m.lookup (qualifier name)).getD (qualifier name) ++ name.dropWhile (· ≠ 46) := by
  rw [resolveAlias, if_pos hdot]
  cases m.lookup (qualifier name) with
  | none => exact (takeWhile_append_dropWhile ..).symm
  | some => rfl

theorem resolveAlias_eq (h : 46 ∈ name → (m.lookup (qualifier name)).getD (qualifier name) =
    (m'.lookup (qualifier name)).getD (qualifier name)) : resolveAlias m name = resolveAlias m' name := by
  by_cases hdot : 46 ∈ name
  · rw [resolveAlias_getD hdot, resolveAlias_getD hdot, h hdot]
  · rw [resolveAlias, resolveAlias, if_neg hdot, if_neg hdot]

end Picasso.Declare
