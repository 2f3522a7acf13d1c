import Picasso.Build.Project
import Picasso.Lib.Stateful
import Picasso.Lexing.Scan
import Picasso.Parsing.Handlers
import Mathlib.Data.List.TakeWhile

namespace Picasso.Build.ImportLists

open Lexing Parsing List

variable {ν : Type}

section Loops

variable (c : Calls ν)

def parseAllLoop : Nat → List (Statement ν) → Parse (List (Statement ν))
  | 0, _ => stop .fuel
  | n + 1, body => do
      if ← hasTokens then
        let stmt ← c.parseStmt
        parseAllLoop n (body ++ [stmt])
      else return body

/-- The statements in front of the first one that is not an import, which is
parsed as well. -/
def parseImportsLoop : Nat → List (Statement ν) → Parse (List (Statement ν))
  | 0, _ => stop .fuel
  | n + 1, body => do
      if ← hasTokens then
        let stmt ← c.parseStmt
        if isImport stmt then parseImportsLoop n (body ++ [stmt]) else return body
      else return body

end Loops

section Files

inductive Rejected
  | lexer (failure : Failure)
  | parser (why : Stop)

def parseFile (loop : Parse (List (Statement ν))) (path : String) (content : Bytes) (reads : Nat → Nat) :
    Except Rejected (List (Statement ν)) :=
  match tokenize path content reads with
  | .error failure => .error (.lexer failure)
  | .ok tokens =>
    match loop ⟨tokens, 0⟩ with
    | .error why => .error (.parser why)
    | .ok (body, _) => .ok body

variable (strconv : Strconv ν) (n : Nat) (path : String) (content : Bytes) (reads : Nat → Nat)

def parseAll : Except Rejected (List (Statement ν)) := parseFile (parseAllLoop (calls strconv n) n []) path content reads

def parseImports : Except Rejected (List (Statement ν)) :=
  parseFile (parseImportsLoop (calls strconv n) n []) path content reads

end Files

section Agreement

variable {c : Calls ν} {n : Nat} {body tree : List (Statement ν)} {p p' : Parser}

theorem hasTokens_pure (p : Parser) : ∃ b, hasTokens p = .ok (b, p) := by
  unfold hasTokens
  cases p.tokens[p.pos]? with
  | none => exact ⟨false, rfl⟩
  | some t => exact ⟨_, rfl⟩

theorem parseAllLoop_step (h : parseAllLoop c (n + 1) body p = .ok (tree, p')) :
    hasTokens p = .ok (false, p) ∧ tree = body ∨ ∃ stmt q, hasTokens p = .ok (true, p) ∧ c.parseStmt p = .ok (stmt, q) ∧
        parseAllLoop c n (body ++ [stmt]) q = .ok (tree, p') := by
  obtain ⟨b, hb⟩ := hasTokens_pure p
  rw [parseAllLoop, bind_ok _ hb] at h
  cases b with
  | false =>
    cases h
    exact .inl ⟨hb, rfl⟩
  | true =>
    rw [if_pos rfl] at h
    obtain ⟨stmt, q, hs, h⟩ := Lib.Stateful.run_bind_eq_ok h
    exact .inr ⟨stmt, q, hb, hs, h⟩

theorem parseAllLoop_grows (h : parseAllLoop c n body p = .ok (tree, p')) : ∃ more, tree = body ++ more := by
  induction n generalizing body p with
  | zero => cases h
  | succ n ih =>
    rcases parseAllLoop_step h with ⟨-, rfl⟩ | ⟨stmt, q, -, -, h⟩
    · exact ⟨[], by simp⟩
    · obtain ⟨more, rfl⟩ := ih h
      exact ⟨stmt :: more, by simp⟩

theorem parseImportsLoop_eq (hbody : ∀ st ∈ body, isImport st = true) (h : parseAllLoop c n body p = .ok (tree, p')) :
    ∃ q, parseImportsLoop c n body p = .ok (Build.parseImports tree, q) := by
  induction n generalizing body p with
  | zero => cases h
  | succ n ih =>
    rw [parseImportsLoop]
    rcases parseAllLoop_step h with ⟨hb, rfl⟩ | ⟨stmt, q, hb, hs, h⟩
    · rw [bind_ok _ hb, Build.parseImports, takeWhile_eq_self_iff.mpr hbody]
      exact ⟨p, rfl⟩
    · rw [bind_ok _ hb, if_pos rfl, bind_ok _ hs]
      by_cases hi : isImport stmt = true
      · rw [if_pos hi]
        refine ih (fun st hst => ?_) h
        rcases mem_append.mp hst with hst | hst
        · exact hbody st hst
        · rwa [mem_singleton.mp hst]
      · -- the loop stops in front of this statement
        obtain ⟨more, rfl⟩ := parseAllLoop_grows h
        rw [if_neg hi, Build.parseImports, append_assoc, takeWhile_append_of_pos hbody]
        simp only [singleton_append, takeWhile_cons, if_neg hi, append_nil]
        exact ⟨q, rfl⟩

end Agreement

section Sets

variable {strconv : Strconv ν} {n : Nat} {path : String} {content : Bytes} {reads : Nat → Nat}
  {tree : List (Statement ν)}

theorem parseImports_eq (h : parseAll strconv n path content reads = .ok tree) :
    parseImports strconv n path content reads = .ok (Build.parseImports tree) := by
  unfold parseAll parseFile at h
  unfold parseImports parseFile
  split at h
  · cases h
  · next tokens _ =>
    split at h
    · cases h
    · next body p hp =>
      cases h
      obtain ⟨q, hq⟩ := parseImportsLoop_eq (by simp) hp
      simp only [hq]

/-- A package that is imported behind another statement is imported in front of
it, too. -/
def ImportedFirst (tree : List (Statement ν)) : Prop :=
  ∀ pkg ∈ extractUserImports (tree.dropWhile isImport), pkg ∈ extractUserImports (tree.takeWhile isImport)

/-- For a file that is accepted the build cache sees the imports that the
builder sees if and only if each of them stands in front of the other
statements. -/
theorem import_lists_agree_iff (h : parseAll strconv n path content reads = .ok tree) :
    ∃ imports, parseImports strconv n path content reads = .ok imports ∧
      ((∀ pkg, pkg ∈ extractUserImports imports ↔ pkg ∈ extractUserImports tree) ↔ ImportedFirst tree) := by
  refine ⟨_, parseImports_eq h, ?_⟩
  have hsplit : extractUserImports tree =
      extractUserImports (tree.takeWhile isImport) ++ extractUserImports (tree.dropWhile isImport) := by
    rw [extractUserImports, extractUserImports, extractUserImports, ← filterMap_append, takeWhile_append_dropWhile]
  rw [Build.parseImports, hsplit]
  constructor
  · intro hall pkg hpkg
    exact (hall pkg).mpr (mem_append_right _ hpkg)
  · intro hfirst pkg
    rw [mem_append]
    exact ⟨.inl, fun h => h.elim id (hfirst pkg)⟩

def noStrconv : Strconv Unit := ⟨fun _ => (), fun _ => none⟩

def wholeFile : Nat → Nat := fun _ => readChunkSize

theorem ok_of_toOption {ε α : Type} {x : Except ε α} {a : α} (h : x.toOption = some a) : x = .ok a := by
  cases x with
  | error e => cases h
  | ok b =>
    cases h
    rfl

def early : Bytes := ascii "using \"a/b\"; class A \x7b \x7d"

theorem import_lists_agree_early : ∃ tree imports, parseAll noStrconv 8 "start.pic" early wholeFile = .ok tree ∧
    parseImports noStrconv 8 "start.pic" early wholeFile = .ok imports ∧ extractUserImports tree = [ascii "a.b"] ∧
      ∀ pkg, pkg ∈ extractUserImports imports ↔ pkg ∈ extractUserImports tree := by
  have hx : (parseAll noStrconv 8 "start.pic" early wholeFile).toOption.map (fun tree =>
      (extractUserImports tree, extractUserImports (tree.dropWhile isImport))) = some ([ascii "a.b"], []) := by
    decide +kernel
  obtain ⟨tree, ht, he⟩ := Option.map_eq_some_iff.mp hx
  rw [Prod.mk.injEq] at he
  obtain ⟨imports, hi, hiff⟩ := import_lists_agree_iff (ok_of_toOption ht)
  refine ⟨tree, imports, ok_of_toOption ht, hi, he.1, hiff.mpr ?_⟩
  rw [ImportedFirst, he.2]
  simp

def late : Bytes := early ++ ascii " using \"c\";"

/-- The import behind the class is missed. -/
theorem late_import_missed : ∃ tree imports, parseAll noStrconv 8 "start.pic" late wholeFile = .ok tree ∧
    parseImports noStrconv 8 "start.pic" late wholeFile = .ok imports ∧
      extractUserImports tree = [ascii "a.b", ascii "c"] ∧ extractUserImports imports = [ascii "a.b"] := by
  have hx : (parseAll noStrconv 8 "start.pic" late wholeFile).toOption.bind (fun tree =>
      (parseImports noStrconv 8 "start.pic" late wholeFile).toOption.map fun imports =>
        (extractUserImports tree, extractUserImports imports)) = some ([ascii "a.b", ascii "c"], [ascii "a.b"]) := by
    decide +kernel
  obtain ⟨tree, ht, he⟩ := Option.bind_eq_some_iff.mp hx
  obtain ⟨imports, hi, he⟩ := Option.map_eq_some_iff.mp he
  rw [Prod.mk.injEq] at he
  exact ⟨tree, imports, ok_of_toOption ht, ok_of_toOption hi, he⟩

end Sets

end Picasso.Build.ImportLists
