import Mathlib.Data.List.Basic

namespace Picasso.Codegen.Arity

open List

section Statements

/-- What an expression is compiled to: a value, a tuple of so many fields, or
nothing for a call that returns nothing. -/
inductive Result
  | value
  | tuple (fields : Nat)
  | void
  deriving DecidableEq

/-- A variable for a value of the right side: that of an expression, or of a
field of its tuple. `nil` stands for a call that returns nothing. -/
inductive Var
  | value (expr : Nat)
  | field (expr i : Nat)
  | nil
  deriving DecidableEq

inductive Reject
  | tupleUnpackFailed (message : String)
  | panic
  deriving DecidableEq

def getField (expr size index : Nat) : Except Reject Var := if index < size then .ok (.field expr index) else .error .panic

def single (expr : Nat) : Result → Var
  | .void => .nil
  | _ => .value expr

def unpack (p : Result × Nat) : Except Reject (List Var) :=
  match p.1 with
  | .tuple size => (List.range size).mapM (getField p.2 size)
  | r => .ok [single p.2 r]

/-- A single expression that gives a tuple is asked for as many fields as there
are targets; several expressions are unpacked and then counted. -/
def processRHSValues (assignedValues : List Result) (expectedCount : Nat) : Except Reject (List Var) :=
  match assignedValues with
  | [.tuple size] => (List.range expectedCount).mapM (getField 0 size)
  | [r] =>
    if expectedCount = 1 then .ok [single 0 r]
    else .error (.tupleUnpackFailed "Cannot assign single non-tuple value to multiple variables")
  | _ => do
    let rhsVars := (← assignedValues.zipIdx.mapM unpack).flatten
    if rhsVars.length ≠ expectedCount then
      .error (.tupleUnpackFailed
        ("Assignment count mismatch: " ++ toString expectedCount ++ " variables, " ++ toString rhsVars.length ++ " values"))
    else .ok rhsVars

/-- A variable is loaded and cast; there is nothing to load from a `nil`. -/
def assignToTarget : Var → Except Reject Var
  | .nil => .error .panic
  | v => .ok v

def assignAll (targets : Nat) (rhsVars : List Var) : Except Reject (List Var) :=
  if rhsVars.length < targets then .error .panic else (rhsVars.take targets).mapM assignToTarget

structure Statement where
  declares : Bool
  targets : Nat
  first : Result
  rest : List Result
  pos : 0 < targets

def Statement.rhs (s : Statement) : List Result := s.first :: s.rest

/-- The values that the targets are given in their order. The parser keeps only
the first value of the declaration of a single variable. -/
def Statement.compile (s : Statement) : Except Reject (List Var) := do
  let assignedValues := if s.declares ∧ s.targets = 1 then [s.first] else s.rhs
  assignAll s.targets (← processRHSValues assignedValues s.targets)

end Statements

open Statement

section Counting

@[simp] def slots (p : Result × Nat) : List Var :=
  match p.1 with
  | .tuple size => (List.range size).map (.field p.2)
  | r => [single p.2 r]

@[simp] def values (p : Result × Nat) : List Var :=
  match p.1 with
  | .void => []
  | _ => slots p

def flattened (rs : List Result) : List Var := rs.zipIdx.flatMap values

/-- The targets are given all values, or there is an error message. -/
def Statement.Right (s : Statement) : Prop :=
  if (flattened s.rhs).length = s.targets then s.compile = .ok (flattened s.rhs)
  else ∃ message, s.compile = .error (.tupleUnpackFailed message)

variable {α : Type} {f : α → Except Reject Var} {g : α → Var} {l : List α}

theorem mapM_ok {β : Type} {f : α → Except Reject β} {g : α → β} (h : ∀ a ∈ l, f a = .ok (g a)) :
    l.mapM f = .ok (l.map g) := by
  induction l with
  | nil => rfl
  | cons a l ih =>
    rw [mapM_cons, h a mem_cons_self, ih fun b hb => h b (mem_cons_of_mem _ hb)]
    rfl

theorem mapM_panic (h : ∀ a ∈ l, f a = .ok (g a) ∨ f a = .error .panic) (hbad : ∃ a ∈ l, f a = .error .panic) :
    l.mapM f = .error .panic := by
  induction l with
  | nil => simp at hbad
  | cons a l ih =>
    rw [mapM_cons]
    rcases h a mem_cons_self with ha | ha
    · obtain ⟨b, hb, hfb⟩ := hbad
      have hb' : b ∈ l := (mem_cons.mp hb).resolve_left fun heq => by rw [heq, ha] at hfb; cases hfb
      rw [ha, ih (fun c hc => h c (mem_cons_of_mem _ hc)) ⟨b, hb', hfb⟩]
      rfl
    · rw [ha]
      rfl

variable {expr size n : Nat} {vs : List Var} {rs : List Result}

theorem getFields_ok (h : n ≤ size) :
    (List.range n).mapM (getField expr size) = .ok ((List.range n).map (.field expr)) :=
  mapM_ok fun i hi => if_pos (by rw [mem_range] at hi; omega)

theorem getFields_panic (h : size < n) : (List.range n).mapM (getField expr size) = .error .panic := by
  refine mapM_panic (g := .field expr) (fun i _ => ?_) ⟨size, mem_range.mpr h, if_neg (Nat.lt_irrefl _)⟩
  rw [getField]
  split
  · exact .inl rfl
  · exact .inr rfl

theorem assignAll_ok (h : .nil ∉ vs) : assignAll vs.length vs = .ok vs := by
  rw [assignAll, if_neg (Nat.lt_irrefl _), take_length]
  refine (mapM_ok (g := id) fun v hv => ?_).trans (by rw [map_id])
  cases v with
  | nil => exact absurd hv h
  | value e => rfl
  | field e i => rfl

theorem assignAll_panic (h : .nil ∈ vs) : assignAll vs.length vs = .error .panic := by
  rw [assignAll, if_neg (Nat.lt_irrefl _), take_length]
  refine mapM_panic (g := id) (fun v _ => ?_) ⟨.nil, h, rfl⟩
  cases v with
  | nil => exact .inr rfl
  | value e => exact .inl rfl
  | field e i => exact .inl rfl

theorem processRHSValues_cons (r r' : Result) (rs : List Result) (n : Nat) :
    processRHSValues (r :: r' :: rs) n =
      if ((r :: r' :: rs).zipIdx.flatMap slots).length ≠ n then
        .error (.tupleUnpackFailed ("Assignment count mismatch: " ++ toString n ++ " variables, " ++
          toString ((r :: r' :: rs).zipIdx.flatMap slots).length ++ " values"))
      else .ok ((r :: r' :: rs).zipIdx.flatMap slots) := by
  have hunpack : (r :: r' :: rs).zipIdx.mapM unpack = .ok ((r :: r' :: rs).zipIdx.map slots) := by
    refine mapM_ok fun p _ => ?_
    rw [unpack, slots]
    split
    · exact getFields_ok (Nat.le_refl _)
    · rfl
  rw [processRHSValues, hunpack]
  · rfl
  · simp
  · simp

theorem flatMap_values {l : List (Result × Nat)} (h : ∀ p ∈ l, p.1 ≠ .void) : l.flatMap values = l.flatMap slots := by
  refine flatMap_congr fun p hp => ?_
  rw [values]
  split
  · next hv => exact absurd hv (h p hp)
  · rfl

theorem nil_notMem_values (p : Result × Nat) : .nil ∉ values p := by
  obtain ⟨r, e⟩ := p
  cases r <;> simp [single]

theorem mem_zipIdx_fst {r : Result} : (∃ p ∈ rs.zipIdx, p.1 = r) ↔ r ∈ rs := by
  rw [← mem_map (f := Prod.fst), zipIdx_map_fst]

def count (rs : List Result) : Nat := (rs.zipIdx.flatMap slots).length

/-- When the count that is made is that of the values, and a `nil` is not taken
for one. -/
def Statement.Counted (s : Statement) : Prop :=
  if s.declares ∧ s.targets = 1 then (s.first = .value ∨ s.first = .tuple 1) ∧ ∀ r ∈ s.rest, r = .void ∨ r = .tuple 0
  else if s.rest = [] then
    match s.first with
    | .value => True
    | .tuple size => size = s.targets
    | .void => s.targets ≠ 1
  else if count s.rhs = s.targets then .void ∉ s.rhs
  else (flattened s.rhs).length ≠ s.targets

theorem values_eq_nil {p : Result × Nat} : values p = [] ↔ p.1 = .void ∨ p.1 = .tuple 0 := by
  obtain ⟨r, e⟩ := p
  cases r with
  | tuple size => simp
  | _ => simp

theorem flatMap_values_eq_nil {k : Nat} : (rs.zipIdx k).flatMap values = [] ↔ ∀ r ∈ rs, r = .void ∨ r = .tuple 0 := by
  induction rs generalizing k with
  | nil => simp
  | cons r rs ih => simp [zipIdx_cons, values_eq_nil, ih, -values]

variable {s : Statement}

theorem right_of_several {r : Result} (hrest : s.rest = r :: rs) (hsingle : ¬ (s.declares ∧ s.targets = 1)) :
    s.Right ↔ if count s.rhs = s.targets then .void ∉ s.rhs else (flattened s.rhs).length ≠ s.targets := by
  have hcompile : s.compile = processRHSValues s.rhs s.targets >>= assignAll s.targets := by
    rw [compile, if_neg hsingle]
  have hrhs : s.rhs = s.first :: r :: rs := by rw [rhs, hrest]
  rw [hrhs, processRHSValues_cons, ← hrhs, ← count] at hcompile
  split
  · next hcount =>
    rw [if_neg (not_not.mpr hcount)] at hcompile
    have hassign : s.compile = assignAll (s.rhs.zipIdx.flatMap slots).length (s.rhs.zipIdx.flatMap slots) := by
      rw [hcompile, ← hcount]
      rfl
    refine ⟨fun hright hvoid => ?_, fun hvoid => ?_⟩
    · obtain ⟨p, hp, hpv⟩ := mem_zipIdx_fst.mpr hvoid
      rw [assignAll_panic (mem_flatMap.mpr ⟨p, hp, by simp [hpv, single]⟩)] at hassign
      rw [Statement.Right, hassign] at hright
      split at hright
      · cases hright
      · obtain ⟨m, hm⟩ := hright
        cases hm
    · have hflat : flattened s.rhs = s.rhs.zipIdx.flatMap slots :=
        flatMap_values fun p hp hpv => hvoid (mem_zipIdx_fst.mp ⟨p, hp, hpv⟩)
      rw [Statement.Right, if_pos (by rw [hflat]; exact hcount), hassign, hflat, assignAll_ok]
      rw [← hflat, flattened, mem_flatMap]
      exact fun ⟨p, _, hp⟩ => nil_notMem_values p hp
  · next hcount =>
    rw [if_pos hcount] at hcompile
    rw [Statement.Right, hcompile]
    split
    · next hlen => simp [hlen, bind, Except.bind]
    · next hlen => exact iff_of_true ⟨_, rfl⟩ hlen

theorem compile_tuple : (processRHSValues [.tuple size] n >>= assignAll n) =
      if n ≤ size then .ok ((List.range n).map (.field 0)) else .error .panic := by
  rw [processRHSValues]
  split
  · next h =>
    rw [getFields_ok h]
    have hvalues : Var.nil ∉ (List.range n).map (.field 0) := by simp
    refine Eq.trans ?_ (assignAll_ok hvalues)
    rw [length_map, length_range]
    rfl
  · next h =>
    rw [getFields_panic (by omega)]
    rfl

/-- A declaration or an assignment gives its targets all values of the right
side, or is refused with a message, just when the values are counted right. -/
theorem right_iff_counted (s : Statement) : s.Right ↔ s.Counted := by
  obtain ⟨declares, targets, first, rest, pos⟩ := s
  rw [Statement.Counted]
  split
  · next hsingle =>
    obtain ⟨rfl, rfl⟩ := hsingle
    have hflat : flattened (first :: rest) = values (first, 0) ++ (rest.zipIdx 1).flatMap values := by
      simp [flattened, zipIdx_cons]
    rw [Statement.Right, rhs, hflat, length_append, ← flatMap_values_eq_nil (k := 1)]
    cases first with
    | value =>
      have hcompile : compile ⟨true, 1, .value, rest, pos⟩ = .ok [.value 0] := rfl
      rw [hcompile]
      cases (rest.zipIdx 1).flatMap values <;> simp [single]
    | tuple size =>
      have hcompile : compile ⟨true, 1, .tuple size, rest, pos⟩ =
          if 1 ≤ size then .ok ((List.range 1).map (.field 0)) else .error .panic := compile_tuple
      rw [hcompile]
      rcases size with - | - | size
      · cases (rest.zipIdx 1).flatMap values <;> simp
      · cases (rest.zipIdx 1).flatMap values <;> simp
      · rw [if_neg (by simp; omega)]
        simp
    | void =>
      have hcompile : compile ⟨true, 1, .void, rest, pos⟩ = .error .panic := rfl
      simp [hcompile]
  · next hsingle =>
    split
    · next hrest =>
      change rest = [] at hrest
      subst hrest
      have hcompile : compile ⟨declares, targets, first, [], pos⟩ =
          processRHSValues [first] targets >>= assignAll targets := by rw [compile, if_neg hsingle, rhs]
      have hflat : flattened [first] = values (first, 0) := by simp [flattened]
      rw [Statement.Right, rhs, hflat, hcompile]
      cases first with
      | tuple size =>
        rw [compile_tuple]
        simp only [values, slots, length_map, length_range]
        split
        · next h => simp [h]
        · next h =>
          split
          · simp [h]
          · simp [h]
      | value =>
        by_cases h : targets = 1
        · simp [h, single, processRHSValues, assignAll, assignToTarget, bind, Except.bind, pure, Except.pure]
        · simp [h, single, processRHSValues, bind, Except.bind, Ne.symm h]
      | void =>
        by_cases h : targets = 1
        · simp [h, single, processRHSValues, assignAll, assignToTarget, bind, Except.bind]
        · simp [h, processRHSValues, bind, Except.bind, Nat.ne_of_lt pos]
    · next hrest =>
      obtain ⟨r, rs, hr⟩ := exists_cons_of_ne_nil hrest
      exact right_of_several hr hsingle

/-- A single tuple of three fields for two variables, and two values for the
declaration of one: a value is dropped. -/
theorem values_dropped : Statement.compile ⟨false, 2, .tuple 3, [], by decide⟩ = .ok [.field 0 0, .field 0 1] ∧
      (flattened [.tuple 3]).length = 3 ∧ Statement.compile ⟨true, 1, .value, [.value], by decide⟩ = .ok [.value 0] ∧
      (flattened [.value, .value]).length = 2 := by
  decide +kernel

end Counting

end Picasso.Codegen.Arity
