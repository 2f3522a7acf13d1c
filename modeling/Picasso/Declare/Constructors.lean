import Picasso.Declare.Members

namespace Picasso.Declare

open Lexing Parsing Lib.Numbering List Function Option

variable {ν α : Type} {st st' : State} {k : Bytes} {cls : ClassDeclaration ν} {mc : MetaClass} {pre slots : List Slot}

section Constructors

/-- The values of the fields as `DefineClass` keeps them: of a declaration of
several fields, each is defined by a statement of its own that has no value. -/
def assignedIn : Statement ν → List (Bytes × Option (Expression ν))
  | .variableDeclaration _ identifier assignedValue _ _ _ => [(identifier, assignedValue)]
  | .variableDeclarations _ identifiers _ _ _ _ => identifiers.map fun identifier => (identifier, none)
  | _ => []

def writtenIn : Statement ν → List (Bytes × Option (Expression ν))
  | .variableDeclarations _ identifiers _ assignedValues _ _ => identifiers.zipIdx.map fun e => (e.1, assignedValues[e.2]?)
  | stmt => assignedIn stmt

/-- What expressions evaluate to, and for each field the cast to its type, the
zero value of its type and whether that type is one of pointers. -/
structure Values (ν α : Type) where
  value : Expression ν → α
  cast : Bytes → α → α
  zero : Bytes → α
  isPointer : Bytes → Bool

inductive Held (α : Type)
  | value (a : α)
  | method (fqFuncName : Bytes)
deriving DecidableEq

def Values.initial (V : Values ν α) (fqVarName : Bytes) : Option (Expression ν) → Held α
  | some e => .value (V.cast fqVarName (V.value e))
  | none => .value (V.zero fqVarName)

def assignedValues (k : Bytes) (body : List (Statement ν)) : List (Bytes × Option (Expression ν)) :=
  (body.flatMap assignedIn).map fun p => (attach k p.1, p.2)

/-- A member that is in `VarAST` is a field, and any other is a method. -/
def content (V : Values ν α) (k : Bytes) (body : List (Statement ν)) (mc : MetaClass) (fqName : Bytes) : Held α :=
  if (mc.varAST.lookup fqName).isSome then V.initial fqName ((assignedValues k body).lookup fqName).join
  else .method fqName

/-- One round of the loop over `FieldIndexMap`. What is not a pointer cannot be
stored at the index of a method: the compiler stops. -/
def initMember (V : Values ν α) (k : Bytes) (body : List (Statement ν)) (mc : MetaClass) (object : Nat → Option (Held α))
    (fqName : Bytes) : Option (Nat → Option (Held α)) := do
  let index ← mc.fieldIndexMap.lookup fqName
  let fieldType ← mc.fields[index]?
  match fieldType with
  | .value _ => some (update object index (some (content V k body mc fqName)))
  | .func .. =>
    if (mc.varAST.lookup fqName).isSome = true ∧ V.isPointer fqName = false then none
    else some (update object index (some (content V k body mc fqName)))

def defineConstructor (V : Values ν α) (k : Bytes) (body : List (Statement ν)) (mc : MetaClass) (order : List Bytes) :
    Option (Nat → Option (Held α)) :=
  order.foldlM (initMember V k body mc) fun _ => none

/-- Each field holds its value, or the zero value if it has none, and each method
is that of the class. -/
structure Initialised (V : Values ν α) (k : Bytes) (body : List (Statement ν)) (mc : MetaClass) (object : Nat → Option (Held α)) :
    Prop where
  fields : ∀ p ∈ body.flatMap writtenIn, ∃ i, mc.fieldIndexMap.lookup (attach k p.1) = some i ∧
    object i = some (V.initial (attach k p.1) p.2)
  methods : ∀ m ∈ methodsOf body, ∃ i, mc.fieldIndexMap.lookup (attach k m.name) = some i ∧
    object i = some (.method (attach k m.name))

/-- No method has the name of a field, and a value in a declaration of several
fields is what its field holds without it. -/
structure Unaffected (V : Values ν α) (k : Bytes) (body : List (Statement ν)) : Prop where
  apart : ∀ m ∈ methodsOf body, ∀ f ∈ fieldsOf body, f.name ≠ m.name
  several : ∀ loc identifiers types values isStatic isInternal,
    .variableDeclarations loc identifiers types values isStatic isInternal ∈ body →
      ∀ (j : Nat) identifier e, identifiers[j]? = some identifier → values[j]? = some e →
        V.cast (attach k identifier) (V.value e) = V.zero (attach k identifier)

end Constructors

section Loop

variable {V : Values ν α} {body : List (Statement ν)} {object object' : Nat → Option (Held α)} {order : List Bytes}
  {fqName : Bytes} {i : Nat}

theorem initMember_eq_some (h : initMember V k body mc object fqName = some object') :
    ∃ i, mc.fieldIndexMap.lookup fqName = some i ∧ object' = update object i (some (content V k body mc fqName)) := by
  obtain ⟨i, hi, h⟩ := bind_eq_some_iff.mp h
  obtain ⟨fieldType, -, h⟩ := bind_eq_some_iff.mp h
  refine ⟨i, hi, ?_⟩
  cases fieldType with
  | value t => exact (some.inj h).symm
  | func ret params =>
    dsimp only at h
    split_ifs at h
    exact (some.inj h).symm

theorem foldlM_initMember_frame (h : order.foldlM (initMember V k body mc) object = some object')
    (hi : ∀ fqName ∈ order, mc.fieldIndexMap.lookup fqName ≠ some i) : object' i = object i := by
  induction order generalizing object with
  | nil =>
    obtain rfl := some.inj h
    rfl
  | cons fqName order ih =>
    obtain ⟨next, hnext, h⟩ := bind_eq_some_iff.mp h
    obtain ⟨j, hj, rfl⟩ := initMember_eq_some hnext
    have hne : i ≠ j := fun heq => hi fqName mem_cons_self (heq ▸ hj)
    exact (ih h fun x hx => hi x (mem_cons_of_mem _ hx)).trans (update_of_ne hne ..)

theorem foldlM_initMember_content {keys : List Bytes} (hindex : LastPlace mc.fieldIndexMap keys) (hnodup : order.Nodup)
    (h : order.foldlM (initMember V k body mc) object = some object') (hmem : fqName ∈ order)
    (hi : mc.fieldIndexMap.lookup fqName = some i) : object' i = some (content V k body mc fqName) := by
  induction order generalizing object with
  | nil => cases hmem
  | cons x order ih =>
    obtain ⟨hx, hnodup⟩ := nodup_cons.mp hnodup
    obtain ⟨next, hnext, h⟩ := bind_eq_some_iff.mp h
    rcases mem_cons.mp hmem with rfl | hmem
    · obtain ⟨j, hj, rfl⟩ := initMember_eq_some hnext
      obtain rfl := some.inj (hi.symm.trans hj)
      rw [foldlM_initMember_frame h fun y hy hyi => hx (hindex.inj hyi hi ▸ hy), update_self]
    · exact ih hnodup h hmem

theorem foldlM_initMember_total (h : ∀ fqName ∈ order, ∃ i fieldType, mc.fieldIndexMap.lookup fqName = some i ∧
      mc.fields[i]? = some fieldType ∧ ((mc.varAST.lookup fqName).isSome = true → ∃ t, fieldType = .value t)) :
    ∃ object', order.foldlM (initMember V k body mc) object = some object' := by
  induction order generalizing object with
  | nil => exact ⟨object, rfl⟩
  | cons fqName order ih =>
    obtain ⟨i, fieldType, hi, hfield, hvar⟩ := h fqName mem_cons_self
    have hnext : initMember V k body mc object fqName = some (update object i (some (content V k body mc fqName))) := by
      rw [initMember, hi, bind_eq_bind, bind_some, hfield, bind_eq_bind, bind_some]
      cases fieldType with
      | value t => rfl
      | func ret params =>
        refine if_neg fun hsome => ?_
        obtain ⟨t, ht⟩ := hvar hsome.1
        cases ht
    rw [foldlM_cons, hnext]
    exact ih fun x hx => h x (mem_cons_of_mem _ hx)

end Loop

section Bodies

variable {V : Values ν α} {body : List (Statement ν)}

theorem assignedIn_names (stmt : Statement ν) : (assignedIn stmt).map Prod.fst = (fieldsIn stmt).map Field.name := by
  cases stmt with
  | variableDeclarations loc identifiers types values isStatic isInternal =>
    simp only [assignedIn, fieldsIn, List.map_map]
    rw [show Field.name ∘ (fun e : Bytes × Nat => (⟨e.1, types[e.2]?.join, isInternal⟩ : Field)) = Prod.fst from rfl,
      zipIdx_map_fst]
    exact map_id _
  | _ => rfl

theorem assignedValues_names : (assignedValues k body).map Prod.fst = (fieldsOf body).map fun f => attach k f.name := by
  have hnames : (body.flatMap assignedIn).map Prod.fst = (fieldsOf body).map Field.name := by
    rw [fieldsOf, map_flatMap, map_flatMap]
    exact congrArg (fun g => body.flatMap g) (funext assignedIn_names)
  calc (assignedValues k body).map Prod.fst
      = ((body.flatMap assignedIn).map Prod.fst).map (attach k) := by
        rw [assignedValues, List.map_map, List.map_map]
        rfl
    _ = (fieldsOf body).map fun f => attach k f.name := by
        rw [hnames, List.map_map]
        rfl

variable {stmt : Statement ν} {p : Bytes × Option (Expression ν)}

theorem assigned_of_written (h : p ∈ writtenIn stmt) : p ∈ assignedIn stmt ∨ (p.1, none) ∈ assignedIn stmt ∧
      ∃ loc identifiers types values isStatic isInternal, ∃ j : Nat,
        stmt = .variableDeclarations loc identifiers types values isStatic isInternal ∧
          identifiers[j]? = some p.1 ∧ values[j]? = p.2 := by
  cases stmt with
  | variableDeclarations loc identifiers types values isStatic isInternal =>
    obtain ⟨⟨identifier, j⟩, he, rfl⟩ := mem_map.mp h
    have hj := mk_mem_zipIdx_iff_getElem?.mp he
    exact .inr ⟨mem_map.mpr ⟨identifier, mem_of_getElem? hj, rfl⟩, loc, identifiers, types, values, isStatic, isInternal,
      j, rfl, hj, rfl⟩
  | _ => exact .inl h

theorem mem_assignedValues {name : Bytes} {a : Option (Expression ν)} (hstmt : stmt ∈ body)
    (h : (name, a) ∈ assignedIn stmt) : (attach k name, a) ∈ assignedValues k body :=
  mem_map.mpr ⟨(name, a), mem_flatMap.mpr ⟨stmt, hstmt, h⟩, rfl⟩

theorem field_of_written (h : p ∈ body.flatMap writtenIn) : ∃ f ∈ fieldsOf body, f.name = p.1 := by
  obtain ⟨stmt, hstmt, hp⟩ := mem_flatMap.mp h
  have hmem : p.1 ∈ (assignedIn stmt).map Prod.fst := by
    rcases assigned_of_written hp with hp | ⟨hp, -⟩ <;> exact mem_map.mpr ⟨_, hp, rfl⟩
  rw [assignedIn_names] at hmem
  obtain ⟨f, hf, hname⟩ := mem_map.mp hmem
  exact ⟨f, mem_flatMap.mpr ⟨stmt, hstmt, hf⟩, hname⟩

end Bodies

section Layouts

variable {V : Values ν α} (h : ClassLayout st k cls mc pre slots)

include h

theorem ClassLayout.assigned_nodup : ((assignedValues k cls.body).map Prod.fst).Nodup := by
  rw [assignedValues_names, show (fun f : Field => attach k f.name) = attach k ∘ Field.name from rfl, ← List.map_map,
    ← fieldSlots_names h.placed.fields]
  exact h.placed.fieldNames.map fun _ _ => attach_inj.mp

theorem ClassLayout.varAST_field {f : Field} (hf : f ∈ fieldsOf cls.body) : (mc.varAST.lookup (attach k f.name)).isSome = true := by
  obtain ⟨s, hs, hslot⟩ := h.fields hf
  exact (h.varAST f.name).mpr ⟨s, hs, hslot.isField, hslot.name⟩

theorem ClassLayout.index_field {f : Field} (hf : f ∈ fieldsOf cls.body) :
    ∃ i, mc.fieldIndexMap.lookup (attach k f.name) = some i := by
  obtain ⟨s, hs, hslot⟩ := h.fields hf
  obtain ⟨i, -, -, hi, -⟩ := h.last_slot hs
  exact ⟨i, hslot.name ▸ hi⟩

theorem ClassLayout.content_field {stmt : Statement ν} {name : Bytes} {a : Option (Expression ν)} (hstmt : stmt ∈ cls.body)
    (ha : (name, a) ∈ assignedIn stmt) : content V k cls.body mc (attach k name) = V.initial (attach k name) a := by
  have hmem : name ∈ (assignedIn stmt).map Prod.fst := mem_map.mpr ⟨_, ha, rfl⟩
  rw [assignedIn_names] at hmem
  obtain ⟨f, hf, rfl⟩ := mem_map.mp hmem
  rw [content, if_pos (h.varAST_field (mem_flatMap.mpr ⟨stmt, hstmt, hf⟩)),
    lookup_of_mem h.assigned_nodup (mem_assignedValues hstmt ha)]
  rfl

theorem ClassLayout.content_method (hapart : ∀ m ∈ methodsOf cls.body, ∀ f ∈ fieldsOf cls.body, f.name ≠ m.name) {m : Method}
    (hm : m ∈ methodsOf cls.body) : content V k cls.body mc (attach k m.name) = .method (attach k m.name) := by
  refine if_neg fun hsome => ?_
  obtain ⟨s, hs, hfield, hname⟩ := (h.varAST m.name).mp hsome
  obtain ⟨f, hf, hfname⟩ := h.field_of_slot hs hfield
  exact hapart m hm f hf (hfname.trans hname)

theorem ClassLayout.constructs (hapart : ∀ m ∈ methodsOf cls.body, ∀ f ∈ fieldsOf cls.body, f.name ≠ m.name) {order : List Bytes}
    (horder : order.Perm mc.fieldIndexMap.keys) : ∃ object, defineConstructor V k cls.body mc order = some object := by
  refine foldlM_initMember_total fun fqName hmem => ?_
  obtain ⟨s, hs, rfl⟩ := mem_map.mp (h.index.mem_iff.mp (horder.mem_iff.mp hmem))
  have hnodup := h.names_nodup hapart
  obtain ⟨i, hi, hfield⟩ := h.slot hnodup hs
  refine ⟨i, s.type, hi, hfield, fun hsome => ?_⟩
  obtain ⟨s', hs', hisField, hname⟩ := (h.varAST s.name).mp hsome
  obtain rfl := inj_on_of_nodup_map hnodup hs' hs hname
  obtain ⟨f, hf, hfname⟩ := h.field_of_slot hs' hisField
  obtain ⟨s, hs, hslot⟩ := h.fields hf
  obtain rfl := inj_on_of_nodup_map hnodup hs hs' (hslot.name.trans hfname)
  obtain ⟨-, t, -, -, ht⟩ := hslot.type
  exact ⟨t, ht⟩

theorem ClassLayout.initialised_iff :
    (∀ order : List Bytes, order.Perm mc.fieldIndexMap.keys → ∃ object, defineConstructor V k cls.body mc order = some object ∧
      Initialised V k cls.body mc object) ↔ Unaffected V k cls.body := by
  have hcontent {order : List Bytes} (horder : order.Perm mc.fieldIndexMap.keys) {object : Nat → Option (Held α)}
      (hobject : defineConstructor V k cls.body mc order = some object) {fqName : Bytes} {i : Nat}
      (hi : mc.fieldIndexMap.lookup fqName = some i) : object i = some (content V k cls.body mc fqName) := by
    have hmem : fqName ∈ mc.fieldIndexMap.keys := by
      rw [← AList.mem_keys, ← AList.lookup_isSome, hi]
      rfl
    exact foldlM_initMember_content h.index (horder.nodup_iff.mpr mc.fieldIndexMap.keys_nodup) hobject (horder.mem_iff.mpr hmem) hi
  constructor
  · intro hall
    obtain ⟨object, hobject, hinit⟩ := hall _ (.refl _)
    refine ⟨fun m hm f hf hname => ?_, fun loc identifiers types values isStatic isInternal hstmt j identifier e hj he => ?_⟩
    · -- the index of the method holds what the field is initialised with
      obtain ⟨i, hi, hheld⟩ := hinit.methods m hm
      rw [hcontent (.refl _) hobject hi, content, if_pos (hname ▸ h.varAST_field hf)] at hheld
      cases hv : ((assignedValues k cls.body).lookup (attach k m.name)).join <;> simp [hv, Values.initial] at hheld
    · obtain ⟨i, hi, hheld⟩ := hinit.fields (identifier, some e) (mem_flatMap.mpr ⟨_, hstmt, mem_map.mpr
        ⟨(identifier, j), mk_mem_zipIdx_iff_getElem?.mpr hj, by rw [he]⟩⟩)
      rw [hcontent (.refl _) hobject hi, h.content_field hstmt (a := none)
        (mem_map.mpr ⟨identifier, mem_of_getElem? hj, rfl⟩)] at hheld
      exact (Held.value.inj (some.inj hheld)).symm
  · rintro ⟨hapart, hseveral⟩ order horder
    obtain ⟨object, hobject⟩ := h.constructs (V := V) hapart horder
    refine ⟨object, hobject, fun p hp => ?_, fun m hm => ?_⟩
    · obtain ⟨f, hf, hname⟩ := field_of_written hp
      obtain ⟨i, hi⟩ := h.index_field hf
      rw [hname] at hi
      obtain ⟨stmt, hstmt, hp⟩ := mem_flatMap.mp hp
      refine ⟨i, hi, (hcontent horder hobject hi).trans (congrArg some ?_)⟩
      rcases assigned_of_written hp with hp | ⟨hnone, loc, identifiers, types, values, isStatic, isInternal, j, rfl, hj, he⟩
      · exact h.content_field hstmt hp
      · rw [h.content_field hstmt hnone]
        cases hv : p.2 with
        | none => rfl
        | some e => exact congrArg Held.value (hseveral _ _ _ _ _ _ hstmt j p.1 e hj (he.trans hv)).symm
    · obtain ⟨s, hs, -, hname⟩ := h.placed.found m hm
      obtain ⟨i, -, -, hi, -⟩ := h.last_slot hs
      rw [hname] at hi
      exact ⟨i, hi, (hcontent horder hobject hi).trans (congrArg some (h.content_method hapart hm))⟩

end Layouts

section Classes

theorem MetaClass.SameLayout.defineConstructor {mc mc' : MetaClass} (h : mc.SameLayout mc') (V : Values ν α)
    (body : List (Statement ν)) : Declare.defineConstructor V k body mc' = Declare.defineConstructor V k body mc := by
  have hinit : initMember V k body mc' = initMember V k body mc := by
    funext object fqName
    simp only [initMember, content, h.fieldIndexMap, h.fields, h.varAST]
  funext order
  rw [Declare.defineConstructor, Declare.defineConstructor, hinit]

/-- The members of a new object are as the class declares them, in whatever order
they are initialised, just when no method has the name of a field and no value of a
declaration of several fields matters. -/
theorem class_initialised_iff (V : Values ν α) {pkg : PackageEntry} {tree : List (Statement ν)} (hwf : st.Wf) (hdot : DotFree tree)
    (h : declare st pkg tree = .ok st') (hc : cls ∈ classDeclarations tree) :
    ∃ mc, st'.classes.lookup (attach pkg.name cls.name) = some mc ∧
      ((∀ order : List Bytes, order.Perm mc.fieldIndexMap.keys → ∃ object,
          defineConstructor V (attach pkg.name cls.name) cls.body mc order = some object ∧
            Initialised V (attach pkg.name cls.name) cls.body mc object) ↔
        Unaffected V (attach pkg.name cls.name) cls.body) := by
  obtain ⟨t, mc, mc', pre, slots, -, hlayout, hmc', hsame⟩ := declare_class hwf hdot h hc
  refine ⟨mc', hmc', ?_⟩
  have hinit (object : Nat → Option (Held α)) : Initialised V (attach pkg.name cls.name) cls.body mc' object ↔
      Initialised V (attach pkg.name cls.name) cls.body mc object := by
    constructor <;> rintro ⟨hfields, hmethods⟩
    · exact ⟨hsame.fieldIndexMap ▸ hfields, hsame.fieldIndexMap ▸ hmethods⟩
    · exact ⟨by rwa [hsame.fieldIndexMap], by rwa [hsame.fieldIndexMap]⟩
  rw [hsame.defineConstructor, hsame.fieldIndexMap]
  simp only [hinit]
  exact hlayout.initialised_iff

def numbers : Values Nat Nat where
  value e :=
    match e with
    | .number _ n => n
    | _ => 0
  cast _ n := n
  zero _ := 0
  isPointer _ := false

def classTree (body : List (Statement Nat)) : List (Statement Nat) := [.classDeclaration nowhere (ascii "P") body [] false]

def single : List (Statement Nat) :=
  [.variableDeclaration nowhere (ascii "x") (some (.number nowhere 5)) (some (named "int")) false false,
    .functionDefinition nowhere [] (ascii "f") [] 0 none false false]

theorem single_initialised :
    ∃ st' mc, declare initial (package "a") (classTree single) = .ok st' ∧ st'.classes.lookup (ascii "a.P") = some mc ∧
      ∀ order : List Bytes, order.Perm mc.fieldIndexMap.keys → ∃ object,
        defineConstructor numbers (ascii "a.P") single mc order = some object ∧
          Initialised numbers (ascii "a.P") single mc object := by
  obtain ⟨st', h⟩ : ∃ st', declare initial (package "a") (classTree single) = .ok st' := exists_of_isOk (by decide +kernel)
  have hdot : DotFree (classTree single) := by
    rw [DotFree]
    decide
  obtain ⟨mc, hmc, hiff⟩ := class_initialised_iff numbers initial_wf hdot h
    (show ⟨ascii "P", single, [], false⟩ ∈ classDeclarations (classTree single) from mem_singleton.mpr rfl)
  exact ⟨st', mc, h, hmc, hiff.mpr ⟨by decide, by simp [single]⟩⟩

/-- `say a: int, b: int = 1, 2`. -/
def several : List (Statement Nat) :=
  [.variableDeclarations nowhere [ascii "a", ascii "b"] [some (named "int"), some (named "int")]
    [.number nowhere 1, .number nowhere 2] false false]

/-- Both fields are 0 when the body of the constructor starts. -/
theorem several_dropped : ((declare initial (package "a") (classTree several)).toOption.bind fun st =>
      (st.classes.lookup (ascii "a.P")).bind fun mc =>
        (defineConstructor numbers (ascii "a.P") several mc [ascii "a.P.a", ascii "a.P.b"]).map fun object =>
          (mc.fieldIndexMap.lookup (ascii "a.P.a"), object 0, mc.fieldIndexMap.lookup (ascii "a.P.b"), object 1)) =
        some (some 0, some (.value 0), some 1, some (.value 0)) ∧
      (several.flatMap writtenIn).map (fun p => numbers.initial (attach (ascii "a.P") p.1) p.2) = [.value 1, .value 2] := by
  decide +kernel

end Classes

end Picasso.Declare
