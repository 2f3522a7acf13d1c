import Picasso.Arrays.Append
import Picasso.Lib.Transition

namespace Picasso.Arrays.Headers

open Lib.Memory Lib.Stateful Lib.Transition Heap Operations Allocation
open List hiding length
open Alloc.Allocator (payloadSize)

section System

def nodes (m : Nat → UInt8) : List Nat → Nat → List Nat
  | [], _ => []
  | d :: ds, a => a :: (subArrays m a d ds).flatMap (nodes m ds)

structure Sys where
  heap : State
  arrays : List Nat

inductive Act
  | create (elementSize : Int) (args : List Int)
  | getBytes (fmt : Nat)
  | append (arr val : Nat)
  | shape (arr : Nat)

def Sys.after {α : Type} (σ : Sys) (made : α → State → List Nat) : Except Stop (α × State) → Option Sys
  | .ok (a, s) => some ⟨s, made a s ++ σ.arrays⟩
  | .error _ => none

/-- `append` is compiled for the rank and the element size of the array. -/
def step (A : Allocator) (σ : Sys) : Act → Option Sys
  | .create elementSize args =>
    σ.after (fun a s => nodes s.mem (args.map Int.toNat) a) (allocArray A elementSize args σ.heap)
  | .getBytes fmt => σ.after (fun a _ => [a]) (stringsGetBytes A fmt σ.heap)
  | .append arr val =>
    if arr ∈ σ.arrays then
      σ.after (fun _ _ => [])
        (append A (rank σ.heap.mem arr).toNat (elemSize σ.heap.mem arr).toNat arr val σ.heap)
    else none
  | .shape arr => if arr ∈ σ.arrays then σ.after (fun a _ => [a]) (loadShapeArray A arr σ.heap) else none

/-- The heap may hold anything when the first array is made. -/
def machine (A : Allocator) : Machine Sys Act := ⟨fun σ => σ.heap.Valid ∧ σ.arrays = [], step A⟩

/-- The length is within the capacity, the shape has a readable word for each
dimension, the first of which is the length, and the data has room for the
capacity. -/
def Coherent (s : State) (a : Nat) : Prop :=
  s.holds a SIZEOF_ARRAY ∧ 0 ≤ length s.mem a ∧ length s.mem a ≤ capacity s.mem a ∧
    0 < rank s.mem a ∧ s.holds (shapePtr s.mem a) (8 * (rank s.mem a).toNat) ∧
    signed 8 (load s.mem 8 (shapePtr s.mem a)) = length s.mem a ∧
    s.holds (dataPtr s.mem a) ((capacity s.mem a).toNat * (if 1 < rank s.mem a then 8 else (elemSize s.mem a).toNat))

instance (s : State) (a : Nat) : Decidable (Coherent s a) := inferInstanceAs (Decidable (_ ∧ _))

/-- An array is made with positive dimensions, and no size of it wraps around.
Neither `get_bytes` nor `append` is called. -/
def Safe (_ : Sys) : Act → Prop
  | .create elementSize args =>
    0 < elementSize ∧ elementSize < 2 ^ 31 ∧ (∀ d ∈ args, 0 < d ∧ d < 2 ^ 63) ∧ Fits elementSize.toNat (args.map Int.toNat)
  | .getBytes _ => False
  | .append _ _ => False
  | .shape _ => True

instance decidableFits (es : Nat) : (dims : List Nat) → Decidable (Fits es dims)
  | [] => inferInstanceAs (Decidable True)
  | _ :: ds =>
    have := decidableFits es ds
    inferInstanceAs (Decidable (_ ∧ _ ∧ Fits es ds))

instance (σ : Sys) : (act : Act) → Decidable (Safe σ act)
  | .create _ _ => inferInstanceAs (Decidable (_ ∧ _ ∧ _ ∧ _))
  | .getBytes _ => inferInstanceAs (Decidable False)
  | .append _ _ => inferInstanceAs (Decidable False)
  | .shape _ => inferInstanceAs (Decidable True)

end System

section Coherence

variable {s t : State} {a es : Nat} {new : List Block}

theorem Coherent.grows (h : Coherent s a) (hg : Grows s t new) : Coherent t a := by
  obtain ⟨hstruct, hlen, hcap, hrank, hshape, hfirst, hdata⟩ := h
  have hm := hg.agree hstruct
  obtain ⟨elen, erank, ecap, eelem⟩ := numbers_congr fun _ _ _ hk => word_congr hm hk
  have hsize : 8 ≤ 8 * (rank s.mem a).toNat := Nat.le_mul_of_pos_right 8 (Int.pos_iff_toNat_pos.mp hrank)
  have hword : load t.mem 8 (shapePtr s.mem a) = load s.mem 8 (shapePtr s.mem a) :=
    (load_congr ((hg.agree hshape).mono (le_refl _) (Nat.add_le_add_left hsize _))).symm
  unfold Coherent
  rw [elen, erank, ecap, eelem, shapePtr_congr hm, dataPtr_congr hm, hword]
  exact ⟨hg.holds hstruct, hlen, hcap, hrank, hg.holds hshape, hfirst, hg.holds hdata⟩

theorem coherent_of_header {d : Nat} {ds : List Nat} (h : Header s.mem es d ds a) (hd : d < 2 ^ 63)
    (hstruct : s.holds a (SIZEOF_ARRAY + (ds.length + 1) * 8)) (hdata : s.holds (dataPtr s.mem a) (dataSize es d ds)) :
    Coherent s a := by
  obtain ⟨b, hb, ha, hn⟩ := exists_of_holds hstruct
  have hrank : (rank s.mem a).toNat = ds.length + 1 := by rw [h.fields.rank, Int.toNat_natCast]
  have hslot : (if 1 < rank s.mem a then 8 else (elemSize s.mem a).toNat) = if ds = [] then es else 8 := by
    rw [h.fields.rank, h.fields.elemSize]
    cases ds with
    | nil => rfl
    | cons d' ds => rw [if_pos (by rw [length_cons]; omega), if_neg (cons_ne_nil d' ds)]
  have hfirst : load s.mem 8 (shapePtr s.mem a) = d := by
    have hwords := h.shape
    rw [cells_cons] at hwords
    exact (List.cons.inj hwords).1
  unfold Coherent
  rw [hrank, hslot, hfirst, h.fields.length, h.fields.capacity, h.fields.rank, h.shapePtr, Int.toNat_natCast]
  refine ⟨holds_of_mem hb ha (by omega), by omega, Int.le_refl _, by omega, holds_of_mem hb (by omega) (by omega),
    signed_natCast (by omega) hd, hdata⟩

theorem coherent_of_jagged {dims : List Nat} (h : Jagged s.mem es dims a) (hfit : Fits es dims)
    (hdims : ∀ d ∈ dims, d < 2 ^ 63) (hlive : ∀ b ∈ blocks s.mem es dims a, b ∈ s.live) :
    ∀ c ∈ nodes s.mem dims a, Coherent s c := by
  induction dims generalizing a with
  | nil => exact fun c hc => absurd hc not_mem_nil
  | cons d ds ih =>
    obtain ⟨hheader, -, -, hsub⟩ := h
    obtain ⟨hstruct, hdata, hrest⟩ := hfit
    intro c hc
    rcases mem_cons.mp hc with rfl | hc
    · apply coherent_of_header hheader (hdims d (mem_cons_self ..))
      · exact holds_of_mem (hlive _ (mem_cons_self ..)) (le_refl c) (Nat.add_le_add_left (le_payloadSize hstruct) c)
      · exact holds_of_mem (hlive _ (mem_cons_of_mem _ (mem_cons_self ..))) (le_refl _)
          (Nat.add_le_add_left (le_payloadSize hdata) _)
    · obtain ⟨b, hb, hc⟩ := mem_flatMap.mp hc
      refine ih (hsub b hb) hrest (fun d hd => hdims d (mem_cons_of_mem _ hd)) (fun e he => hlive e ?_) c hc
      exact mem_cons_of_mem _ (mem_cons_of_mem _ (mem_flatMap.mpr ⟨b, hb, he⟩))

end Coherence

section Steps

variable {A : Allocator} {s : State} {arr : Nat}

def shaped (m : Nat → UInt8) (a q r : Nat) : Nat → UInt8 := store (store m 8 a q) 8 (a + SIZEOF_ARRAY) r

variable {m : Nat → UInt8} {q r : Nat} {σ σ' : Sys} {args : List Int}

theorem header_shaped {a : Nat} (h : Header m 8 r [] a) (hr : r < 2 ^ 63) : Header (shaped m a q r) 8 r [] a := by
  have hstruct : Agree (store m 8 a q) (shaped m a q r) a SIZEOF_ARRAY :=
    (agree_store (.inr (le_refl _))).symm
  have hptr : shapePtr (shaped m a q r) a = a + SIZEOF_ARRAY := by
    rw [shapePtr_congr hstruct, shapePtr, load_store_apart (by omega)]
    exact h.shapePtr
  refine ⟨(h.fields.setData q).congr hstruct, hptr, ?_⟩
  rw [hptr, length_nil, Nat.zero_add, cells_cons, shaped, load_store_self (by omega)]
  rfl

theorem agree_shaped {a b n : Nat} (h : a + (SIZEOF_ARRAY + 8) ≤ b ∨ b + n ≤ a) : Agree (shaped m a q r) m b n :=
  .trans (agree_store (by omega)) (agree_store (by omega))

theorem dataPtr_shaped (m : Nat → UInt8) (a r : Nat) (hq : q < 2 ^ 64) : dataPtr (shaped m a q r) a = q := by
  unfold shaped dataPtr SIZEOF_ARRAY
  rw [load_store_apart, load_store_self] <;> omega

theorem loadShapeArray_spec (hs : s.Valid) (hstruct : s.holds arr SIZEOF_ARRAY) (hr : rank s.mem arr = r) (hpos : 0 < r)
    (hshape : s.holds (shapePtr s.mem arr) (8 * r)) :
    Ends exhausted (fun a t => ∃ new, Grows s t new ∧ ⟨a, payloadSize (SIZEOF_ARRAY + 8)⟩ ∈ new ∧ Header t.mem 8 r [] a ∧
      dataPtr t.mem a = shapePtr s.mem arr) (loadShapeArray A arr s) := by
  obtain ⟨b, hb, hle, hend⟩ := exists_of_holds hshape
  obtain ⟨c, hc, hcle, hcend⟩ := exists_of_holds hstruct
  have hbound := (hs.bounds b hb).2.2
  unfold SIZEOF_ARRAY at hcend
  have hread : readInt 8 (arr + 24) s = .ok ((r : Int), s) := by
    rw [readInt_eq (holds_of_mem hc (by omega) (by omega)), ← hr]
    rfl
  have hfit : Fits 8 [r] := ⟨by decide, by rw [dataSize, if_pos rfl]; omega, trivial⟩
  have hdims : ∀ d ∈ [r], 0 < d ∧ d < 2 ^ 63 := by
    intro d hd
    rw [mem_singleton.mp hd]
    omega
  rw [loadShapeArray, run_bind_ok hread]
  apply ends_bind
  refine (allocArray_ends hs (by omega) (by omega) (cons_ne_nil _ _) hdims hfit).mono ?_
  rintro a t ⟨new, hg, ⟨hheader, -⟩, hperm⟩
  have hnew : ⟨a, payloadSize (SIZEOF_ARRAY + 8)⟩ ∈ new := hperm.mem_iff.mp (mem_cons_self ..)
  have hsize : SIZEOF_ARRAY + 8 ≤ payloadSize (SIZEOF_ARRAY + 8) := le_payloadSize (by decide)
  have hfield (k : Nat) (hk : k + 8 ≤ SIZEOF_ARRAY + 8) : t.holds (a + k) 8 :=
    holds_of_mem (hg.mem_new hnew) (Nat.le_add_right a k) (by dsimp only; omega)
  have hptr : read 8 (arr + 8) t = .ok (shapePtr s.mem arr, t) := by
    rw [read_eq (hg.holds (holds_of_mem hc (by omega) (by omega))), ← shapePtr_congr (hg.agree hstruct)]
    rfl
  have hwrite : write 8 a (shapePtr s.mem arr) t = .ok ((), t.put (store t.mem 8 a (shapePtr s.mem arr))) :=
    write_put (hfield 0 (by omega)) t.mem _
  have hnewptr : load (store t.mem 8 a (shapePtr s.mem arr)) 8 (a + 8) = a + SIZEOF_ARRAY := by
    rw [load_store_apart (by omega)]
    exact hheader.shapePtr
  rw [run_bind_ok hptr, run_bind_ok hwrite, run_bind_ok (read_put (hfield 8 (by decide)) _), hnewptr,
    run_bind_ok (writeInt_put (hfield SIZEOF_ARRAY (le_refl _)) _ _), word_natCast (by omega)]
  change Ends _ _ (.ok (a, t.put (shaped t.mem a (shapePtr s.mem arr) r)))
  refine .ok ⟨new, hg.put ?_, hnew, header_shaped hheader (by omega), dataPtr_shaped _ _ _ (by omega)⟩
  intro b' hb'
  apply (agree_shaped ?_).symm
  rcases hg.apart hb' hnew with hapart | hapart <;> dsimp only at hapart <;> omega

theorem loadShapeArray_ends (hs : s.Valid) (h : Coherent s arr) :
    Ends exhausted (fun a t => ∃ new, Grows s t new ∧ Coherent t a) (loadShapeArray A arr s) := by
  obtain ⟨hstruct, -, -, hrank, hshape, -, -⟩ := h
  obtain ⟨r, hr⟩ := Int.eq_ofNat_of_zero_le (Int.le_of_lt hrank)
  rw [hr, Int.toNat_natCast] at hshape
  obtain ⟨b, hb, hle, hend⟩ := exists_of_holds hshape
  have hbound := (hs.bounds b hb).2.2
  refine (loadShapeArray_spec hs hstruct hr (by omega) hshape).mono ?_
  rintro a t ⟨new, hg, hnew, hheader, hptr⟩
  have hown : t.holds a (SIZEOF_ARRAY + 8) :=
    holds_of_mem (hg.mem_new hnew) (le_refl a) (Nat.add_le_add_left (le_payloadSize (by decide)) a)
  refine ⟨new, hg, coherent_of_header hheader (by omega) hown ?_⟩
  rw [hptr, dataSize, if_pos rfl, Nat.mul_comm]
  exact hg.holds hshape

theorem exists_of_after {α : Type} {made : α → State → List Nat} {r : Except Stop (α × State)}
    (h : σ.after made r = some σ') : ∃ a t, r = .ok (a, t) ∧ σ' = ⟨t, made a t ++ σ.arrays⟩ := by
  cases r with
  | error e => cases h
  | ok p => exact ⟨p.1, p.2, rfl, (Option.some.inj h).symm⟩

def Inv (σ : Sys) : Prop := σ.heap.Valid ∧ ∀ a ∈ σ.arrays, Coherent σ.heap a

theorem Inv.grows {t : State} {new : List Block} {arrays : List Nat} (h : Inv σ) (hg : Grows σ.heap t new)
    (hnew : ∀ a ∈ arrays, Coherent t a) : Inv ⟨t, arrays ++ σ.arrays⟩ := by
  refine ⟨hg.valid, fun a ha => ?_⟩
  rcases mem_append.mp ha with ha | ha
  · exact hnew a ha
  · exact (h.2 a ha).grows hg

theorem toNat_dims (h : ∀ d ∈ args, 0 < d ∧ d < 2 ^ 63) :
    (∀ d ∈ args.map Int.toNat, 0 < d ∧ d < 2 ^ 63) ∧ (args.map Int.toNat).map Int.ofNat = args := by
  constructor
  · intro d hd
    obtain ⟨i, hi, rfl⟩ := mem_map.mp hd
    have := h i hi
    omega
  · rw [map_map]
    exact (map_congr_left fun d hd => Int.toNat_of_nonneg (Int.le_of_lt (h d hd).1)).trans (map_id args)

theorem inv_create {t : State} {es : Int} {a : Nat} (h : Inv σ) (hok : Safe σ (.create es args))
    (hrun : allocArray A es args σ.heap = .ok (a, t)) : Inv ⟨t, nodes t.mem (args.map Int.toNat) a ++ σ.arrays⟩ := by
  obtain ⟨hes, hint, hargs, hfit⟩ := hok
  by_cases hne : args = []
  · subst hne
    cases hrun
    exact h
  · obtain ⟨hpos, hback⟩ := toNat_dims hargs
    have hends := allocArray_ends (A := A) h.1 (by omega) (by omega) (by simpa using hne) hpos hfit
    rw [hback, Int.toNat_of_nonneg (by omega), hrun] at hends
    obtain ⟨new, hg, hjag, hperm⟩ := hends.of_ok
    exact h.grows hg (coherent_of_jagged hjag hfit (fun d hd => (hpos d hd).2) fun b hb => hg.mem_new (hperm.mem_iff.mp hb))

theorem step_inv {act : Act} (h : Inv σ) (hok : Safe σ act) (hstep : step A σ act = some σ') : Inv σ' := by
  cases act with
  | create es args =>
    obtain ⟨a, t, hrun, rfl⟩ := exists_of_after hstep
    exact inv_create h hok hrun
  | getBytes fmt | append arr val => exact absurd hok not_false
  | shape arr =>
    rw [step] at hstep
    split at hstep
    · next harr =>
      obtain ⟨a, t, hrun, rfl⟩ := exists_of_after hstep
      have hends := loadShapeArray_ends (A := A) h.1 (h.2 arr harr)
      rw [hrun] at hends
      obtain ⟨new, hg, hnew⟩ := hends.of_ok
      exact h.grows hg (forall_mem_singleton.mpr hnew)
    · cases hstep

end Steps

/-- As long as arrays are made by `alloc_array` with dimensions that do not
wrap around and by `array.shape` only, every header is coherent. -/
theorem header_coherent (A : Allocator) (σ : Sys) (h : Run (machine A) Safe σ) : ∀ a ∈ σ.arrays, Coherent σ.heap a := by
  refine (h.invariant (I := Inv) ?_ fun _ _ _ => step_inv).2
  rintro σ ⟨hvalid, hnil⟩
  refine ⟨hvalid, fun a ha => ?_⟩
  rw [hnil] at ha
  exact absurd ha not_mem_nil

def fresh : Sys := ⟨start, []⟩

def withString : Sys := ⟨⟨store (store (fun _ => 97) 8 16 32) 8 24 48, [⟨32, 48⟩, ⟨16, 16⟩], 0⟩, []⟩

theorem header_coherent_matrix :
    ∃ σ, Run (machine bump) Safe σ ∧ σ.arrays = [368, 48, 144, 240] ∧ ∀ a ∈ σ.arrays, Coherent σ.heap a := by
  have harrays : (exec (machine bump) Safe [.create 4 [2, 3], .shape 144] fresh).map (·.arrays) =
      some [368, 48, 144, 240] := by decide +kernel
  obtain ⟨σ, hσ, hmade⟩ := Option.map_eq_some_iff.mp harrays
  have hrun : Run (machine bump) Safe σ := exec_run (.init ⟨start_valid, rfl⟩) hσ
  exact ⟨σ, hrun, hmade, header_coherent bump σ hrun⟩

theorem exists_reachable (trace : List Act) (σ : Sys) {p : Sys → Nat → Prop} [∀ σ a, Decidable (p σ a)]
    (hσ : (machine bump).init σ)
    (h : (walk (machine bump) trace σ).any (fun σ => σ.arrays.any fun a => p σ a) = true) :
    ∃ σ, Reachable (machine bump) σ ∧ ∃ a ∈ σ.arrays, p σ a := by
  cases hexec : walk (machine bump) trace σ with
  | none =>
    rw [hexec] at h
    cases h
  | some σ' =>
    rw [hexec] at h
    obtain ⟨a, ha, hp⟩ := any_eq_true.mp h
    exact ⟨σ', exec_run (.init hσ) hexec, a, ha, of_decide_eq_true hp⟩

/-- An `append` does not set the first dimension, a product that wraps around
gets no data, and `get_bytes` does not set the capacity. -/
theorem incoherent_headers :
    (∃ σ, Reachable (machine bump) σ ∧ ∃ a ∈ σ.arrays, ¬Coherent σ.heap a ∧ length σ.heap.mem a = 2 ∧
      signed 8 (load σ.heap.mem 8 (shapePtr σ.heap.mem a)) = 1) ∧
    (∃ σ, Reachable (machine bump) σ ∧ ∃ a ∈ σ.arrays, ¬Coherent σ.heap a ∧ length σ.heap.mem a = 2 ^ 61 ∧
      dataPtr σ.heap.mem a = 0) ∧
    (∃ σ, Reachable (machine bump) σ ∧ ∃ a ∈ σ.arrays, ¬Coherent σ.heap a ∧ length σ.heap.mem a = 48 ∧
      capacity σ.heap.mem a = -1) := by
  have hstring : withString.heap.Valid := ⟨pairwise_pair.mpr (.inr (le_refl 32)), by decide⟩
  refine ⟨?_, ?_, ?_⟩
  · exact exists_reachable [.create 4 [1], .append 48 7] fresh ⟨start_valid, rfl⟩ (by decide +kernel)
  · exact exists_reachable [.create 8 [2 ^ 61]] fresh ⟨start_valid, rfl⟩ (by decide +kernel)
  · exact exists_reachable [.getBytes 16] withString ⟨hstring, rfl⟩ (by decide +kernel)

end Picasso.Arrays.Headers
