import Picasso.Arrays.Allocation

namespace Picasso.Arrays.Append

open Lib.Memory Lib.Stateful Heap Operations
open List hiding length
open Alloc.Allocator (payloadSize)

variable {A : Allocator} {s t : State} {a n r cap es k q : Nat} {data : Block} {xs : List Nat}

section Layout

def slot (r es : Nat) : Nat := if 1 < r then 8 else es

/-- An array with a block for its struct and another one for its data, which
has room for its capacity. The first of its elements are `xs`. -/
structure Layout (s : State) (a r es k : Nat) (data : Block) (n cap : Nat) (xs : List Nat) : Prop where
  valid : s.Valid
  struct_mem : ⟨a, k⟩ ∈ s.live
  data_mem : data ∈ s.live
  ne : data ≠ ⟨a, k⟩
  size : SIZEOF_ARRAY ≤ k
  dataPtr : dataPtr s.mem a = data.addr
  fields : Fields s.mem a n r cap es
  room : cap * slot r es ≤ data.size
  elements : cells s.mem (slot r es) data.addr xs.length = xs

def IsArray (s : State) (a r es : Nat) (xs : List Nat) : Prop :=
  ∃ k data cap, Layout s a r es k data xs.length cap xs ∧ xs.length ≤ cap

def appendAll (A : Allocator) (r es a : Nat) : List Nat → Op Unit
  | [] => pure ()
  | v :: vs => do
      append A r es a v
      appendAll A r es a vs

theorem Layout.holds (h : Layout s a r es k data n cap xs) (i w : Nat) (hi : i + w ≤ 48) : s.holds (a + i) w := by
  have hsize : 48 ≤ k := h.size
  exact holds_of_mem h.struct_mem (Nat.le_add_right ..) (by dsimp only; omega)

theorem Layout.apart (h : Layout s a r es k data n cap xs) : data.addr + data.size ≤ a ∨ a + k ≤ data.addr :=
  h.valid.apart_of_ne h.data_mem h.struct_mem h.ne

theorem Layout.cap_bound (h : Layout s a r es k data n cap xs) : cap * slot r es ≤ 2 ^ 47 := by
  have := (h.valid.bounds data h.data_mem).2.2
  have := h.room
  omega

end Layout

section Growth

def newCapacity (cap : Nat) : Nat := if 0 < cap then cap * 2 else 1

theorem newCapacity_eq (hcap : cap < 2 ^ 62) :
    (if (0 : Int) < cap then ((cap : Int) * 2).bmod (2 ^ 64) else 1) = (newCapacity cap : Int) := by
  unfold newCapacity
  split
  · rw [if_pos (by omega), Int.bmod_eq_of_le_mul_two (by omega) (by omega)]
    push_cast
    rfl
  · rw [if_neg (by omega)]
    rfl

def widened (s : State) (a n c : Nat) : State := s.put (store (store s.mem 8 (a + 16) (n + 1)) 8 (a + 32) c)

def grown (A : Allocator) (s : State) (a n c es : Nat) (data : Block) (q : Nat) : State :=
  let g := (widened s a n c).grant A q (payloadSize (c * es))
  (g.free data.addr).put (store (copy g.mem q data.addr (n * es)) 8 a q)

variable {c : Nat}

section Granted

variable (h : Layout s a r es k data n cap xs) (hplace : A.place s.calls s.live (payloadSize (c * es)) = some q)

include h hplace

theorem Layout.granted :
    Grows (widened s a n c) ((widened s a n c).grant A q (payloadSize (c * es))) [⟨q, payloadSize (c * es)⟩] ∧
      ((widened s a n c).grant A q (payloadSize (c * es))).holds a 8 ∧
      load ((widened s a n c).grant A q (payloadSize (c * es))).mem 8 a = data.addr ∧
      (q + payloadSize (c * es) ≤ a ∨ a + k ≤ q) := by
  have hold : (widened s a n c).holds a 8 := h.holds 0 8 (by omega)
  have hg : Grows (widened s a n c) _ _ := grows_grant (h.valid.put _) (payloadSize_pos _) hplace
  refine ⟨hg, hg.holds hold, ?_, hg.apart h.struct_mem (mem_cons_self ..)⟩
  rw [← load_congr (hg.agree hold), widened, mem_put, load_store_apart (by omega), load_store_apart (by omega)]
  exact h.dataPtr

variable (hsize : c * es + 15 < 2 ^ 64) (hle : n ≤ c)

include hsize hle

theorem Layout.cells_grown (hslot : slot r es = es) (hxs : xs.length = n) (hcap : n ≤ cap) :
    cells (Append.grown A s a n c es data q).mem (slot r es) q xs.length = xs := by
  obtain ⟨hg, -, -, hapart⟩ := h.granted hplace
  have hbytes := Nat.mul_le_mul_right es hle
  have hsize' := le_payloadSize hsize
  have hk : 48 ≤ k := h.size
  have hnew : Agree (copy ((widened s a n c).grant A q (payloadSize (c * es))).mem q data.addr (n * es))
      (Append.grown A s a n c es data q).mem q (es * n) := by
    refine Agree.symm (agree_store ?_)
    rw [Nat.mul_comm es]
    omega
  have hdat : Agree s.mem ((widened s a n c).grant A q (payloadSize (c * es))).mem data.addr data.size := by
    refine Agree.trans (Agree.symm ?_) (hg.kept data h.data_mem)
    have hda := h.apart
    exact Agree.trans (agree_store (by omega)) (agree_store (by omega))
  have hroom := h.room
  have helems := h.elements
  rw [hslot, hxs] at helems
  rw [hslot] at hroom
  rw [hslot, hxs, cells_congr hnew, cells_copy, cells_congr (hdat.mono (le_refl _) ?_), helems]
  have := Nat.mul_le_mul_right es hcap
  rw [Nat.mul_comm es]
  omega

variable (hn : n < 2 ^ 62) (hc : c < 2 ^ 63)

include hn hc

omit hplace in
theorem growArray_start (hint : es < 2 ^ 31) :
    growArray A a ((n + 1 : Nat) : Int) c (s.put (store s.mem 8 (a + 16) (n + 1))) =
      (do
        let q ← allocate A (c * es)
        assert (((c : Int) * es).bmod (2 ^ 64) ≠ 0)
        memcpy q (← read 8 a) (n * es)
        release (← read 8 a)
        write 8 a q : Op Unit) (widened s a n c) := by
  have helem := ((h.fields.setLength (k := n + 1) (by omega)).setCapacity hc).elemSize
  unfold elemSize at helem
  have hread : readInt 4 (a + 40) (widened s a n c) = .ok ((es : Int), widened s a n c) := by
    rw [widened, readInt_put (h.holds 40 4 (by omega)), helem]
  have hsizes : c * word 8 (es : Int) % 2 ^ 64 = c * es := by
    rw [word_natCast (by omega), Nat.mod_eq_of_lt (by omega)]
  have hlen : word 8 ((((n + 1 : Nat) : Int) - 1) * es) = n * es := by
    rw [show ((n + 1 : Nat) : Int) - 1 = (n : Int) by omega, ← Int.natCast_mul]
    exact word_natCast (by have := Nat.mul_le_mul_right es hle; omega)
  rw [growArray, run_bind_ok (writeInt_put (h.holds 32 8 (by omega)) _ _), word_natCast (by omega), ← widened,
    run_bind_ok hread, hsizes, hlen]

theorem growArray_copy (hes : 0 < es) (hint : es < 2 ^ 31) (hpos : 0 < c) :
    growArray A a ((n + 1 : Nat) : Int) c (s.put (store s.mem 8 (a + 16) (n + 1))) =
      (do
        memcpy q data.addr (n * es)
        release (← read 8 a)
        write 8 a q : Op Unit) ((widened s a n c).grant A q (payloadSize (c * es))) := by
  have hslots : 0 < c * es := Nat.mul_pos hpos hes
  have hprod : ((c : Int) * es).bmod (2 ^ 64) ≠ 0 := by
    intro he
    have hmod := Int.bmod_emod (x := (c : Int) * es) (m := 2 ^ 64)
    rw [he, ← Int.natCast_mul] at hmod
    omega
  obtain ⟨hg, hold, hptr, -⟩ := h.granted hplace
  rw [growArray_start h hsize hle hn hc hint, run_bind_ok (allocate_eq (s := widened s a n c) hslots hplace),
    run_bind_ok (assert_eq hprod), run_bind_ok (read_eq hold), hptr]

theorem growArray_eq (hes : 0 < es) (hint : es < 2 ^ 31) (hpos : 0 < c) (hsrc : n * es ≤ data.size) :
    growArray A a ((n + 1 : Nat) : Int) c (s.put (store s.mem 8 (a + 16) (n + 1))) = .ok ((), grown A s a n c es data q) := by
  obtain ⟨hg, hold, hptr, hapart⟩ := h.granted hplace
  have hbytes := Nat.mul_le_mul_right es hle
  have hsize' := le_payloadSize hsize
  have hk : 48 ≤ k := h.size
  have hdata := hg.mem h.data_mem
  rw [growArray_copy h hplace hsize hle hn hc hes hint hpos, grown]
  generalize (widened s a n c).grant A q (payloadSize (c * es)) = g at *
  have hdst : g.holds q (n * es) :=
    holds_of_mem (hg.mem_new (mem_cons_self ..)) (le_refl q) (Nat.add_le_add_left (le_trans hbytes hsize') q)
  have hsrc' : g.holds data.addr (n * es) := holds_of_mem hdata (le_refl _) (Nat.add_le_add_left hsrc _)
  have hcopy : memcpy q data.addr (n * es) g = .ok ((), g.put (copy g.mem q data.addr (n * es))) :=
    memcpy_put hdst hsrc' g.mem
  have hread : load (copy g.mem q data.addr (n * es)) 8 a = data.addr := by
    rw [load_copy_apart (by omega), hptr]
  have hwrite : (g.free data.addr).holds a 8 := by
    exact holds_of_mem ((mem_free hg.valid hdata).mpr ⟨hg.mem h.struct_mem, h.ne.symm⟩) (le_refl a) (by dsimp only; omega)
  have hrelease : release data.addr (g.put (copy g.mem q data.addr (n * es))) =
      .ok ((), (g.put (copy g.mem q data.addr (n * es))).free data.addr) := release_eq (hg.valid.put _) hdata
  rw [run_bind_ok hcopy, run_bind_ok (read_put hold _), hread, run_bind_ok hrelease]
  exact write_put hwrite _ q

theorem Layout.grown {ys : List Nat} (hroom : c * slot r es ≤ payloadSize (c * es))
    (helems : cells (grown A s a n c es data q).mem (slot r es) q ys.length = ys) :
    Layout (grown A s a n c es data q) a r es k ⟨q, payloadSize (c * es)⟩ (n + 1) c ys := by
  obtain ⟨hg, -, -, hapart⟩ := h.granted hplace
  have hdata := hg.mem h.data_mem
  have hq := hg.mem_new (mem_cons_self ..)
  have hbytes := Nat.mul_le_mul_right es hle
  have hsize' := le_payloadSize hsize
  have hbound : q + payloadSize (c * es) ≤ 2 ^ 47 := (hg.valid.bounds _ hq).2.2
  have hstruct : Agree (widened s a n c).mem
      (copy ((widened s a n c).grant A q (payloadSize (c * es))).mem q data.addr (n * es)) a SIZEOF_ARRAY := by
    refine ((hg.kept ⟨a, k⟩ h.struct_mem).mono (le_refl a) (Nat.add_le_add_left h.size a)).trans (agree_overlay _ _ ?_).symm
    have hk := h.size
    omega
  constructor
  · exact (hg.valid.free _).put _
  · exact (mem_free hg.valid hdata).mpr ⟨hg.mem h.struct_mem, h.ne.symm⟩
  · exact (mem_free hg.valid hdata).mpr ⟨hq, hg.new_ne h.data_mem (mem_cons_self ..)⟩
  · exact hg.new_ne h.struct_mem (mem_cons_self ..)
  · exact h.size
  · exact load_store_self (by omega)
  · exact ((((h.fields.setLength (k := n + 1) (by omega)).setCapacity hc).congr hstruct).setData q)
  · exact hroom
  · exact helems

end Granted

end Growth

section Run

section Elements

variable (h : Layout s a r es k data n cap xs)

include h

theorem Layout.elements_le (hxs : xs.length ≤ cap) : slot r es * xs.length ≤ data.size := by
  have := h.room
  have := Nat.mul_le_mul_right (slot r es) hxs
  rw [Nat.mul_comm]
  omega

theorem Layout.positive : a ≠ 0 := by
  have := (h.valid.bounds _ h.struct_mem).1
  dsimp only at this
  omega

theorem extendArray_eq (hn : n < 2 ^ 62) (hcap : cap < 2 ^ 62) :
    extendArray A a s =
      if n + 1 ≤ cap then .ok ((), s.put (store s.mem 8 (a + 16) (n + 1)))
      else growArray A a ((n + 1 : Nat) : Int) (newCapacity cap) (s.put (store s.mem 8 (a + 16) (n + 1))) := by
  have hfields := h.fields.setLength (k := n + 1) (by omega)
  have hlen := h.fields.length
  have hlen' := hfields.length
  have hcap' := hfields.capacity
  unfold length at hlen hlen'
  unfold capacity at hcap'
  have hwrite : writeInt 8 (a + 16) ((n : Int) + 1) s = .ok ((), s.put (store s.mem 8 (a + 16) (n + 1))) := by
    have hword : word 8 ((n : Int) + 1) = n + 1 := word_natCast (v := n + 1) (by omega)
    rw [← hword]
    exact writeInt_put (h.holds 16 8 (by omega)) s.mem _
  rw [extendArray, if_neg h.positive]
  dsimp only
  rw [run_bind_ok (readInt_eq (h.holds 16 8 (by omega))), hlen,
    run_bind_ok hwrite, run_bind_ok (readInt_put (h.holds 16 8 (by omega)) _), hlen',
    run_bind_ok (readInt_put (h.holds 32 8 (by omega)) _), hcap', newCapacity_eq hcap]
  by_cases hfit : n + 1 ≤ cap
  · rw [if_pos hfit, if_pos (by omega)]
    rfl
  · rw [if_neg hfit, if_neg (by omega)]

structure Extended (s t : State) (a k : Nat) (data data' : Block) : Prop where
  shape : shapePtr t.mem a = shapePtr s.mem a
  fresh : data' = data ∨ data' ∉ s.live
  kept : ∀ b ∈ s.live, b ≠ ⟨a, k⟩ → b ≠ data → b ∈ t.live ∧ Agree s.mem t.mem b.addr b.size

theorem Layout.extended_lengthened :
    Extended s (s.put (store s.mem 8 (a + 16) (n + 1))) a k data data where
  shape := by
    rw [mem_put, shapePtr, load_store_apart (by omega)]
    rfl
  fresh := .inl rfl
  kept b hb hne _ := by
    refine ⟨hb, (agree_store ?_).symm⟩
    have hk : 48 ≤ k := h.size
    rcases h.valid.apart_of_ne hb h.struct_mem hne with h' | h' <;> dsimp only at h' <;> omega

theorem Layout.extended_grown {c : Nat} (hsize : n * es ≤ payloadSize (c * es))
    (hplace : A.place s.calls s.live (payloadSize (c * es)) = some q) :
    Extended s (Append.grown A s a n c es data q) a k data ⟨q, payloadSize (c * es)⟩ := by
  have hk : 48 ≤ k := h.size
  have hagree {p m : Nat} (hq : q + payloadSize (c * es) ≤ p ∨ p + m ≤ q)
      (ha : a + k ≤ p ∨ p + m ≤ a ∨ a + 8 ≤ p ∧ p + m ≤ a + 16) :
      Agree (Append.grown A s a n c es data q).mem s.mem p m := by
    exact .trans (agree_store (by omega)) (.trans (agree_overlay _ _ (by omega)) (.trans (agree_overlay _ _ hq)
      (.trans (agree_store (by omega)) (agree_store (by omega)))))
  refine ⟨?_, .inr fun hmem => ?_, fun b hb hne hnd => ⟨?_, ?_⟩⟩
  · have hapart := A.place_apart hplace _ h.struct_mem
    refine load_congr (hagree ?_ (by omega))
    rcases hapart with h' | h' <;> dsimp only at h' <;> omega
  · exact (A.place_apart hplace _ hmem).ne (payloadSize_pos _) rfl
  · refine mem_filter.mpr ⟨mem_cons_of_mem _ hb, decide_eq_true fun he => ?_⟩
    exact hnd (h.valid.eq_of_addr hb h.data_mem he)
  · refine (hagree ?_ ?_).symm
    · rcases A.place_apart hplace _ hb with h' | h' <;> dsimp only at h' <;> omega
    · rcases h.valid.apart_of_ne hb h.struct_mem hne with h' | h' <;> dsimp only at h' <;> omega

theorem extendArray_ends (hslot : slot r es = es) (hes : 0 < es) (hint : es < 2 ^ 31)
    (hxs : xs.length = n) (hcap : n ≤ cap) :
    Ends exhausted (fun _ t => ∃ data' cap', Layout t a r es k data' (n + 1) cap' xs ∧ n + 1 ≤ cap' ∧
      Extended s t a k data data') (extendArray A a s) := by
  have hbound := h.cap_bound
  rw [hslot] at hbound
  have hsmall : cap ≤ 2 ^ 47 := le_trans (Nat.le_mul_of_pos_right cap hes) hbound
  rw [extendArray_eq h (by omega) (by omega)]
  split
  · next hfit =>
    refine .ok ⟨data, cap, ⟨h.valid.put _, h.struct_mem, h.data_mem, h.ne, h.size, ?_, ?_, h.room, ?_⟩, hfit,
      h.extended_lengthened⟩
    · rw [mem_put, dataPtr, load_store_apart (by omega)]
      exact h.dataPtr
    · exact h.fields.setLength (by omega)
    · rw [mem_put, cells_congr (Agree.symm (agree_store ?_)), h.elements]
      have := h.elements_le (hxs ▸ hcap)
      have := h.apart
      have : 48 ≤ k := h.size
      omega
  · next hfit =>
    have hc : newCapacity cap ≤ cap * 2 + 1 ∧ n + 1 ≤ newCapacity cap := by
      unfold newCapacity
      split <;> omega
    have hsize : newCapacity cap * es ≤ 2 ^ 47 * 2 + 2 ^ 31 := by
      calc newCapacity cap * es ≤ (cap * 2 + 1) * es := Nat.mul_le_mul_right es hc.1
        _ = cap * es * 2 + es := by rw [Nat.add_mul, Nat.one_mul, Nat.mul_right_comm]
        _ ≤ 2 ^ 47 * 2 + 2 ^ 31 := by omega
    cases hplace : A.place s.calls s.live (payloadSize (newCapacity cap * es)) with
    | none =>
      rw [growArray_start h (by omega) (by omega) (by omega) (by omega) hint,
        run_bind_error (allocate_none (s := widened s a n _) (Nat.mul_pos (by omega) hes) hplace)]
      exact .error rfl
    | some q =>
      rw [growArray_eq h hplace (by omega) (by omega) (by omega) (by omega) hes hint (by omega) ?_]
      · refine .ok ⟨_, _, h.grown hplace (by omega) (by omega) (by omega) (by omega) ?_
          (h.cells_grown hplace (by omega) (by omega) hslot hxs hcap), hc.2, h.extended_grown ?_ hplace⟩
        · rw [hslot]
          exact le_payloadSize (by omega)
        · exact le_trans (Nat.mul_le_mul_right es (by omega)) (le_payloadSize (by omega))
      · have hroom := h.room
        rw [hslot] at hroom
        exact le_trans (Nat.mul_le_mul_right es hcap) hroom

end Elements

theorem store_eq (h : Layout s a r es k data (n + 1) cap xs) (hfit : n + 1 ≤ cap) (v : Nat) :
    (if 1 < r then storeSubarrayByIndex a [] n v else storeByIndex es a [] n v) s =
      .ok ((), s.put (store s.mem (slot r es) (data.addr + slot r es * n) v)) := by
  have hlen := h.fields.length
  have hrank := h.fields.rank
  have hptr := h.dataPtr
  unfold length at hlen
  unfold rank at hrank
  unfold dataPtr at hptr
  have hroom := h.room
  have hslot : s.holds (data.addr + slot r es * n) (slot r es) := by
    have := Nat.mul_le_mul_right (slot r es) hfit
    rw [Nat.add_mul, Nat.one_mul, Nat.mul_comm n] at this
    exact holds_of_mem h.data_mem (by omega) (by omega)
  have hcheck : checkIndex a n s = .ok ((), s) := by
    rw [checkIndex, if_neg (by omega)]
    dsimp only
    rw [run_bind_ok (readInt_eq (h.holds 16 8 (by omega))), hlen, if_neg (by omega)]
    rfl
  have hread : read 8 a s = .ok (data.addr, s) := by
    have hhold : s.holds a 8 := h.holds 0 8 (by omega)
    rw [read_eq hhold, hptr]
  unfold slot at *
  split
  · next hr =>
    rw [if_pos hr] at hslot
    rw [storeSubarrayByIndex, descend, run_bind_ok rfl, run_bind_ok hcheck, setSubarray, if_neg h.positive,
      run_bind_ok (readInt_eq (h.holds 24 8 (by omega))), hrank, if_neg (by omega),
      run_bind_ok (readInt_eq (h.holds 16 8 (by omega))), hlen, if_neg (by omega), run_bind_ok hread, Int.toNat_natCast]
    exact write_put hslot s.mem v
  · next hr =>
    rw [if_neg hr] at hslot
    rw [storeByIndex, descend, run_bind_ok rfl, run_bind_ok hcheck, run_bind_ok hread, Int.toNat_natCast]
    exact write_put hslot s.mem v

theorem Layout.stored (h : Layout s a r es k data (n + 1) cap xs) (hxs : xs.length = n) (hfit : n + 1 ≤ cap) {v : Nat}
    (hv : v < 256 ^ slot r es) :
    Layout (s.put (store s.mem (slot r es) (data.addr + slot r es * n) v)) a r es k data (n + 1) cap (xs ++ [v]) := by
  have hroom := h.room
  have hin := Nat.mul_le_mul_right (slot r es) hfit
  rw [Nat.add_mul, Nat.one_mul, Nat.mul_comm n] at hin
  have hstruct : Agree s.mem (store s.mem (slot r es) (data.addr + slot r es * n) v) a SIZEOF_ARRAY := by
    apply Agree.symm
    refine agree_store ?_
    have := h.apart
    have := h.size
    omega
  refine ⟨h.valid.put _, h.struct_mem, h.data_mem, h.ne, h.size, ?_, h.fields.congr hstruct, h.room, ?_⟩
  · rw [mem_put, dataPtr_congr hstruct, h.dataPtr]
  · have hbefore : Agree s.mem (store s.mem (slot r es) (data.addr + slot r es * n) v) data.addr (slot r es * n) :=
      Agree.symm (agree_store (by omega))
    have helems := h.elements
    rw [hxs] at helems
    rw [mem_put, length_append, length_singleton, hxs, cells_succ, cells_congr hbefore, helems, load_store_self hv]

theorem append_ends (h : IsArray s a r es xs) (hslot : slot r es = es) (hes : 0 < es) (hint : es < 2 ^ 31) {v : Nat}
    (hv : v < 256 ^ slot r es) : Ends exhausted (fun _ t => IsArray t a r es (xs ++ [v])) (append A r es a v s) := by
  obtain ⟨k, data, cap, h, hcap⟩ := h
  have hlen := h.fields.length
  unfold length at hlen
  rw [append, run_bind_ok (readInt_eq (h.holds 16 8 (by omega))), hlen]
  apply ends_bind
  refine (extendArray_ends h hslot hes hint rfl hcap).mono ?_
  rintro - t ⟨data', cap', ht, hfit, -⟩
  rw [store_eq ht hfit]
  refine .ok ⟨k, data', cap', ?_, ?_⟩
  · rw [length_append, length_singleton]
    exact ht.stored rfl hfit hv
  · rwa [length_append, length_singleton]

theorem appendAll_ends (h : IsArray s a r es xs) (hslot : slot r es = es) (hes : 0 < es) (hint : es < 2 ^ 31) {vs : List Nat}
    (hvs : ∀ v ∈ vs, v < 256 ^ slot r es) :
    Ends exhausted (fun _ t => IsArray t a r es (xs ++ vs)) (appendAll A r es a vs s) := by
  induction vs generalizing s xs with
  | nil =>
    rw [append_nil]
    exact .ok h
  | cons v vs ih =>
    rw [appendAll]
    apply ends_bind
    refine (append_ends h hslot hes hint (hvs v (mem_cons_self ..))).mono ?_
    intro _ t ht
    have := ih ht fun v' hv' => hvs v' (mem_cons_of_mem _ hv')
    rwa [append_assoc, singleton_append] at this

end Run

section Samples

def sample (r es n : Nat) : State where
  mem := store (store (store (store (store (fun _ => 0) 8 64 4096) 8 80 n) 8 88 r) 8 96 n) 4 104 es
  live := [⟨64, 64⟩, ⟨4096, 32⟩]
  calls := 0

theorem layout_sample {r es n : Nat} (hr : 1 < r) (hr' : r < 2 ^ 31) (hint : es < 2 ^ 31) (hn : n ≤ 4) :
    Layout (sample r es n) 64 r es 64 ⟨4096, 32⟩ n n (List.replicate n 0) where
  valid := by
    refine ⟨by simp [sample, Apart], ?_⟩
    simp [sample]
  struct_mem := by simp [sample]
  data_mem := by simp [sample]
  ne := by decide
  size := by decide
  dataPtr := by
    rw [sample, dataPtr, load_store_apart, load_store_apart, load_store_apart,
      load_store_apart, load_store_self (by decide)] <;> omega
  fields := by
    constructor
    · rw [sample, length, load_store_apart, load_store_apart, load_store_apart, load_store_self, signed_natCast] <;> omega
    · rw [sample, rank, load_store_apart, load_store_apart, load_store_self, signed_natCast] <;> omega
    · rw [sample, capacity, load_store_apart, load_store_self, signed_natCast] <;> omega
    · rw [sample, elemSize, load_store_self, signed_natCast] <;> omega
  room := by
    rw [slot, if_pos hr]
    dsimp only
    omega
  elements := by
    rw [length_replicate, eq_replicate_iff]
    refine ⟨length_cells .., ?_⟩
    intro b hb
    obtain ⟨i, hi, rfl⟩ := mem_map.mp hb
    rw [mem_range] at hi
    rw [slot, if_pos hr, load_eq_zero]
    intro j hj
    simp only [sample, store, overlay]
    rw [if_neg (by omega), if_neg (by omega), if_neg (by omega), if_neg (by omega), if_neg (by omega)]

theorem isArray_sample {r es n : Nat} (hr : 1 < r) (hr' : r < 2 ^ 31) (hint : es < 2 ^ 31) (hn : n ≤ 4) :
    IsArray (sample r es n) 64 r es (List.replicate n 0) :=
  ⟨64, ⟨4096, 32⟩, n, by
    rw [length_replicate]
    exact ⟨layout_sample hr hr' hint hn, le_refl n⟩⟩

theorem bump_sample {c : Nat} (hc : c < 2 ^ 40) :
    bump.place (sample r es n).calls (sample r es n).live c = some 4128 := by
  have htop : top (sample r es n).live = 4128 := rfl
  simp only [bump, htop]
  rw [if_pos (by omega)]

theorem payloadSize_lt {n : Nat} : payloadSize n < n + 48 := by
  unfold payloadSize Alloc.Allocator.align16 Alloc.Allocator.MIN_PAYLOAD_SIZE
  omega

theorem Layout.grown_junk (h : Layout s a r es k data n cap xs) {c i : Nat}
    (hplace : A.place s.calls s.live (payloadSize (c * es)) = some q) (hi : n * es ≤ i) (hi' : i < payloadSize (c * es)) :
    (Append.grown A s a n c es data q).mem (q + i) = A.junk s.calls i := by
  have hapart : Apart ⟨q, payloadSize (c * es)⟩ ⟨a, k⟩ := A.place_apart hplace _ h.struct_mem
  have hk : 48 ≤ k := h.size
  simp only [Append.grown, mem_put, store, copy, State.grant]
  rw [overlay, if_neg, overlay, if_neg (by omega), overlay_at _ _ _ hi']
  · rfl
  · rcases hapart with h' | h' <;> dsimp only at h' <;> omega

theorem append_full (h : Layout s a r es k data n n xs) (hn : n < 2 ^ 62) (v : Nat) :
    append A r es a v s =
      (do
        growArray A a ((n + 1 : Nat) : Int) (newCapacity n)
        if 1 < r then storeSubarrayByIndex a [] n v else storeByIndex es a [] n v : Op Unit)
        (s.put (store s.mem 8 (a + 16) (n + 1))) := by
  have hlen := h.fields.length
  unfold length at hlen
  have hextend := extendArray_eq (A := A) h hn hn
  rw [if_neg (by omega)] at hextend
  rw [append, run_bind_ok (readInt_eq (h.holds 16 8 (by omega))), hlen]
  change (extendArray A a s >>= fun p => _) = (growArray A a _ _ _ >>= fun p => _)
  rw [hextend]

theorem not_append_small (hr : 1 < r) (hr' : r < 2 ^ 31) (hes : 0 < es) (hlt : es < 8) :
    ¬ Ends exhausted (fun _ t => IsArray t 64 r es [0, 0]) (appendAll bump r es 64 [0] (sample r es 1)) := by
  have hlay : Layout (sample r es 1) 64 r es 64 ⟨4096, 32⟩ 1 1 [0] := layout_sample hr hr' (by omega) (by omega)
  have hplace : bump.place (sample r es 1).calls (sample r es 1).live (payloadSize (2 * es)) = some 4128 :=
    bump_sample (by have := @payloadSize_lt (2 * es); omega)
  have hroom : 2 * slot r es ≤ payloadSize (2 * es) := by
    rw [slot, if_pos hr]
    unfold payloadSize Alloc.Allocator.MIN_PAYLOAD_SIZE
    omega
  have hgrow := growArray_eq hlay hplace (by omega) (by omega) (by omega) (by omega) hes (by omega) (by omega)
    (by dsimp only; omega)
  have hgrown : Layout _ 64 r es 64 _ 2 2 [] := hlay.grown hplace (by omega) (by omega) (by omega) (by omega) hroom rfl
  have hjunk : (grown bump (sample r es 1) 64 1 2 es ⟨4096, 32⟩ 4128).mem (4128 + es) = 255 :=
    hlay.grown_junk hplace (by omega) (by rw [slot, if_pos hr] at hroom; omega)
  generalize grown bump (sample r es 1) 64 1 2 es ⟨4096, 32⟩ 4128 = t at hgrow hgrown hjunk
  have hrun : append bump r es 64 0 (sample r es 1) = .ok ((), t.put (store t.mem (slot r es) (4128 + slot r es * 1) 0)) := by
    rw [append_full hlay (by omega), show newCapacity 1 = 2 from rfl, run_bind_ok hgrow]
    exact store_eq hgrown (by omega) 0
  rw [appendAll, run_bind_ok hrun]
  intro hend
  obtain ⟨k, data, cap, hend, -⟩ := hend.of_ok
  rw [slot, if_pos hr] at hend
  have hdata : data.addr = 4128 := by
    rw [← hend.dataPtr, mem_put, dataPtr, load_store_apart (by omega)]
    exact hgrown.dataPtr
  have hzero := hend.elements
  rw [slot, if_pos hr, hdata, length_cons, cells_cons, cons_eq_cons, load_eq_zero] at hzero
  have hbyte := hzero.1 es hlt
  rw [mem_put, agree_store (by omega) es hlt] at hbyte
  rw [hbyte] at hjunk
  cases hjunk

theorem not_append_large (hr : 1 < r) (hr' : r < 2 ^ 31) (hgt : 8 < es) (hint : es < 2 ^ 31) :
    ¬ Ends exhausted (fun _ t => IsArray t 64 r es [0, 0, 0, 0, 0]) (appendAll bump r es 64 [0] (sample r es 4)) := by
  have hlay : Layout (sample r es 4) 64 r es 64 ⟨4096, 32⟩ 4 4 [0, 0, 0, 0] := layout_sample hr hr' hint (by omega)
  have hplace : bump.place (sample r es 4).calls (sample r es 4).live (payloadSize (8 * es)) = some 4128 :=
    bump_sample (by have := @payloadSize_lt (8 * es); omega)
  have hcopy := growArray_copy hlay hplace (by omega) (by omega) (by omega) (by omega) (by omega) hint (by omega)
  have hfault : memcpy 4128 4096 (4 * es) ((widened (sample r es 4) 64 4 8).grant bump 4128 (payloadSize (8 * es))) =
      .error .fault := by
    rw [memcpy, if_neg]
    rintro (h | ⟨-, h⟩)
    · omega
    · obtain ⟨b, hb, haddr, hsize⟩ := exists_of_holds h
      simp only [State.grant, widened, live_put, sample, mem_cons, not_mem_nil, or_false] at hb
      rcases hb with rfl | rfl | rfl <;> dsimp only at haddr hsize <;> omega
  have hrun : append bump r es 64 0 (sample r es 4) = .error .fault := by
    rw [append_full hlay (by omega), show newCapacity 4 = 8 from rfl, run_bind_error (hcopy.trans (run_bind_error hfault))]
  rw [appendAll, run_bind_error hrun]
  rintro ⟨⟩
  next h => cases h

end Samples

/-- Appending keeps the elements of all arrays of a rank and an element size
exactly when their slots have the size of the elements. -/
theorem append_preserves_iff (r es : Nat) (hr : 0 < r) (hr' : r < 2 ^ 31) (hes : 0 < es) (hint : es < 2 ^ 31) :
    (∀ A s a xs vs, IsArray s a r es xs → (∀ v ∈ vs, v < 256 ^ slot r es) →
      Ends exhausted (fun _ t => IsArray t a r es (xs ++ vs)) (appendAll A r es a vs s)) ↔ r = 1 ∨ es = 8 := by
  constructor
  · intro h
    by_contra hne
    have hsample {n : Nat} (hn : n ≤ 4) : IsArray (sample r es n) 64 r es (List.replicate n 0) :=
      isArray_sample (by omega) hr' hint hn
    have hval : ∀ v ∈ [0], v < 256 ^ slot r es := by
      intro v hv
      rw [mem_singleton.mp hv]
      exact Nat.pow_pos (by decide)
    rcases Nat.lt_or_gt_of_ne (show es ≠ 8 by omega) with hlt | hgt
    · exact not_append_small (by omega) hr' hes hlt (h bump _ 64 _ [0] (hsample (n := 1) (by omega)) hval)
    · exact not_append_large (by omega) hr' hgt hint (h bump _ 64 _ [0] (hsample (n := 4) (by omega)) hval)
  · rintro h A s a xs vs hs hvs
    refine appendAll_ends hs ?_ hes hint hvs
    unfold slot
    split <;> omega

theorem append_preserves_iff_pointers : IsArray (sample 2 8 4) 64 2 8 [0, 0, 0, 0] ∧
      Ends exhausted (fun _ t => IsArray t 64 2 8 ([0, 0, 0, 0] ++ [64, 4096]))
        (appendAll bump 2 8 64 [64, 4096] (sample 2 8 4)) := by
  have harr : IsArray (sample 2 8 4) 64 2 8 [0, 0, 0, 0] :=
    isArray_sample (n := 4) (by decide) (by decide) (by decide) (by decide)
  have hiff := append_preserves_iff 2 8 (by decide) (by decide) (by decide) (by decide)
  exact ⟨harr, hiff.mpr (.inr rfl) _ _ _ _ _ harr (by decide)⟩

def firstRow : Op (Nat × Nat) := do
  let rows ← allocArray bump 4 [1, 1]
  let row ← allocArray bump 4 [1]
  let before ← getSubarray rows 0
  append bump 2 4 rows row
  return (before, ← getSubarray rows 0)

/-- Four bytes of the pointer to the first row have been copied, and the other
four are what the new block held. -/
theorem append_loses_row : (firstRow start).toOption.map Prod.fst = some (144, 144 + (2 ^ 64 - 2 ^ 32)) := by
  decide +kernel

end Picasso.Arrays.Append
