import Mathlib

/-!
# Memory as a string of bytes

Loading bytes from an offset and storing bytes at an offset.  A load sees what was stored at its
place and nothing of what was stored elsewhere.
-/

set_option autoImplicit false

namespace Tagdata.Library

/-- The bytes at an offset. -/
def load (m : List UInt8) (offset len : Nat) : List UInt8 := (m.drop offset).take len

/-- Overwrites the bytes at an offset. -/
def store (m : List UInt8) (offset : Nat) (data : List UInt8) : List UInt8 :=
  m.take offset ++ data ++ m.drop (offset + data.length)

variable {m pre post data : List UInt8} {offset start len : Nat}

theorem length_load (h : offset + len ≤ m.length) : (load m offset len).length = len := by
  rw [load, List.length_take, List.length_drop]
  omega

theorem length_store (h : offset + data.length ≤ m.length) :
    (store m offset data).length = m.length := by
  simp only [store, List.length_append, List.length_take, List.length_drop]
  omega

/-- What was stored is there. -/
theorem load_store_self (h : offset ≤ m.length) :
    load (store m offset data) offset data.length = data := by
  have hfront : (m.take offset).length = offset := by simpa using h
  rw [load, store, List.append_assoc, List.drop_left' hfront, List.take_left' rfl]

/-- A load below a store. -/
theorem load_store_below (h : start + len ≤ offset) (hm : offset ≤ m.length) :
    load (store m offset data) start len = load m start len := by
  have hfront : (m.take offset).length = offset := by simpa using hm
  rw [load, load, store, List.append_assoc, List.drop_append_of_le_length (by omega),
    List.take_append_of_le_length (by simp; omega), List.drop_take, List.take_take]
  congr 1
  omega

/-- A load above a store. -/
theorem load_store_above (h : offset + data.length ≤ start) (hm : offset ≤ m.length) :
    load (store m offset data) start len = load m start len := by
  have hfront : (m.take offset ++ data).length = offset + data.length := by simp [hm]
  rw [load, load, store, List.drop_append, List.drop_eq_nil_of_le (by omega), List.nil_append,
    hfront, List.drop_drop]
  congr 2
  omega

/-- A load behind other bytes. -/
theorem load_append_right (pre m : List UInt8) (start len : Nat) :
    load (pre ++ m) (pre.length + start) len = load m start len := by
  rw [load, load, List.drop_append, List.drop_eq_nil_of_le (by omega), List.nil_append]
  congr 2
  omega

/-- A load before other bytes. -/
theorem load_append_left (h : start + len ≤ m.length) :
    load (m ++ post) start len = load m start len := by
  rw [load, load, List.drop_append_of_le_length (by omega),
    List.take_append_of_le_length (by simp; omega)]

/-- A load from what was loaded. -/
theorem load_load {first count : Nat} (h : start + len ≤ count) :
    load (load m first count) start len = load m (first + start) len := by
  rw [load, load, load, List.drop_take, List.take_take, List.drop_drop]
  congr 1
  omega

/-- A load from inside what was stored. -/
theorem load_store_inside (h : offset ≤ m.length) (hle : start + len ≤ data.length) :
    load (store m offset data) (offset + start) len = load data start len := by
  rw [← load_load hle, load_store_self h]

/-- A load of the middle part. -/
theorem load_middle (pre data post : List UInt8) :
    load (pre ++ (data ++ post)) pre.length data.length = data := by
  have hright := load_append_right pre (data ++ post) 0 data.length
  rw [add_zero] at hright
  rw [hright, load, List.drop_zero, List.take_left' rfl]

/-- The parts of what is loaded. -/
theorem load_parts {front back : List UInt8}
    (h : load m offset (front ++ back).length = front ++ back) :
    load m offset front.length = front ∧
      load m (offset + front.length) back.length = back := by
  have hfront : 0 + front.length ≤ (front ++ back).length := by simp
  have hback : front.length + back.length ≤ (front ++ back).length := by simp
  constructor
  · rw [← add_zero offset, ← load_load hfront, h, load, List.drop_zero, List.take_left' rfl]
  · rw [← load_load hback, h, load, List.drop_left' rfl, List.take_length]

/-- Two stores one behind the other. -/
theorem store_store {more : List UInt8} (h : offset + data.length ≤ m.length) :
    store (store m offset data) (offset + data.length) more = store m offset (data ++ more) := by
  have hfront : (m.take offset ++ data).length = offset + data.length := by simp; omega
  have hrest : (m.take offset ++ data ++ m.drop (offset + data.length)).drop
      (offset + data.length + more.length) = m.drop (offset + (data ++ more).length) := by
    rw [← hfront, List.drop_append, List.drop_eq_nil_of_le (by omega), List.nil_append, hfront,
      List.drop_drop, List.length_append]
    congr 1
    omega
  rw [store, store, store, hrest, List.take_left' hfront, List.append_assoc (m.take offset)]

/-- Memory of zeros. -/
theorem load_replicate {n : Nat} (h : start + len ≤ n) :
    load (List.replicate n 0) start len = List.replicate len 0 := by
  rw [load, List.drop_replicate, List.take_replicate]
  congr 1
  omega

/-! ## Changes to a region -/

/-- Two memories of one length that agree outside the region from `lo` to `hi`. -/
structure DiffersIn (lo hi : Nat) (m m' : List UInt8) : Prop where
  length : m'.length = m.length
  below : ∀ start len, start + len ≤ lo → load m' start len = load m start len
  above : ∀ start len, hi ≤ start → load m' start len = load m start len

namespace DiffersIn

variable {m' m'' : List UInt8} {lo hi lo' hi' : Nat}

theorem refl (lo hi : Nat) (m : List UInt8) : DiffersIn lo hi m m where
  length := rfl
  below _ _ _ := rfl
  above _ _ _ := rfl

theorem mono (h : DiffersIn lo hi m m') (hlo : lo' ≤ lo) (hhi : hi ≤ hi') :
    DiffersIn lo' hi' m m' where
  length := h.length
  below start len hle := h.below start len (by omega)
  above start len hle := h.above start len (by omega)

theorem trans (h : DiffersIn lo hi m m') (h' : DiffersIn lo hi m' m'') : DiffersIn lo hi m m'' where
  length := by rw [h'.length, h.length]
  below start len hle := by rw [h'.below start len hle, h.below start len hle]
  above start len hle := by rw [h'.above start len hle, h.above start len hle]

/-- A store changes what it covers. -/
theorem of_store (h : offset + data.length ≤ m.length) :
    DiffersIn offset (offset + data.length) m (store m offset data) where
  length := length_store h
  below _ _ hle := load_store_below hle (by omega)
  above _ _ hle := load_store_above hle (by omega)

/-- A store inside a region. -/
theorem store_in (h : DiffersIn lo hi m m') (hlo : lo ≤ offset) (hhi : offset + data.length ≤ hi)
    (hm : offset + data.length ≤ m.length) : DiffersIn lo hi m (store m' offset data) :=
  h.trans ((of_store (by rw [h.length]; exact hm)).mono hlo hhi)

end DiffersIn

/-! ## Records -/

/-- Stores the fields of a record, each at its offset from the base. -/
def storeFields (base : Nat) : List (Nat × List UInt8) → List UInt8 → List UInt8
  | [], m => m
  | (offset, data) :: fields, m => storeFields base fields (store m (base + offset) data)

/-- Fields that do not overlap. -/
def FieldsApart (f g : Nat × List UInt8) : Prop :=
  f.1 + f.2.length ≤ g.1 ∨ g.1 + g.2.length ≤ f.1

section records

variable {fields : List (Nat × List UInt8)} {base size : Nat}

/-- Storing a record changes only the record. -/
theorem storeFields_differsIn (hsize : ∀ f ∈ fields, f.1 + f.2.length ≤ size)
    (hm : base + size ≤ m.length) : DiffersIn base (base + size) m (storeFields base fields m) := by
  induction fields generalizing m with
  | nil => exact DiffersIn.refl _ _ _
  | cons f fields ih =>
    have hf := hsize f List.mem_cons_self
    have hstep : DiffersIn base (base + size) m (store m (base + f.1) f.2) :=
      (DiffersIn.refl _ _ _).store_in (by omega) (by omega) (by omega)
    have hrest := ih (m := store m (base + f.1) f.2)
      (fun g hg => hsize g (List.mem_cons_of_mem f hg)) (by rw [hstep.length]; exact hm)
    exact hstep.trans hrest

/-- What lies beside the fields stays. -/
theorem load_storeFields_other (hsize : ∀ f ∈ fields, f.1 + f.2.length ≤ size)
    (hm : base + size ≤ m.length)
    (hother : ∀ f ∈ fields, offset + len ≤ f.1 ∨ f.1 + f.2.length ≤ offset) :
    load (storeFields base fields m) (base + offset) len = load m (base + offset) len := by
  induction fields generalizing m with
  | nil => rfl
  | cons f fields ih =>
    have hf := hsize f List.mem_cons_self
    have hlength : (store m (base + f.1) f.2).length = m.length := length_store (by omega)
    have hrest := ih (m := store m (base + f.1) f.2)
      (fun g hg => hsize g (List.mem_cons_of_mem f hg)) (by rw [hlength]; exact hm)
      (fun g hg => hother g (List.mem_cons_of_mem f hg))
    rw [storeFields, hrest]
    rcases hother f List.mem_cons_self with hbefore | hafter
    · exact load_store_below (by omega) (by omega)
    · exact load_store_above (by omega) (by omega)

/-- Each field is where it was stored. -/
theorem load_storeFields (hfields : fields.Pairwise FieldsApart)
    (hsize : ∀ f ∈ fields, f.1 + f.2.length ≤ size) (hm : base + size ≤ m.length)
    (hmem : (offset, data) ∈ fields) :
    load (storeFields base fields m) (base + offset) data.length = data := by
  induction fields generalizing m with
  | nil => simp at hmem
  | cons f fields ih =>
    have hf := hsize f List.mem_cons_self
    have hlength : (store m (base + f.1) f.2).length = m.length := length_store (by omega)
    have hrest : ∀ g ∈ fields, g.1 + g.2.length ≤ size :=
      fun g hg => hsize g (List.mem_cons_of_mem f hg)
    rw [List.pairwise_cons] at hfields
    rw [storeFields]
    rcases List.mem_cons.mp hmem with hhead | htail
    · rw [← hhead] at hfields ⊢
      rw [load_storeFields_other hrest (by rw [← hhead] at hlength; rw [hlength]; exact hm)
        hfields.1]
      exact load_store_self (by rw [← hhead] at hf; simp only at hf; omega)
    · exact ih hfields.2 hrest (by rw [hlength]; exact hm) htail

end records

end Tagdata.Library
