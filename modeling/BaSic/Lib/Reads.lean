import BaSic.Lib.Words

namespace BaSic.Lib

/-- The result of a computation and the cells it read. -/
structure Reading (α : Type*) where
  val : α
  reads : List Nat

/-- All reads are below `n`. -/
def Reading.Within {α : Type*} (x : Reading α) (n : Nat) : Prop := ∀ i ∈ x.reads, i < n

instance {α : Type*} (x : Reading α) (n : Nat) : Decidable (x.Within n) :=
  inferInstanceAs (Decidable (∀ i ∈ x.reads, i < n))

/-- All cells read have the property. -/
def Reading.All {α : Type*} (x : Reading α) (P : Nat → Prop) : Prop := ∀ i ∈ x.reads, P i

instance : Monad Reading where
  pure a := ⟨a, []⟩
  bind x f := ⟨(f x.val).val, x.reads ++ (f x.val).reads⟩

def readCell (m : Mem) (i : Nat) : Reading UInt8 := ⟨m i, [i]⟩

/-- The cells `base`, `base + 1`, …, of which there are `n`. -/
def readCells (m : Mem) (base n : Nat) : Reading (Fin n → UInt8) :=
  ⟨fun j => m (base + j), (List.range n).map (base + ·)⟩

/-- The bytes are in the cells from `base` on. -/
def HoldsBytes (m : Mem) (base : Nat) (bytes : List UInt8) : Prop :=
  ∀ j (h : j < bytes.length), m (base + j) = bytes[j]

/-- Whether the cells from `base` on are the bytes given, read up to the first that differs. -/
def compareCells (m : Mem) (base : Nat) : List UInt8 → Reading Bool
  | [] => pure true
  | b :: bytes => do
    let c ← readCell m base
    if c = b then compareCells m (base + 1) bytes else pure false

/-- How many cells such a comparison reads. -/
def compared (m : Mem) (base : Nat) : List UInt8 → Nat
  | [] => 0
  | b :: bytes => if m base = b then compared m (base + 1) bytes + 1 else 1

variable {α β : Type} {m : Mem} {base i n : Nat} {bytes : List UInt8}

@[simp] theorem pure_val (a : α) : (pure a : Reading α).val = a := rfl

@[simp] theorem bind_val (x : Reading α) (f : α → Reading β) : (x >>= f).val = (f x.val).val := rfl

@[simp] theorem read_cell_val : (readCell m i).val = m i := rfl

@[simp] theorem read_cells_val (j : Fin n) : (readCells m base n).val j = m (base + j) := rfl

@[simp] theorem within_pure (a : α) : (pure a : Reading α).Within n := fun _ h => by cases h

@[simp] theorem within_bind (x : Reading α) (f : α → Reading β) :
    (x >>= f).Within n ↔ x.Within n ∧ (f x.val).Within n := List.forall_mem_append

@[simp] theorem within_cell : (readCell m i).Within n ↔ i < n := List.forall_mem_singleton

section All
variable {P : Nat → Prop}

@[simp] theorem all_pure (a : α) : (pure a : Reading α).All P := fun _ h => by cases h

@[simp] theorem all_bind (x : Reading α) (f : α → Reading β) : (x >>= f).All P ↔ x.All P ∧ (f x.val).All P :=
  List.forall_mem_append

@[simp] theorem all_cell : (readCell m i).All P ↔ P i := List.forall_mem_singleton

end All

theorem within_cells {k : Nat} : (readCells m base k).Within n ↔ 0 < k → base + k ≤ n := by
  unfold Reading.Within readCells
  rw [List.forall_mem_map]
  simp only [List.mem_range]
  constructor
  · intro h hk
    have hlast := h (k - 1) (by omega)
    omega
  · intro h i hi
    have hall := h (by omega)
    omega

theorem holds_bytes_cons {b : UInt8} :
    HoldsBytes m base (b :: bytes) ↔ m base = b ∧ HoldsBytes m (base + 1) bytes := by
  constructor
  · intro h
    refine ⟨h 0 (Nat.zero_lt_succ _), fun j hj => ?_⟩
    have hnext := h (j + 1) (Nat.succ_lt_succ hj)
    rw [List.getElem_cons_succ] at hnext
    rw [← hnext, Nat.add_right_comm, Nat.add_assoc]
  · rintro ⟨hb, h⟩ j hj
    cases j with
    | zero => exact hb
    | succ j =>
      rw [List.getElem_cons_succ, ← h j (Nat.lt_of_succ_lt_succ hj), Nat.add_right_comm, Nat.add_assoc]

theorem holds_bytes_append {xs ys : List UInt8} :
    HoldsBytes m base (xs ++ ys) ↔ HoldsBytes m base xs ∧ HoldsBytes m (base + xs.length) ys := by
  induction xs generalizing base with
  | nil => exact (and_iff_right (fun j h => absurd h (Nat.not_lt_zero j))).symm
  | cons x xs ih =>
    rw [List.cons_append, holds_bytes_cons, holds_bytes_cons, ih, and_assoc, List.length_cons,
      Nat.add_assoc base 1, Nat.add_comm 1]

/-- Cells that hold the bytes are read as these. -/
theorem read_cells_holds (h : HoldsBytes m base bytes) : List.ofFn (readCells m base bytes.length).val = bytes := by
  refine List.ext_getElem (List.length_ofFn) (fun j hj hj' => ?_)
  rw [List.getElem_ofFn, read_cells_val]
  exact h j hj'

@[simp] theorem compare_cells_val :
    (compareCells m base bytes).val = true ↔ HoldsBytes m base bytes := by
  induction bytes generalizing base with
  | nil => exact iff_of_true rfl (fun j h => absurd h (Nat.not_lt_zero j))
  | cons b bytes ih =>
    unfold compareCells
    rw [bind_val, read_cell_val, holds_bytes_cons]
    by_cases hb : m base = b
    · rw [if_pos hb, ih]
      exact (and_iff_right hb).symm
    · rw [if_neg hb, pure_val]
      exact iff_of_false Bool.false_ne_true (fun h => hb h.1)

theorem compared_le (m : Mem) (base : Nat) (bytes : List UInt8) : compared m base bytes ≤ bytes.length := by
  induction bytes generalizing base with
  | nil => exact Nat.le_refl 0
  | cons b bytes ih =>
    unfold compared
    split
    · exact Nat.succ_le_succ (ih _)
    · exact Nat.succ_le_succ (Nat.zero_le _)

/-- Bytes that are equal are read to the end. -/
theorem compared_of_eq (h : (compareCells m base bytes).val = true) : compared m base bytes = bytes.length := by
  rw [compare_cells_val] at h
  induction bytes generalizing base with
  | nil => rfl
  | cons b bytes ih =>
    obtain ⟨hb, hbytes⟩ := holds_bytes_cons.mp h
    unfold compared
    rw [if_pos hb, ih hbytes, List.length_cons]

theorem within_compare (hne : bytes ≠ []) :
    (compareCells m base bytes).Within n ↔ base + compared m base bytes ≤ n := by
  induction bytes generalizing base with
  | nil => exact absurd rfl hne
  | cons b bytes ih =>
    unfold compareCells compared
    rw [within_bind, within_cell, read_cell_val]
    by_cases hb : m base = b
    · rw [if_pos hb, if_pos hb]
      cases bytes with
      | nil => simp [compareCells, compared]
      | cons c bytes =>
        rw [ih (List.cons_ne_nil c bytes)]
        omega
    · rw [if_neg hb, if_neg hb]
      simp

end BaSic.Lib
