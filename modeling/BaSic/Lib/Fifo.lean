import BaSic.Lib.Steps

namespace BaSic.Lib

inductive FifoOp (α : Type*) where
  | put (items : List α)
  | take (max : Nat)

/-- A queue that holds at most `cap` items: how many were accepted and which were handed
out, and the queue left. -/
def fifoStep {α : Type*} (cap : Nat) (queue : List α) : FifoOp α → (Nat × List α) × List α
  | .put items => ((min items.length (cap - queue.length), []), queue ++ items.take (cap - queue.length))
  | .take max => (((queue.take max).length, queue.take max), queue.drop max)

/-- What the puts of a history accepted, in order. -/
def accepted {α : Type*} : List (FifoOp α × (Nat × List α)) → List α
  | [] => []
  | (.put items, (n, _)) :: trace => items.take n ++ accepted trace
  | (.take _, _) :: trace => accepted trace

/-- What the takes of a history handed out, in order. -/
def returned {α : Type*} : List (FifoOp α × (Nat × List α)) → List α
  | [] => []
  | (.put _, _) :: trace => returned trace
  | (.take _, (_, items)) :: trace => items ++ returned trace

variable {α : Type*} {cap : Nat} {queue : List α}

/-- What a queue held and accepted is what it handed out and still holds, in the same order. -/
theorem fifo_accounts (cap : Nat) (queue : List α) (ops : List (FifoOp α)) :
    queue ++ accepted (ops.zip (run (fifoStep cap) queue ops).1) =
      returned (ops.zip (run (fifoStep cap) queue ops).1) ++ (run (fifoStep cap) queue ops).2 := by
  induction ops generalizing queue with
  | nil =>
    exact List.append_nil queue
  | cons op ops ih =>
    cases op with
    | put items =>
      have hrest := ih (queue ++ items.take (cap - queue.length))
      have htake : items.take (min items.length (cap - queue.length)) = items.take (cap - queue.length) := by
        rw [Nat.min_comm]
        exact List.take_eq_take_min.symm
      simp only [run, fifoStep, List.zip_cons_cons, accepted, returned, htake]
      rw [← List.append_assoc]
      exact hrest
    | take max =>
      have hrest := ih (queue.drop max)
      simp only [run, fifoStep, List.zip_cons_cons, accepted, returned]
      rw [List.append_assoc, ← hrest, ← List.append_assoc, List.take_append_drop]

/-- A ring of `n` cells: items are put at `tail` and taken at `head`. -/
structure Ring (n : Nat) (α : Type*) where
  buf : Fin n → α
  head : Fin n
  tail : Fin n
  count : Nat

variable {n : Nat} [NeZero n]

def Ring.push (r : Ring n α) (x : α) : Ring n α :=
  { r with buf := Function.update r.buf r.tail x, tail := r.tail + 1, count := r.count + 1 }

def Ring.drop (r : Ring n α) : Ring n α := { r with head := r.head + 1, count := r.count - 1 }

/-- The cell `k` places behind the head. -/
def Ring.cell (r : Ring n α) (k : Nat) : Fin n := r.head + Fin.ofNat n k

def Ring.contents (r : Ring n α) : List α := (List.range r.count).map (fun k => r.buf (r.cell k))

structure Ring.Valid (r : Ring n α) : Prop where
  fits : r.count ≤ n
  tail : r.tail = r.cell r.count

@[simp] theorem Ring.contents_length (r : Ring n α) : r.contents.length = r.count := by
  rw [Ring.contents, List.length_map, List.length_range]

theorem Ring.cell_val (r : Ring n α) (k : Nat) : (r.cell k).val = (r.head.val + k) % n := by
  unfold Ring.cell
  rw [Fin.val_add, Fin.val_ofNat, Nat.add_mod_mod]

theorem Ring.cell_zero (r : Ring n α) : r.cell 0 = r.head := by
  apply Fin.ext
  rw [r.cell_val, Nat.add_zero, Nat.mod_eq_of_lt r.head.isLt]

theorem Ring.cell_succ (r : Ring n α) (k : Nat) : r.cell (k + 1) = r.cell k + 1 := by
  apply Fin.ext
  rw [r.cell_val, Fin.val_add, r.cell_val, Fin.val_one', Nat.add_mod_mod, Nat.mod_add_mod, Nat.add_assoc]

theorem Ring.drop_cell (r : Ring n α) (k : Nat) : r.drop.cell k = r.cell (k + 1) := by
  have hhead : r.drop.head.val = (r.head.val + 1) % n := by
    unfold Ring.drop
    rw [Fin.val_add, Fin.val_one', Nat.add_mod_mod]
  apply Fin.ext
  rw [r.cell_val, r.drop.cell_val, hhead, Nat.mod_add_mod, Nat.add_assoc, Nat.add_comm 1 k]

/-- Cells less than a full turn apart are different. -/
theorem Ring.cell_ne (r : Ring n α) {j k : Nat} (hj : j < k) (hk : k < n) : r.cell j ≠ r.cell k := by
  intro h
  have hval := congrArg Fin.val h
  rw [r.cell_val, r.cell_val] at hval
  have hmod : j % n = k % n := Nat.ModEq.add_left_cancel' r.head.val hval
  rw [Nat.mod_eq_of_lt (Nat.lt_trans hj hk), Nat.mod_eq_of_lt hk] at hmod
  exact Nat.ne_of_lt hj hmod

theorem Ring.Valid.push {r : Ring n α} (h : r.Valid) (x : α) (hroom : r.count < n) : (r.push x).Valid := by
  refine ⟨hroom, ?_⟩
  have hcell : (r.push x).cell (r.count + 1) = r.cell (r.count + 1) := rfl
  have htail : (r.push x).tail = r.tail + 1 := rfl
  rw [htail, h.tail, ← r.cell_succ]
  exact hcell.symm

theorem Ring.Valid.drop {r : Ring n α} (h : r.Valid) (hne : 0 < r.count) : r.drop.Valid := by
  have hcount : r.drop.count = r.count - 1 := rfl
  refine ⟨?_, ?_⟩
  · have hfits := h.fits
    omega
  · rw [r.drop_cell, hcount, Nat.sub_add_cancel hne]
    exact h.tail

theorem Ring.contents_push {r : Ring n α} (h : r.Valid) (x : α) (hroom : r.count < n) :
    (r.push x).contents = r.contents ++ [x] := by
  have hcell : ∀ k, (r.push x).cell k = r.cell k := fun _ => rfl
  have hcount : (r.push x).count = r.count + 1 := rfl
  have hbuf : (r.push x).buf = Function.update r.buf r.tail x := rfl
  unfold Ring.contents
  rw [hcount, List.range_succ, List.map_append, List.map_singleton, hbuf]
  congr 1
  · refine List.map_congr_left (fun k hk => ?_)
    rw [hcell, h.tail, Function.update_of_ne (r.cell_ne (List.mem_range.mp hk) hroom)]
  · rw [hcell, h.tail, Function.update_self]

theorem Ring.contents_drop {r : Ring n α} (hne : 0 < r.count) : r.contents = r.buf r.head :: r.drop.contents := by
  obtain ⟨k, hk⟩ : ∃ k, r.count = k + 1 := ⟨r.count - 1, (Nat.sub_add_cancel hne).symm⟩
  have hcount : r.drop.count = k := by
    have hdrop : r.drop.count = r.count - 1 := rfl
    rw [hdrop, hk, Nat.add_sub_cancel]
  unfold Ring.contents
  rw [hk, List.range_succ_eq_map, List.map_cons, List.map_map, r.cell_zero, hcount]
  congr 1
  refine List.map_congr_left (fun j _ => ?_)
  rw [r.drop_cell]
  rfl

end BaSic.Lib
