import BaSic.Lib.Words

namespace BaSic.Lib

/-- A memory and the cells written so far, in the order of the writes. -/
structure Writing where
  mem : Mem
  cells : List Nat

namespace Writing

def put (w : Writing) (a : Nat) (c : UInt8) : Writing := ⟨Function.update w.mem a c, w.cells ++ [a]⟩

/-- The bytes go to the cells `addr i`, `addr (i + 1)`, … -/
def puts (w : Writing) (addr : Nat → Nat) (i : Nat) : List UInt8 → Writing
  | [] => w
  | c :: bytes => (w.put (addr i) c).puts addr (i + 1) bytes

variable {w : Writing} {addr : Nat → Nat} {a i j : Nat} {bytes more : List UInt8}

@[simp] theorem put_mem {c : UInt8} : (w.put a c).mem = Function.update w.mem a c := rfl

@[simp] theorem put_cells {c : UInt8} : (w.put a c).cells = w.cells ++ [a] := rfl

@[simp] theorem puts_nil : w.puts addr i [] = w := rfl

@[simp] theorem puts_cons {c : UInt8} : w.puts addr i (c :: bytes) = (w.put (addr i) c).puts addr (i + 1) bytes := rfl

theorem puts_append : w.puts addr i (bytes ++ more) = (w.puts addr i bytes).puts addr (i + bytes.length) more := by
  induction bytes generalizing w i with
  | nil => rfl
  | cons c bytes ih =>
    have hnext : i + (bytes.length + 1) = i + 1 + bytes.length := by omega
    rw [List.cons_append, puts_cons, ih, puts_cons, List.length_cons, hnext]

theorem puts_cells : (w.puts addr i bytes).cells = w.cells ++ (List.range' i bytes.length).map addr := by
  induction bytes generalizing w i with
  | nil => exact (List.append_nil _).symm
  | cons c bytes ih =>
    rw [puts_cons, ih, put_cells, List.length_cons, List.range'_succ, List.map_cons, List.append_assoc]
    rfl

/-- A cell that no byte goes to stays as it is. -/
theorem puts_outside (h : ∀ j, j < bytes.length → a ≠ addr (i + j)) : (w.puts addr i bytes).mem a = w.mem a := by
  induction bytes generalizing w i with
  | nil => rfl
  | cons c bytes ih =>
    have hrest : ∀ j, j < bytes.length → a ≠ addr (i + 1 + j) := by
      intro j hj
      rw [Nat.add_assoc, Nat.add_comm 1]
      exact h (j + 1) (Nat.succ_lt_succ hj)
    have hfirst : a ≠ addr i := h 0 (Nat.succ_pos _)
    rw [puts_cons, ih hrest, put_mem, Function.update_of_ne hfirst]

/-- Where no two bytes go to one cell, each is found where it went. -/
theorem puts_inside (hapart : ∀ j k, j < bytes.length → k < bytes.length → addr (i + j) = addr (i + k) → j = k)
    (hj : j < bytes.length) : (w.puts addr i bytes).mem (addr (i + j)) = bytes.getD j 0 := by
  induction bytes generalizing w i j with
  | nil => exact absurd hj (Nat.not_lt_zero j)
  | cons c bytes ih =>
    rw [puts_cons]
    cases j with
    | zero =>
      have hlater : ∀ k, k < bytes.length → addr (i + 0) ≠ addr (i + 1 + k) := by
        intro k hk hsame
        rw [Nat.add_assoc] at hsame
        have hzero := hapart 0 (1 + k) (Nat.succ_pos _) (by rw [List.length_cons]; omega) hsame
        omega
      rw [puts_outside hlater]
      exact Function.update_self ..
    | succ j =>
      have hnext : ∀ k, i + (k + 1) = i + 1 + k := fun k => by omega
      rw [hnext j, List.getD_cons_succ]
      refine ih (fun k l hk hl hsame => ?_) (Nat.lt_of_succ_lt_succ hj)
      rw [← hnext k, ← hnext l] at hsame
      exact Nat.succ_injective (hapart (k + 1) (l + 1) (Nat.succ_lt_succ hk) (Nat.succ_lt_succ hl) hsame)

end Writing
end BaSic.Lib
