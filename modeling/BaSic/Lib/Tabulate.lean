import Mathlib

namespace BaSic.Lib

variable {α : Type*}

/-- The values of a function at `0`, …, `n - 1`. -/
def tabulate (n : Nat) (f : Nat → α) : List α := (List.range n).map f

variable {n m k : Nat} {f g : Nat → α} {a : α}

@[simp] theorem length_tabulate : (tabulate n f).length = n := by
  unfold tabulate
  rw [List.length_map, List.length_range]

theorem tabulate_get? (i : Nat) : (tabulate n f)[i]? = if i < n then some (f i) else none := by
  unfold tabulate
  rw [List.getElem?_map]
  split_ifs with hi
  · rw [List.getElem?_range hi]
    rfl
  · rw [List.getElem?_eq_none (by simpa using hi)]
    rfl

theorem tabulate_getD {i : Nat} (hi : i < n) (a : α) : (tabulate n f).getD i a = f i := by
  rw [List.getD_eq_getElem?_getD, tabulate_get?, if_pos hi]
  rfl

theorem mem_tabulate : a ∈ tabulate n f ↔ ∃ i, i < n ∧ f i = a := by
  unfold tabulate
  simp only [List.mem_map, List.mem_range]

theorem tabulate_congr (h : ∀ i, i < n → f i = g i) : tabulate n f = tabulate n g := by
  refine List.ext_getElem? (fun i => ?_)
  rw [tabulate_get?, tabulate_get?]
  split_ifs with hi
  · rw [h i hi]
  · rfl

/-- A value changed in one place. -/
theorem tabulate_set (h : ∀ i, i < n → i ≠ k → g i = f i) (hk : g k = a) : tabulate n g = (tabulate n f).set k a := by
  refine List.ext_getElem? (fun i => ?_)
  rw [List.getElem?_set, tabulate_get?, tabulate_get?, length_tabulate]
  by_cases hik : k = i
  · subst hik
    rw [if_pos rfl, hk]
  · rw [if_neg hik]
    split_ifs with hi
    · rw [h i hi (Ne.symm hik)]
    · rfl

/-- A value put in, and those behind it moved on by one. -/
theorem tabulate_insert (hk : k ≤ n) (hbefore : ∀ i, i < k → g i = f i) (hat : g k = a)
    (hafter : ∀ i, k ≤ i → i < n → g (i + 1) = f i) : tabulate (n + 1) g = (tabulate n f).insertIdx k a := by
  refine List.ext_getElem? (fun i => ?_)
  rw [List.getElem?_insertIdx, tabulate_get?, tabulate_get?, length_tabulate]
  rcases lt_trichotomy i k with hi | hi | hi
  · rw [if_pos hi, if_pos (by omega), if_pos (by omega), hbefore i hi]
  · subst hi
    rw [if_neg (Nat.lt_irrefl _), if_pos rfl, if_pos hk, if_pos (by omega), hat]
  · obtain ⟨i, rfl⟩ : ∃ j, i = j + 1 := ⟨i - 1, by omega⟩
    have hlt : ¬ i + 1 < k := by omega
    have hne : ¬ i + 1 = k := by omega
    rw [if_neg hlt, if_neg hne, tabulate_get?, Nat.add_sub_cancel]
    by_cases hin : i < n
    · rw [if_pos (by omega), if_pos hin, hafter i (by omega) hin]
    · rw [if_neg (by omega), if_neg hin]

/-- A value taken out, and those behind it moved back by one. -/
theorem tabulate_erase (hk : k ≤ n) (hbefore : ∀ i, i < k → g i = f i)
    (hafter : ∀ i, k ≤ i → i < n → g i = f (i + 1)) : tabulate n g = (tabulate (n + 1) f).eraseIdx k := by
  refine List.ext_getElem? (fun i => ?_)
  rw [List.getElem?_eraseIdx, tabulate_get?, tabulate_get?]
  by_cases hi : i < k
  · rw [if_pos hi, if_pos (by omega), if_pos (by omega), hbefore i hi]
  · rw [if_neg hi, tabulate_get?]
    by_cases hin : i < n
    · rw [if_pos hin, if_pos (by omega), hafter i (by omega) hin]
    · rw [if_neg hin, if_neg (by omega)]

theorem tabulate_append : tabulate (n + m) f = tabulate n f ++ tabulate m (fun i => f (n + i)) := by
  unfold tabulate
  rw [List.range_add, List.map_append, List.map_map]
  rfl

theorem tabulate_succ : tabulate (n + 1) f = f 0 :: tabulate n (fun i => f (i + 1)) := by
  unfold tabulate
  rw [List.range_succ_eq_map, List.map_cons, List.map_map]
  rfl

theorem tabulate_succ_last : tabulate (n + 1) f = tabulate n f ++ [f n] := tabulate_append

theorem tabulate_take (hk : k ≤ n) : (tabulate n f).take k = tabulate k f := by
  obtain ⟨m, rfl⟩ := Nat.exists_eq_add_of_le hk
  rw [tabulate_append, List.take_left' length_tabulate]

theorem tabulate_drop (hk : k ≤ n) : (tabulate n f).drop k = tabulate (n - k) (fun i => f (k + i)) := by
  obtain ⟨m, rfl⟩ := Nat.exists_eq_add_of_le hk
  rw [tabulate_append, List.drop_left' length_tabulate, Nat.add_sub_cancel_left]

/-- The `k` values up to index `i` are those of the places before. -/
def moveOn (f : Int → α) (i : Int) (k : Nat) : Int → α := fun j => if i - k < j ∧ j ≤ i then f (j - 1) else f j

/-- The `k` values from index `i` on are those of the places after. -/
def moveBack (f : Int → α) (i : Int) (k : Nat) : Int → α := fun j => if i ≤ j ∧ j < i + k then f (j + 1) else f j

variable {v : Int → α} {i j : Int}

theorem move_on_zero (v : Int → α) (i : Int) : moveOn v i 0 = v := by
  funext j
  unfold moveOn
  rw [if_neg (by omega)]

theorem move_back_zero (v : Int → α) (i : Int) : moveBack v i 0 = v := by
  funext j
  unfold moveBack
  rw [if_neg (by omega)]

/-- One value moved, and then the others before it. -/
theorem move_on_succ (v : Int → α) (i : Int) (k : Nat) :
    moveOn (Function.update v i (v (i - 1))) (i - 1) k = moveOn v i (k + 1) := by
  funext j
  unfold moveOn
  by_cases hj : j = i
  · subst hj
    rw [if_neg (by omega), if_pos (by omega), Function.update_self]
  · rw [Function.update_of_ne hj]
    by_cases hin : i - 1 - k < j ∧ j ≤ i - 1
    · rw [if_pos hin, if_pos (by omega), Function.update_of_ne (by omega)]
    · rw [if_neg hin, if_neg (by omega)]

/-- One value moved, and then the others behind it. -/
theorem move_back_succ (v : Int → α) (i : Int) (k : Nat) :
    moveBack (Function.update v i (v (i + 1))) (i + 1) k = moveBack v i (k + 1) := by
  funext j
  unfold moveBack
  by_cases hj : j = i
  · subst hj
    rw [if_neg (by omega), if_pos (by omega), Function.update_self]
  · rw [Function.update_of_ne hj]
    by_cases hin : i + 1 ≤ j ∧ j < i + 1 + k
    · rw [if_pos hin, if_pos (by omega), Function.update_of_ne (by omega)]
    · rw [if_neg hin, if_neg (by omega)]

theorem move_on_in (h₀ : i - k < j) (h₁ : j ≤ i) : moveOn v i k j = v (j - 1) := if_pos ⟨h₀, h₁⟩

theorem move_on_out (h : j ≤ i - k ∨ i < j) : moveOn v i k j = v j := if_neg (by omega)

theorem move_back_in (h₀ : i ≤ j) (h₁ : j < i + k) : moveBack v i k j = v (j + 1) := if_pos ⟨h₀, h₁⟩

theorem move_back_out (h : j < i ∨ i + k ≤ j) : moveBack v i k j = v j := if_neg (by omega)

end BaSic.Lib
