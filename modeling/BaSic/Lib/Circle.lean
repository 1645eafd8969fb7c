import Mathlib

namespace BaSic.Lib.Circle

variable {n : Nat} [NeZero n] {s a b : Fin n} {p : Fin n → Bool}

/-- How many places after `s` one comes to `i`, going round. -/
def around (s i : Fin n) : Nat := (i - s).val

/-- The places in the order in which one comes to them from `s` on. -/
def circleFrom (s : Fin n) : List (Fin n) := (List.finRange n).map (fun i => s + i)

theorem around_inj (h : around s a = around s b) : a = b := sub_left_injective (Fin.val_injective h)

theorem circle_get (s : Fin n) {k : Nat} (hk : k < (circleFrom s).length) :
    around s ((circleFrom s)[k]) = k := by
  simp [around, circleFrom]

/-- Seen from the place behind `a`, whatever comes after `a` is that much nearer. -/
theorem around_after (h : around s a < around s b) : around s b = around s a + 1 + around (a + 1) b := by
  have hlt : around s b < n := (b - s).isLt
  have hone : (a - s + 1).val = around s a + 1 := by
    rw [Fin.val_add_one_of_lt']
    · rfl
    · exact Nat.lt_of_le_of_lt h hlt
  have hle : a - s + 1 ≤ b - s := by
    rw [Fin.le_def, hone]
    exact h
  have hsub : around (a + 1) b = around s b - (around s a + 1) := by
    rw [← hone]
    unfold around
    rw [← Fin.sub_val_of_le hle]
    congr 1
    abel
  omega

/-- A search round the circle finds the nearest place that will do. -/
theorem find_circle (h : (circleFrom s).find? p = some a) :
    p a = true ∧ ∀ b, p b = true → around s a ≤ around s b := by
  obtain ⟨ha, k, hk, hget, hbefore⟩ := List.find?_eq_some_iff_getElem.mp h
  have hak : around s a = k := by
    rw [← hget]
    exact circle_get s hk
  refine ⟨ha, fun b hb => ?_⟩
  by_contra hlt
  rw [hak, Nat.not_le] at hlt
  have hlen : around s b < (circleFrom s).length := hlt.trans hk
  have hb' : (circleFrom s)[around s b] = b := around_inj (circle_get s hlen)
  have hno := hbefore (around s b) hlt
  rw [hb', hb] at hno
  cases hno

theorem mem_circle_from (s i : Fin n) : i ∈ circleFrom s :=
  List.mem_map.mpr ⟨i - s, List.mem_finRange _, add_sub_cancel s i⟩

end BaSic.Lib.Circle
