import Mathlib

namespace BaSic.Lib

/-- The intervals (start and length) follow one another from `a` exactly to `e`. -/
def Tiles : Nat → List (Nat × Nat) → Nat → Prop
  | a, [], e => a = e
  | a, (s, n) :: l, e => a = s ∧ Tiles (a + n) l e

variable {a e : Nat} {l : List (Nat × Nat)}

theorem Tiles.le (h : Tiles a l e) : a ≤ e := by
  induction l generalizing a with
  | nil => exact Nat.le_of_eq h
  | cons x l ih => exact Nat.le_trans (Nat.le_add_right a x.2) (ih h.2)

theorem Tiles.bounds (h : Tiles a l e) {s n : Nat} (hm : (s, n) ∈ l) : a ≤ s ∧ s + n ≤ e := by
  induction l generalizing a with
  | nil => simp at hm
  | cons x l ih =>
    obtain ⟨rfl, ht⟩ := h
    rcases List.mem_cons.mp hm with rfl | hm
    · exact ⟨Nat.le_refl _, ht.le⟩
    · have hb := ih ht hm
      omega

/-- Two tiles with different starts do not overlap. -/
theorem Tiles.apart (h : Tiles a l e) {s n t k : Nat} (hs : (s, n) ∈ l) (ht : (t, k) ∈ l)
    (hne : s ≠ t) : s + n ≤ t ∨ t + k ≤ s := by
  induction l generalizing a with
  | nil => simp at hs
  | cons x l ih =>
    obtain ⟨rfl, htail⟩ := h
    rcases List.mem_cons.mp hs with rfl | hs <;> rcases List.mem_cons.mp ht with he | ht
    · exact absurd (congrArg Prod.fst he).symm hne
    · exact Or.inl (htail.bounds ht).1
    · rw [← he] at htail
      exact Or.inr (htail.bounds hs).1
    · exact ih htail hs ht

section Stretches

/-- `run` is a stretch of neighbours with property `P` that cannot be extended. -/
structure Stretch {α : Type*} (P : α → Prop) (l run : List α) : Prop where
  nonempty : run ≠ []
  all : ∀ x ∈ run, P x
  maximal : ∃ pre post, l = pre ++ run ++ post ∧ (∀ x ∈ pre.getLast?, ¬ P x) ∧ ∀ x ∈ post.head?, ¬ P x

variable {α : Type*} {P : α → Prop} {l run : List α}

/-- Where no two neighbours have the property, stretches are single elements. -/
theorem Stretch.single (h : Stretch P l run) (hl : l.IsChain (fun x y => ¬ (P x ∧ P y))) :
    ∃ x ∈ l, P x ∧ run = [x] := by
  obtain ⟨hne, hall, pre, post, rfl, -, -⟩ := h
  cases run with
  | nil => exact absurd rfl hne
  | cons x run =>
    cases run with
    | nil => exact ⟨x, by simp, hall x (by simp), rfl⟩
    | cons y run =>
      have hxy := (List.isChain_append.mp (List.isChain_append.mp hl).1).2.1
      rw [List.isChain_cons_cons] at hxy
      exact absurd ⟨hall x (by simp), hall y (by simp)⟩ hxy.1

theorem stretch_of_mem (hl : l.IsChain (fun x y => ¬ (P x ∧ P y))) {x : α} (hx : x ∈ l) (hP : P x) :
    Stretch P l [x] := by
  obtain ⟨pre, post, rfl⟩ := List.append_of_mem hx
  obtain ⟨-, hpost, hpre⟩ := List.isChain_append.mp hl
  refine ⟨by simp, by simpa using hP, pre, post, by simp, ?_, ?_⟩
  · intro y hy hPy
    exact hpre y hy x (by simp) ⟨hPy, hP⟩
  · intro y hy hPy
    cases post with
    | nil => simp at hy
    | cons z post =>
      simp only [List.head?_cons, Option.mem_some_iff] at hy
      rw [List.isChain_cons_cons] at hpost
      exact hpost.1 ⟨hP, hy ▸ hPy⟩

end Stretches

end BaSic.Lib
