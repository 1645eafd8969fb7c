import Mathlib

namespace BaSic.Lib

variable {α β : Type*} [LinearOrder β] {key : α → β} {l front back : List α} {k : Nat}

/-- So many neighbours are compared, and swapped if they are out of order. -/
def bubblePass (key : α → β) : Nat → List α → List α
  | k + 1, a :: b :: l => if key b < key a then b :: bubblePass key k (a :: l) else a :: bubblePass key k (b :: l)
  | _, l => l

/-- Passes, each one comparison shorter. -/
def bubble (key : α → β) : Nat → List α → List α
  | 0, l => l
  | k + 1, l => bubble key k (bubblePass key (k + 1) l)

theorem bubble_pass_perm (key : α → β) (k : Nat) (l : List α) : (bubblePass key k l).Perm l := by
  induction k, l using bubblePass.induct key with
  | case1 k a b l hlt ih =>
    simp only [bubblePass, if_pos hlt]
    exact (ih.cons b).trans (List.Perm.swap a b l)
  | case2 k a b l hle ih =>
    simp only [bubblePass, if_neg hle]
    exact ih.cons a
  | case3 k l hshort => cases k <;> simp [bubblePass]

theorem bubble_pass_length (key : α → β) (k : Nat) (l : List α) : (bubblePass key k l).length = l.length :=
  (bubble_pass_perm key k l).length_eq

theorem bubble_perm (key : α → β) (k : Nat) (l : List α) : (bubble key k l).Perm l := by
  induction k generalizing l with
  | zero => exact List.Perm.refl l
  | succ k ih => exact (ih _).trans (bubble_pass_perm key (k + 1) l)

/-- A pass carries the greatest of the elements it goes over to their end. -/
theorem bubble_pass_greatest (key : α → β) (hfront : front.length = k + 1) (back : List α) :
    ∃ low last, bubblePass key k (front ++ back) = low ++ last :: back ∧ (low ++ [last]).Perm front ∧
      ∀ x ∈ front, key x ≤ key last := by
  induction k generalizing front with
  | zero =>
    obtain ⟨a, rfl⟩ := List.length_eq_one_iff.mp hfront
    exact ⟨[], a, by simp [bubblePass], by simp, by simp⟩
  | succ k ih =>
    match front, hfront with
    | a :: b :: front, hfront =>
      simp only [List.length_cons, Nat.add_right_cancel_iff] at hfront
      by_cases hlt : key b < key a
      · obtain ⟨low, last, hpass, hperm, hle⟩ := @ih (a :: front) (by simpa using hfront)
        refine ⟨b :: low, last, ?_, (hperm.cons b).trans (List.Perm.swap a b front), ?_⟩
        · simpa [bubblePass, hlt] using hpass
        · simp only [List.forall_mem_cons] at hle ⊢
          exact ⟨hle.1, (le_of_lt hlt).trans hle.1, hle.2⟩
      · obtain ⟨low, last, hpass, hperm, hle⟩ := @ih (b :: front) (by simpa using hfront)
        refine ⟨a :: low, last, ?_, hperm.cons a, ?_⟩
        · simpa [bubblePass, hlt] using hpass
        · simp only [List.forall_mem_cons] at hle ⊢
          exact ⟨(not_lt.mp hlt).trans hle.1, hle⟩

/-- What is behind the passes is in order already, and nothing before it is greater. -/
theorem bubble_pairwise (hfront : front.length = k + 1) (hback : back.Pairwise (fun x y => key x ≤ key y))
    (hbefore : ∀ x ∈ front, ∀ y ∈ back, key x ≤ key y) :
    (bubble key k (front ++ back)).Pairwise (fun x y => key x ≤ key y) := by
  induction k generalizing front back with
  | zero =>
    obtain ⟨a, rfl⟩ := List.length_eq_one_iff.mp hfront
    simpa [bubble, hback] using hbefore
  | succ k ih =>
    obtain ⟨low, last, hpass, hperm, hle⟩ := bubble_pass_greatest key hfront back
    have hmem : ∀ x ∈ low ++ [last], x ∈ front := fun x => hperm.mem_iff.mp
    rw [bubble, hpass]
    apply ih
    · have hlen := hperm.length_eq
      simp only [List.length_append, List.length_singleton] at hlen
      omega
    · simp only [List.pairwise_cons]
      exact ⟨hbefore last (hmem last (by simp)), hback⟩
    · intro x hx y hy
      rcases List.mem_cons.mp hy with rfl | hy
      · exact hle x (hmem x (by simp [hx]))
      · exact hbefore x (hmem x (by simp [hx])) y hy

/-- One pass for each element but the last puts a list in order. -/
theorem bubble_sorts (key : α → β) (l : List α) : (bubble key (l.length - 1) l).Pairwise (fun x y => key x ≤ key y) := by
  cases l with
  | nil => simp [bubble]
  | cons a l => simpa using @bubble_pairwise α β _ key (a :: l) [] l.length rfl (by simp) (by simp)

end BaSic.Lib
