import Mathlib

namespace BaSic.Lib

/-- `for (i = 0; i < n; i++)` over a body that may fail. -/
def forRange {σ ε : Type*} (n : Nat) (body : Nat → σ → Except ε σ) (s : σ) : Except ε σ :=
  (List.range n).foldlM (fun s i => body i s) s

variable {σ ε : Type*} {n : Nat} {body : Nat → σ → Except ε σ} {s t : σ}

theorem for_range_succ (h : forRange n body s = .ok t) : forRange (n + 1) body s = body n t := by
  unfold forRange at h ⊢
  rw [List.range_succ, List.foldlM_append, h]
  cases hbody : body n t <;> simp [bind, Except.bind, pure, Except.pure, hbody]

/-- An invariant that every turn keeps holds when the loop is through. -/
theorem for_range_rule {I : Nat → σ → Prop} (hstart : I 0 s)
    (hturn : ∀ i s, i < n → I i s → ∃ t, body i s = .ok t ∧ I (i + 1) t) :
    ∃ t, forRange n body s = .ok t ∧ I n t := by
  induction n with
  | zero => exact ⟨s, rfl, hstart⟩
  | succ n ih =>
    obtain ⟨t, ht, hI⟩ := ih (fun i s hi => hturn i s (Nat.lt_succ_of_lt hi))
    obtain ⟨u, hu, hJ⟩ := hturn n t (Nat.lt_succ_self n) hI
    exact ⟨u, by rw [for_range_succ ht, hu], hJ⟩

end BaSic.Lib
