import Mathlib

namespace BaSic.Lib

variable {α β : Type*} [LinearOrder α] [LinearOrder β] {P Q : α → Prop} {k : α} {r r' : Option α}

/-- What a search should find: the least of a kind, if there is one. -/
def IsFirst (P : α → Prop) : Option α → Prop
  | none => ∀ a, ¬ P a
  | some a => P a ∧ ∀ b, P b → a ≤ b

theorem IsFirst.congr (h : IsFirst P r) (hsame : ∀ a, Q a ↔ P a) : IsFirst Q r := by
  cases r with
  | none => exact fun a hq => h a ((hsame a).mp hq)
  | some a => exact ⟨(hsame a).mpr h.1, fun b hq => h.2 b ((hsame b).mp hq)⟩

/-- One search after the other, for what is greater. -/
theorem IsFirst.or (h : IsFirst P r) (h' : IsFirst Q r') (hle : ∀ a b, P a → Q b → a ≤ b) :
    IsFirst (fun a => P a ∨ Q a) (r.or r') := by
  cases r with
  | none => exact h'.congr (fun a => by simp [h a])
  | some a =>
    refine ⟨Or.inl h.1, fun b hb => ?_⟩
    cases hb with
    | inl hp => exact h.2 b hp
    | inr hq => exact hle a b h.1 hq

theorem IsFirst.map {f : α → β} (hmono : Monotone f) (h : IsFirst P r) :
    IsFirst (fun b => ∃ a, P a ∧ f a = b) (r.map f) := by
  cases r with
  | none =>
    rintro b ⟨a, hp, -⟩
    exact h a hp
  | some a =>
    refine ⟨⟨a, h.1, rfl⟩, ?_⟩
    rintro b ⟨c, hp, rfl⟩
    exact hmono (h.2 c hp)

/-- In a round that begins right behind `k` and ends with it, `a` comes no later than `b`. -/
def NoLater (k a b : α) : Prop := k < a ∧ b ≤ k ∨ (k < a ↔ k < b) ∧ a ≤ b

/-- What a search that goes round should find. -/
def IsFirstOfRound (k : α) (P : α → Prop) : Option α → Prop
  | none => ∀ a, ¬ P a
  | some a => P a ∧ ∀ b, P b → NoLater k a b

/-- A search behind `k`, then one up to it that misses some, `C`, which come last there, is right if and
only if not all there are are missed. -/
theorem round_iff {C : α → Prop} (h : IsFirst (fun a => P a ∧ k < a) r)
    (h' : IsFirst (fun a => P a ∧ a ≤ k ∧ ¬ C a) r') (hbefore : ∀ a, C a → a ≤ k)
    (hlast : ∀ a b, P a → a ≤ k → ¬ C a → C b → a ≤ b) :
    IsFirstOfRound k P (r.or r') ↔ (∀ a, ¬ P a) ∨ ∃ a, P a ∧ ¬ C a := by
  cases r with
  | some a =>
    obtain ⟨⟨hp, hbehind⟩, hleast⟩ := h
    refine iff_of_true ⟨hp, fun b hb => ?_⟩ (Or.inr ⟨a, hp, fun hc => absurd (hbefore a hc) (not_le.mpr hbehind)⟩)
    cases lt_or_ge k b with
    | inl hlt => exact Or.inr ⟨iff_of_true hbehind hlt, hleast b ⟨hb, hlt⟩⟩
    | inr hle => exact Or.inl ⟨hbehind, hle⟩
  | none =>
    have hnone : ∀ a, P a → a ≤ k := fun a hp => not_lt.mp (fun hlt => h a ⟨hp, hlt⟩)
    cases r' with
    | some a =>
      obtain ⟨⟨hp, hle, hseen⟩, hleast⟩ := h'
      refine iff_of_true ⟨hp, fun b hb => Or.inr ⟨?_, ?_⟩⟩ (Or.inr ⟨a, hp, hseen⟩)
      · exact iff_of_false (not_lt.mpr hle) (not_lt.mpr (hnone b hb))
      · by_cases hc : C b
        · exact hlast a b hp hle hseen hc
        · exact hleast b ⟨hb, hnone b hb, hc⟩
    | none =>
      refine ⟨Or.inl, ?_⟩
      rintro (hno | ⟨a, hp, hseen⟩)
      · exact hno
      · exact absurd ⟨hp, hnone a hp, hseen⟩ (h' a)

end BaSic.Lib
