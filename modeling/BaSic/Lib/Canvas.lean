import Mathlib

namespace BaSic.Lib

variable {ι α β : Type*}

/-- The places that are marked. -/
def places (marks : List (ι × α)) : List ι := marks.map Prod.fst

variable {s t : ι → α} {marks more : List (ι × α)} {i : ι} {a : α}

@[simp] theorem places_append : places (marks ++ more) = places marks ++ places more := List.map_append

theorem mem_places : i ∈ places marks ↔ ∃ m ∈ marks, m.1 = i := List.mem_map

theorem mem_places_flatMap {l : List β} {m : β → List (ι × α)} :
    i ∈ places (l.flatMap m) ↔ ∃ x ∈ l, i ∈ places (m x) := by
  simp only [mem_places, List.mem_flatMap]
  constructor
  · rintro ⟨k, ⟨x, hx, hk⟩, rfl⟩
    exact ⟨x, hx, k, hk, rfl⟩
  · rintro ⟨x, hx, k, hk, rfl⟩
    exact ⟨k, ⟨x, hx, hk⟩, rfl⟩

variable [DecidableEq ι]

/-- The marks are put on the canvas one after the other, a later one over an earlier. -/
def paint (s : ι → α) (marks : List (ι × α)) : ι → α := marks.foldl (fun s m => Function.update s m.1 m.2) s

@[simp] theorem paint_nil : paint s [] = s := rfl

@[simp] theorem paint_cons {m : ι × α} : paint s (m :: marks) = paint (Function.update s m.1 m.2) marks := rfl

theorem paint_append : paint s (marks ++ more) = paint (paint s marks) more := List.foldl_append

/-- What is drawn in parts is drawn as one list of marks. -/
theorem foldl_paint (l : List β) (m : β → List (ι × α)) (s : ι → α) :
    l.foldl (fun s x => paint s (m x)) s = paint s (l.flatMap m) := by
  induction l generalizing s with
  | nil => rfl
  | cons x l ih => rw [List.foldl_cons, ih, List.flatMap_cons, paint_append]

/-- A place without a mark stays as it is. -/
theorem paint_outside (h : i ∉ places marks) : paint s marks i = s i := by
  induction marks generalizing s with
  | nil => rfl
  | cons m marks ih =>
    have hm : i ≠ m.1 := fun he => h (he ▸ List.mem_cons_self)
    rw [paint_cons, ih (fun hi => h (List.mem_cons_of_mem _ hi)), Function.update_of_ne hm]

/-- What is under the marks does not matter. -/
theorem paint_congr (h : ∀ i, i ∉ places marks → s i = t i) : paint s marks = paint t marks := by
  induction marks generalizing s t with
  | nil => exact funext fun i => h i List.not_mem_nil
  | cons m marks ih =>
    rw [paint_cons, paint_cons]
    refine ih (fun i hi => ?_)
    by_cases him : i = m.1
    · rw [him, Function.update_self, Function.update_self]
    · rw [Function.update_of_ne him, Function.update_of_ne him]
      refine h i (fun hmem => ?_)
      rcases List.mem_cons.mp hmem with he | hrest
      · exact him he
      · exact hi hrest

/-- Marks put on again change nothing. -/
theorem paint_twice : paint (paint s marks) marks = paint s marks := paint_congr (fun _ hi => paint_outside hi)

/-- A place of equal marks shows them. -/
theorem paint_inside (hall : ∀ m ∈ marks, m.2 = a) (hi : i ∈ places marks) : paint s marks i = a := by
  induction marks generalizing s with
  | nil => exact absurd hi List.not_mem_nil
  | cons m marks ih =>
    rw [paint_cons]
    by_cases hrest : i ∈ places marks
    · exact ih (fun k hk => hall k (List.mem_cons_of_mem _ hk)) hrest
    · rw [paint_outside hrest]
      rcases List.mem_cons.mp hi with he | hmem
      · rw [he, Function.update_self]
        exact hall m List.mem_cons_self
      · exact absurd hmem hrest

end BaSic.Lib
