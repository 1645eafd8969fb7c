import Mathlib

namespace BaSic.Lib

variable {α : Type*}

section Joined
variable {sep : α} {part : List α} {lines : List (List α)}

/-- Each line with a separator behind it. -/
def terminated (sep : α) (lines : List (List α)) : List α := lines.flatMap (· ++ [sep])

@[simp] theorem terminated_nil (sep : α) : terminated sep [] = [] := rfl

@[simp] theorem terminated_cons (sep : α) (line : List α) (lines : List (List α)) :
    terminated sep (line :: lines) = line ++ sep :: terminated sep lines := by
  simp [terminated]

theorem terminated_append (sep : α) (lines more : List (List α)) :
    terminated sep (lines ++ more) = terminated sep lines ++ terminated sep more := List.flatMap_append

/-- A text is lines and the part of one that has no separator yet. -/
theorem exists_cut (sep : α) (text : List α) : ∃ lines part, text = terminated sep lines ++ part ∧
    (∀ line ∈ lines, sep ∉ line) ∧ sep ∉ part := by
  classical
  induction text with
  | nil => exact ⟨[], [], by simp⟩
  | cons a text ih =>
    obtain ⟨lines, part, rfl, hlines, hpart⟩ := ih
    by_cases ha : a = sep
    · refine ⟨[] :: lines, part, by simp [ha], ?_, hpart⟩
      simpa using hlines
    · cases lines with
      | nil =>
        refine ⟨[], a :: part, by simp, by simp, ?_⟩
        simpa [Ne.symm ha] using hpart
      | cons line lines =>
        refine ⟨(a :: line) :: lines, part, by simp, ?_, hpart⟩
        simpa [Ne.symm ha] using hlines

/-- A text with lines ends with a separator, if nothing has been begun behind them. -/
theorem ends_iff (hpart : sep ∉ part) :
    (terminated sep lines ++ part).getLast? = some sep ↔ part = [] ∧ lines ≠ [] := by
  cases List.eq_nil_or_concat' part with
  | inl hnil =>
    subst hnil
    cases List.eq_nil_or_concat' lines with
    | inl hnone => simp [hnone]
    | inr hsome =>
      obtain ⟨lines, line, rfl⟩ := hsome
      simp [terminated_append]
  | inr hsome =>
    obtain ⟨part, a, rfl⟩ := hsome
    simp only [List.mem_append, List.mem_singleton, not_or] at hpart
    simp [← List.append_assoc, Ne.symm hpart.2]

end Joined

section Every
variable {n : Nat} {l : List α}

/-- A list cut behind every `n` elements. -/
def cutEvery (n : Nat) (l : List α) : List (List α) :=
  if 0 < n ∧ n < l.length then l.take n :: cutEvery n (l.drop n) else [l]
termination_by l.length
decreasing_by
  rw [List.length_drop]
  omega

theorem cut_every_short (h : l.length ≤ n) : cutEvery n l = [l] := by
  rw [cutEvery, if_neg (by omega)]

theorem cut_every_long (hn : 0 < n) (h : n < l.length) : cutEvery n l = l.take n :: cutEvery n (l.drop n) := by
  rw [cutEvery, if_pos ⟨hn, h⟩]

end Every

variable [DecidableEq α] {sep : α} {part : List α} {lines : List (List α)}

/-- What stands between separators; behind the last one nothing counts as no part. -/
def parts (sep : α) (text : List α) : List (List α) :=
  let pieces := text.splitOn sep
  if pieces.getLast? = some [] then pieces.dropLast else pieces

theorem split_terminated (hlines : ∀ line ∈ lines, sep ∉ line) (hpart : sep ∉ part) :
    (terminated sep lines ++ part).splitOn sep = lines ++ [part] := by
  induction lines with
  | nil => simpa using List.splitOn_eq_singleton hpart
  | cons line lines ih =>
    simp only [List.forall_mem_cons] at hlines
    simp [List.splitOn_append_cons_self_of_not_mem hlines.1, ih hlines.2]

/-- The parts of a text are its lines, and what has been begun behind them. -/
theorem parts_terminated (hlines : ∀ line ∈ lines, sep ∉ line) (hpart : sep ∉ part) :
    parts sep (terminated sep lines ++ part) = lines ++ if part = [] then [] else [part] := by
  simp only [parts, split_terminated hlines hpart, List.getLast?_concat, Option.some.injEq, List.dropLast_concat]
  split
  · simp
  · simp

theorem part_length_le {line text : List α} (h : line ∈ parts sep text) : line.length ≤ text.length := by
  obtain ⟨lines, part, rfl, hlines, hpart⟩ := exists_cut sep text
  rw [parts_terminated hlines hpart] at h
  rw [List.length_append]
  rcases List.mem_append.mp h with hended | hbegun
  · have hsub : (line ++ [sep]).Sublist (terminated sep lines) :=
      List.sublist_flatten_of_mem (List.mem_map_of_mem hended)
    have hle := hsub.length_le
    simp only [List.length_append, List.length_singleton] at hle
    omega
  · split at hbegun
    · simp at hbegun
    · rw [List.mem_singleton.mp hbegun]
      omega

theorem parts_nil (sep : α) : parts sep [] = [] := by
  simp [parts, List.splitOn_nil]

/-- The first part is what stands before the first separator. -/
theorem parts_cons (hpart : sep ∉ part) (text : List α) :
    parts sep (part ++ sep :: text) = part :: parts sep text := by
  obtain ⟨lines, rest, rfl, hlines, hrest⟩ := exists_cut sep text
  have hmore : ∀ line ∈ part :: lines, sep ∉ line := by simpa [hpart] using hlines
  have hall := parts_terminated hmore hrest
  simpa [parts_terminated hlines hrest] using hall

/-- A text is its first part, with nothing behind it or a separator and the rest. -/
theorem first_part (sep : α) (text : List α) : ∃ part, text.takeWhile (· ≠ sep) = part ∧ sep ∉ part ∧
    (text = part ∨ ∃ rest, text = part ++ sep :: rest) := by
  refine ⟨_, rfl, ?_, ?_⟩
  · intro hmem
    have hne := List.mem_takeWhile_imp hmem
    simp at hne
  · have hall : text.takeWhile (· ≠ sep) ++ text.dropWhile (· ≠ sep) = text := List.takeWhile_append_dropWhile
    cases hrest : text.dropWhile (· ≠ sep) with
    | nil =>
      left
      rw [hrest, List.append_nil] at hall
      exact hall.symm
    | cons a rest =>
      right
      have hsome : text.dropWhile (· ≠ sep) ≠ [] := by
        rw [hrest]
        exact List.cons_ne_nil _ _
      have hnot := List.head_dropWhile_not _ hsome
      simp only [hrest, List.head_cons] at hnot
      obtain rfl : a = sep := by simpa using hnot
      rw [hrest] at hall
      exact ⟨rest, hall.symm⟩

theorem parts_single (hpart : sep ∉ part) (hsome : part ≠ []) : parts sep part = [part] := by
  have hall := @parts_terminated α _ sep part [] (by simp) hpart
  simpa [hsome] using hall

/-- Only its last element decides what a list without repetitions makes of one more. -/
theorem destutter_concat (l : List α) (a : α) : (l ++ [a]).destutter (· ≠ ·) =
    if l.getLast? = some a then l.destutter (· ≠ ·) else l.destutter (· ≠ ·) ++ [a] := by
  have hfrom : ∀ (l : List α) (b : α), (l ++ [a]).destutter' (· ≠ ·) b =
      if (b :: l).getLast? = some a then l.destutter' (· ≠ ·) b else l.destutter' (· ≠ ·) b ++ [a] := by
    intro l
    induction l with
    | nil =>
      intro b
      by_cases hb : b = a
      · simp [hb]
      · simp [hb]
    | cons c l ih =>
      intro b
      have hlast : (b :: c :: l).getLast? = (c :: l).getLast? := by simp
      rw [hlast]
      by_cases hb : b = c
      · subst hb
        simpa using ih b
      · have hkeeps : ∀ m : List α, (c :: m).destutter' (· ≠ ·) b = b :: m.destutter' (· ≠ ·) c :=
          fun m => List.destutter'_cons_pos m hb
        rw [List.cons_append, hkeeps, hkeeps, ih c]
        split
        · rfl
        · rfl
  cases l with
  | nil => simp
  | cons b l => exact hfrom l b

end BaSic.Lib
