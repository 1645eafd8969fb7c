import BaSic.Kernel.TextCmds

namespace BaSic.Proofs.TextRows
open Kernel

variable {line src s t : List UInt8} {a b row : CharArray} {c : UInt8} {i left : Nat}

theorem line_str_eq (hline : (0 : UInt8) ∉ line) : lineStr line = line := by
  apply List.takeWhile_eq_self_iff.mpr
  intro c hc
  have hne : c ≠ 0 := ne_of_mem_of_not_mem hc hline
  simp [hne]

theorem line_array_holds (line : List UInt8) : HoldsFrom (lineArray line) 0 line := by
  refine holds_from_iff.mpr ⟨?_, ?_⟩
  · intro j hj
    simp [lineArray]
  · simp [lineArray]

/-- What a line of 127 characters at most has become of longer text. -/
theorem add_char_cut (part : List UInt8) (c : UInt8) : addChar (part.take 127) c = (part ++ [c]).take 127 := by
  by_cases hroom : part.length < 127
  · have hlen : (part ++ [c]).length ≤ 127 := by simpa using hroom
    simp [addChar, List.take_of_length_le (Nat.le_of_lt hroom), hroom, List.take_of_length_le hlen]
  · rw [Nat.not_lt] at hroom
    simp [addChar, hroom, List.take_append_of_le_length]

/-- A copy has the string, if there is a NUL where its room ends. -/
theorem copy_row_holds (hsrc : src.length < 127 ∨ src.length = 127 ∧ row 127 = 0) :
    HoldsFrom (copyRow row src) 0 src := by
  refine holds_from_iff.mpr ⟨?_, ?_⟩
  · intro j hj
    have hin : 0 ≤ 0 + j ∧ 0 + j < 0 + 127 := by omega
    simp only [copyRow, strncpy_from_apply, if_pos hin]
    simp
  · simp only [copyRow, strncpy_from_apply]
    cases hsrc with
    | inl hshort => simp [hshort]
    | inr hfull => simp [hfull.1, hfull.2]

theorem text_from_congr {size : Nat} (h : ∀ j < size, a (i + j) = b (i + j)) : textFrom a i size = textFrom b i size := by
  induction size generalizing i with
  | zero => rfl
  | succ size ih =>
    have hfirst := h 0 (by omega)
    have hrest := @ih (i + 1) fun j hj => by
      have hnext := h (j + 1) (by omega)
      rwa [show i + (j + 1) = i + 1 + j by omega] at hnext
    rw [Nat.add_zero] at hfirst
    simp [textFrom, hfirst, hrest]

/-- What `strncpy` takes from a copy, which need not end in a NUL. -/
theorem copy_row_source (row : CharArray) (hlen : src.length ≤ 127) (hnul : (0 : UInt8) ∉ src) :
    text (copyRow row src) 127 = src := by
  have hsame : text (copyRow row src) 127 = text (copyRow (fun _ => 0) src) 127 := by
    apply text_from_congr
    intro j hj
    simp [copyRow, strncpy_from_apply, hj]
  have hholds : HoldsFrom (copyRow (fun _ => 0) src) 0 src := by
    apply copy_row_holds
    simpa using Nat.lt_or_eq_of_le hlen
  rw [hsame]
  exact text_from_of_holds hholds hnul hlen

theorem row_str_holds (h : HoldsFrom row 0 s) (hs : (0 : UInt8) ∉ s) (hlen : s.length < 128) : rowStr row = .ok s := by
  simp [rowStr, text_of_holds h hs hlen, hlen]

/-- The bytes of a string, as the numbers they are compared as. -/
def key (s : List UInt8) : List Nat := s.map UInt8.toNat

theorem streq_from_stops (h : ¬ (a i ≠ 0 ∧ a i = b i)) (left : Nat) :
    streqFrom a b i (left + 1) = .ok ((a i).toNat - (b i).toNat) := if_neg h

theorem streq_from_goes (h : a i ≠ 0 ∧ a i = b i) (left : Nat) :
    streqFrom a b i (left + 1) = streqFrom a b (i + 1) left := if_pos h

/-- `streq` tells whether two strings are the same, and which comes first. -/
theorem streq_from_holds (ha : HoldsFrom a i s) (hb : HoldsFrom b i t) (hs : (0 : UInt8) ∉ s)
    (ht : (0 : UInt8) ∉ t) (hleft : s.length < left) :
    ∃ d, streqFrom a b i left = .ok d ∧ (d = 0 ↔ s = t) ∧ (0 < d ↔ key t < key s) := by
  obtain ⟨left, rfl⟩ := Nat.exists_eq_succ_of_ne_zero (Nat.ne_of_gt (Nat.lt_of_le_of_lt (Nat.zero_le _) hleft))
  induction s generalizing i t left with
  | nil =>
    have hzero : a i = 0 := ha
    refine ⟨_, streq_from_stops (by simp [hzero]) left, ?_, ?_⟩
    · cases t with
      | nil =>
        have hb : b i = 0 := hb
        simp [hzero, hb]
      | cons c t =>
        simp only [List.mem_cons, not_or] at ht
        have hne : c.toNat ≠ 0 := fun h => ht.1 (UInt8.toNat_inj.mp h.symm)
        simp [hzero, hb.1, hne]
    · simp [hzero, key]
  | cons c s ih =>
    simp only [List.mem_cons, not_or, List.length_cons] at hs hleft
    have hc : c.toNat ≠ 0 := fun h => hs.1 (UInt8.toNat_inj.mp h.symm)
    cases t with
    | nil =>
      have hb : b i = 0 := hb
      have hne : a i ≠ b i := by simpa [ha.1, hb] using Ne.symm hs.1
      refine ⟨_, streq_from_stops (fun h => hne h.2) left, ?_, ?_⟩
      · simp [ha.1, hb, hc]
      · simp [ha.1, hb, key]
        omega
    | cons d t =>
      simp only [List.mem_cons, not_or] at ht
      by_cases hcd : c = d
      · subst hcd
        have hgoes : a i ≠ 0 ∧ a i = b i := ⟨ha.1 ▸ Ne.symm hs.1, ha.1.trans hb.1.symm⟩
        obtain ⟨left, rfl⟩ := Nat.exists_eq_succ_of_ne_zero (show left ≠ 0 by omega)
        obtain ⟨d, hrun, hsame, hlt⟩ := ih ha.2 hb.2 hs.2 ht.2 left (by omega)
        refine ⟨d, (streq_from_goes hgoes _).trans hrun, by simpa using hsame, ?_⟩
        simpa [key] using hlt
      · have hne : c.toNat ≠ d.toNat := fun h => hcd (UInt8.toNat_inj.mp h)
        refine ⟨_, streq_from_stops (by simp [ha.1, hb.1, hcd]) left, ?_, ?_⟩
        · simp [ha.1, hb.1, hcd]
          omega
        · simp [ha.1, hb.1, key, Ne.symm hne, List.cons_lt_cons_iff]

theorem streq_holds (ha : HoldsFrom a 0 s) (hb : HoldsFrom b 0 t) (hs : (0 : UInt8) ∉ s) (ht : (0 : UInt8) ∉ t)
    (hlen : s.length < 128) : ∃ d, streq a b = .ok d ∧ (d = 0 ↔ s = t) ∧ (0 < d ↔ key t < key s) :=
  streq_from_holds ha hb hs ht hlen

section Table
variable {table : SortTable} {rows : List (List UInt8)}

/-- The first rows of the table are these strings. -/
def Has (table : SortTable) (rows : List (List UInt8)) : Prop :=
  ∀ i row, rows[i]? = some row → HoldsFrom (table.rows i) 0 row ∧ (0 : UInt8) ∉ row ∧ row.length ≤ 127

theorem set_row_holds (table : SortTable) (i : Nat) (hlen : src.length ≤ 127) :
    HoldsFrom ((table.set i src).rows i) 0 src := by
  have hends : src.length < 127 ∨ src.length = 127 ∧ table.rows i 127 = 0 := by
    cases Nat.lt_or_eq_of_le hlen with
    | inl hshort => exact .inl hshort
    | inr hfull => exact .inr ⟨hfull, table.ended i⟩
  simpa [SortTable.set] using copy_row_holds hends

theorem set_row_other (table : SortTable) (src : List UInt8) {j : Nat} (hne : j ≠ i) :
    (table.set i src).rows j = table.rows j := by
  simp [SortTable.set, hne]

theorem Has.set (h : Has table rows) (i : Nat) (hnul : (0 : UInt8) ∉ src) (hlen : src.length ≤ 127) :
    Has (table.set i src) (rows.set i src) := by
  intro j row hrow
  by_cases hj : j = i
  · subst hj
    obtain ⟨-, rfl⟩ : j < rows.length ∧ src = row := by simpa [List.getElem?_set] using hrow
    exact ⟨set_row_holds table j hlen, hnul, hlen⟩
  · rw [List.getElem?_set_ne (Ne.symm hj)] at hrow
    rw [set_row_other table src hj]
    exact h j row hrow

theorem Has.append (h : Has table rows) (hnul : (0 : UInt8) ∉ src) (hlen : src.length ≤ 127) :
    Has (table.set rows.length src) (rows ++ [src]) := by
  intro j row hrow
  by_cases hj : j = rows.length
  · subst hj
    obtain rfl : src = row := by simpa using hrow
    exact ⟨set_row_holds table _ hlen, hnul, hlen⟩
  · have hlt : j < rows.length := by
      have hin := (List.getElem?_eq_some_iff.mp hrow).1
      simp only [List.length_append, List.length_singleton] at hin
      omega
    rw [List.getElem?_append_left hlt] at hrow
    rw [set_row_other table src hj]
    exact h j row hrow

/-- Rows that have strings are printed as these. -/
theorem print_rows_has (h : ∀ j row, rows[j]? = some row → HoldsFrom (table.rows (i + j)) 0 row ∧
    (0 : UInt8) ∉ row ∧ row.length ≤ 127) : printRows table i rows.length = .ok rows := by
  induction rows generalizing i with
  | nil => rfl
  | cons row rows ih =>
    obtain ⟨hholds, hnul, hlen⟩ := h 0 row rfl
    have hrest := ih (i := i + 1) fun j row hrow => by
      have hj := h (j + 1) row hrow
      rwa [show i + (j + 1) = i + 1 + j by omega] at hj
    have hrow := row_str_holds hholds hnul (by omega)
    rw [Nat.add_zero] at hrow
    simp [printRows, hrow, hrest]

end Table

end BaSic.Proofs.TextRows
