import BaSic.Lib.Bubble
import BaSic.Proofs.TextLines

namespace BaSic.Proofs.SortFile
open Kernel Fs Lib FileSizes TextFeed TextRows TextLines

variable {H : Type} {s : Shell H} {path a b : List UInt8} {before rows l : List (List UInt8)} {node k : Nat}
  {table : SortTable}

/-- What `strncpy` takes from a row. -/
theorem row_source {i : Nat} {row : List UInt8} (h : Has table rows) (hrow : rows[i]? = some row) :
    text (table.rows i) 127 = row := by
  obtain ⟨hholds, hnul, hlen⟩ := h i row hrow
  exact text_from_of_holds hholds hnul hlen

/-- Two rows are swapped if they are out of order, through an array that need not end in a NUL. -/
theorem swap_rows_has (tmp2 : CharArray) (h : Has table (before ++ a :: b :: l)) :
    ∃ t, swapRows tmp2 table before.length = .ok t ∧
      Has t (before ++ if key b < key a then b :: a :: l else a :: b :: l) := by
  have hfirst : (before ++ a :: b :: l)[before.length]? = some a := by simp
  have hsecond : (before ++ a :: b :: l)[before.length + 1]? = some b := by simp
  obtain ⟨ha, hanul, halen⟩ := h _ _ hfirst
  obtain ⟨hb, hbnul, hblen⟩ := h _ _ hsecond
  obtain ⟨d, hd, -, hlt⟩ := streq_holds ha hb hanul hbnul (by omega)
  unfold swapRows
  by_cases hswap : key b < key a
  · have hpos : d > 0 := hlt.mpr hswap
    simp only [hd, ok_bind, hpos, if_true, hswap, row_source h hfirst, row_source h hsecond,
      copy_row_source tmp2 halen hanul]
    refine ⟨_, rfl, ?_⟩
    have hboth := (h.set before.length hbnul hblen).set (before.length + 1) hanul halen
    simpa using hboth
  · have hneg : ¬ d > 0 := fun hpos => hswap (hlt.mp hpos)
    simp only [hd, ok_bind, hneg, if_false, hswap]
    exact ⟨table, rfl, h⟩

/-- The inner loop is a pass over the rows from where it begins. -/
theorem sweep_rows_has (tmp2 : CharArray) (h : Has table (before ++ l)) (hk : k < l.length) :
    ∃ t, sweepRows tmp2 table before.length k = .ok t ∧ Has t (before ++ bubblePass key k l) := by
  induction k generalizing before l table with
  | zero =>
    refine ⟨table, rfl, ?_⟩
    cases l with
    | nil => simpa [bubblePass] using h
    | cons a l => simpa [bubblePass] using h
  | succ k ih =>
    rcases l with _ | ⟨a, _ | ⟨b, l⟩⟩
    · simp at hk
    · simp at hk
    · simp only [List.length_cons] at hk
      obtain ⟨t, hswap, ht⟩ := swap_rows_has tmp2 h
      simp only [sweepRows, hswap, ok_bind, bubblePass]
      split at ht
      · rename_i hlt
        obtain ⟨t', hsweep, ht'⟩ := @ih (before ++ [b]) (a :: l) t (by simpa using ht) (by simp; omega)
        refine ⟨t', by simpa using hsweep, by simpa [hlt] using ht'⟩
      · rename_i hle
        obtain ⟨t', hsweep, ht'⟩ := @ih (before ++ [a]) (b :: l) t (by simpa using ht) (by simp; omega)
        refine ⟨t', by simpa using hsweep, by simpa [hle] using ht'⟩

theorem sort_rows_has (tmp2 : CharArray) (h : Has table l) (hk : k ≤ l.length - 1) :
    ∃ t, sortRows tmp2 table k = .ok t ∧ Has t (bubble key k l) := by
  induction k generalizing l table with
  | zero => exact ⟨table, rfl, h⟩
  | succ k ih =>
    obtain ⟨t, hsweep, ht⟩ := @sweep_rows_has [] l (k + 1) table tmp2 h (by omega)
    obtain ⟨t', hsort, ht'⟩ := ih ht (by simp [bubble_pass_length]; omega)
    refine ⟨t', ?_, ht'⟩
    simp only [List.length_nil] at hsweep
    simp [sortRows, hsweep, hsort]

/-- `sort` prints the lines of a file, each cut to what a row has room for, in order. -/
theorem sort_prints_sorted (tmp2 : CharArray) (table : SortTable) (hleads : LeadsTo s path node)
    (hsized : Sized s.files.fs) (hnul : (0 : UInt8) ∉ fileBytes s.files.fs node)
    (hmost : (parts 10 (fileBytes s.files.fs node)).length ≤ 64) :
    ∃ out, cmdSort tmp2 table s path = .ok out ∧
      out.Perm ((parts 10 (fileBytes s.files.fs node)).map (List.take 127)) ∧
        out.Pairwise (fun a b => key a ≤ key b) := by
  obtain ⟨lines, part, hcut⟩ := exists_lines hnul (fun _ => part_length_le) hmost
  obtain ⟨t, hread, hcount, hrows⟩ := sort_read_has hsized table (Nat.le_refl 64) hcut
  rw [← List.length_map (List.take 127)] at hcount
  obtain ⟨t', hsort, ht'⟩ := sort_rows_has tmp2 hrows (Nat.le_refl _)
  have hperm := bubble_perm key (((parts 10 (fileBytes s.files.fs node)).map (List.take 127)).length - 1)
    ((parts 10 (fileBytes s.files.fs node)).map (List.take 127))
  refine ⟨_, ?_, hperm, bubble_sorts key _⟩
  have hprint := print_rows_has (i := 0) fun j row hrow => by simpa using ht' j row hrow
  rw [hperm.length_eq] at hprint
  unfold cmdSort sortFile
  simp only [on_file_eq hleads, hread, ok_bind, hcount, hsort, hprint]

/-- The two lines of `/etc/motd`, of which the second comes first. -/
theorem sort_prints_motd : ∃ out, cmdSort (fun _ => 0) noTable ⟨mountRamfs everyBlock (), rootPath, rootPath⟩
    (bytes "/etc/motd") = .ok out ∧
      out.Perm ((parts 10 (fileBytes (mountRamfs everyBlock ()).fs 3)).map (List.take 127)) ∧
        out.Pairwise (fun a b => key a ≤ key b) :=
  sort_prints_sorted (s := ⟨mountRamfs everyBlock (), rootPath, rootPath⟩) _ _
    motd_leads (mount_sized everyBlock ()) (by rw [motd_bytes]; decide +kernel) (by rw [motd_bytes]; decide +kernel)

end BaSic.Proofs.SortFile
