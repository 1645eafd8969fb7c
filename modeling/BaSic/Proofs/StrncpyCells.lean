import BaSic.CString
import BaSic.StrCopy

namespace BaSic.Proofs.StrncpyCells
open Lib Memory

/-- A NUL-terminated string in memory. -/
structure StringAt (m : Mem) (src : Nat) (s : List UInt8) : Prop where
  noNul : (0 : UInt8) ∉ s
  chars : ∀ j, j ≤ s.length → m (u32 (src + j)) = s.getD j 0

/-- What is written over a character of the string before it is copied is that character. -/
def Undisturbed (s : List UInt8) (dst src n : Nat) : Prop :=
  ∀ i j, i < j → j < n → j ≤ s.length → u32 (dst + i) = u32 (src + j) → s.getD i 0 = s.getD j 0

/-- The cells from `dst` on, of which there are `n`, are written, once each. They have the
characters of the string, and 0 behind them. -/
structure CopiesExactly (m : Mem) (dst src n : UInt32) (s : List UInt8) : Prop where
  cells : (Memory.strncpy m dst src n).2.cells = (List.range' dst.toNat n.toNat).map u32
  chars : ∀ j, j < n.toNat → (Memory.strncpy m dst src n).2.mem (u32 (dst.toNat + j)) = s.getD j 0
  rest : ∀ a, (∀ j, j < n.toNat → a ≠ u32 (dst.toNat + j)) → (Memory.strncpy m dst src n).2.mem a = m a

variable {m : Mem} {s : List UInt8} {dst src n i j : Nat}

/-- The first loop copies the string as far as there is room. -/
theorem copied_eq (hs : (0 : UInt8) ∉ s) (hat : ∀ j, j < n → j ≤ s.length → m (u32 (src + j)) = s.getD j 0)
    (h : Undisturbed s dst src n) : copied m dst src n = s.take n := by
  induction n generalizing m dst src s with
  | zero => rfl
  | succ n ih =>
    have hfirst := hat 0 (Nat.succ_pos n) (Nat.zero_le _)
    rw [Nat.add_zero] at hfirst
    cases s with
    | nil =>
      rw [List.getD_nil] at hfirst
      exact copied_nil hfirst
    | cons c s =>
      obtain ⟨hc, hs⟩ := List.ne_and_not_mem_of_not_mem_cons hs
      rw [List.getD_cons_zero] at hfirst
      have hnext : ∀ a k, a + (k + 1) = a + 1 + k := fun a k => by omega
      rw [copied_cons (hfirst ▸ hc.symm), hfirst, List.take_succ_cons, ih hs]
      · intro j hj hlen
        have hlen' := Nat.succ_le_succ hlen
        by_cases hover : u32 (src + 1 + j) = u32 dst
        · have hsame := h 0 (j + 1) (Nat.succ_pos j) (Nat.succ_lt_succ hj) hlen' (by rw [hnext src, hover]; rfl)
          rw [hover, Function.update_self]
          simpa using hsame
        · rw [Function.update_of_ne hover, ← hnext, hat (j + 1) (Nat.succ_lt_succ hj) hlen', List.getD_cons_succ]
      · intro i j hij hj hlen hsame
        rw [← hnext, ← hnext] at hsame
        have hkept := h (i + 1) (j + 1) (Nat.succ_lt_succ hij) (Nat.succ_lt_succ hj) (Nat.succ_le_succ hlen) hsame
        simpa using hkept

/-- The bytes that `strncpy` writes when it is not disturbed. -/
def storedBytes (s : List UInt8) (n : Nat) : List UInt8 := s.take n ++ List.replicate (padding (min n s.length) n) 0

theorem padding_length {len : Nat} (h : len ≤ n) : len + padding len n = if len < n then n + 1 else n := by
  unfold padding
  split <;> omega

theorem stored_length : (storedBytes s n).length = if s.length < n then n + 1 else n := by
  unfold storedBytes
  rw [List.length_append, List.length_take, List.length_replicate, padding_length (Nat.min_le_left ..)]
  simp only [min_lt_iff, Nat.lt_irrefl, false_or]

theorem stored_get_d : (storedBytes s n).getD j 0 = if j < n then s.getD j 0 else 0 := by
  unfold storedBytes
  have hlen := List.length_take (i := n) (l := s)
  by_cases hj : j < min n s.length
  · rw [List.getD_append _ _ _ _ (by omega), if_pos (by omega), List.getD_eq_getElem?_getD,
      List.getElem?_take_of_lt (by omega), List.getD_eq_getElem?_getD]
  · rw [List.getD_append_right _ _ _ _ (by omega), List.getD_eq_getElem?_getD,
      List.getElem?_getD_replicate_default_eq]
    split
    · exact (List.getD_eq_default _ _ (by omega)).symm
    · rfl

theorem stored_eq {dst src n : UInt32} (hs : StringAt m src.toNat s)
    (h : Undisturbed s dst.toNat src.toNat n.toNat) :
    (Memory.strncpy m dst src n).2 = (⟨m, []⟩ : Writing).puts u32 dst.toNat (storedBytes s n.toNat) := by
  rw [strncpy_eq, copied_eq hs.noNul (fun j _ hj => hs.chars j hj) h, List.length_take]
  rfl

/-- A short string is padded one byte too far. -/
theorem short_source_cells {dst src n : UInt32} (hs : StringAt m src.toNat s)
    (h : Undisturbed s dst.toNat src.toNat n.toNat) (hshort : s.length < n.toNat) :
    (Memory.strncpy m dst src n).2.cells = (List.range' dst.toNat (n.toNat + 1)).map u32 := by
  rw [stored_eq hs h, Writing.puts_cells, stored_length, if_pos hshort]
  rfl

/-- An array at `dst` sees what `strncpy` does to arrays. -/
theorem strncpy_view {dst src n : UInt32} (hs : StringAt m src.toNat s)
    (h : Undisturbed s dst.toNat src.toNat n.toNat) (hj : j < 4294967296) :
    (Memory.strncpy m dst src n).2.mem (u32 (dst.toNat + j)) =
      BaSic.strncpy (fun i => m (u32 (dst.toNat + i))) ⟨s, hs.noNul⟩ n.toNat j := by
  have hbound := n.toNat_lt
  have hlen := stored_length (s := s) (n := n.toNat)
  change _ = strncpyFrom _ 0 s n.toNat j
  rw [stored_eq hs h, strncpy_from_apply, Nat.sub_zero, Nat.zero_add]
  by_cases hin : j < (storedBytes s n.toNat).length
  · rw [puts_byte (by split at hlen <;> omega) hin, stored_get_d]
    split_ifs at hlen ⊢
    all_goals first | rfl | omega
  · rw [Writing.puts_outside]
    · split_ifs at hlen ⊢
      all_goals first | rfl | omega
    · intro i hi
      exact u32_add_ne (by omega) hj (by split at hlen <;> omega)

/-- When `n` cells are written, the first loop has written all of them. -/
theorem CopiesExactly.copied_chars {dst src n : UInt32} (h : CopiesExactly m dst src n s) :
    (copied m dst.toNat src.toNat n.toNat).length = n.toNat ∧
      ∀ j, j < n.toNat → (copied m dst.toNat src.toNat n.toNat).getD j 0 = s.getD j 0 := by
  have hbound := n.toNat_lt
  have hrun := strncpy_eq m dst src n
  have hcells := congrArg List.length (h.cells.symm.trans (hrun ▸ Writing.puts_cells))
  simp only [List.length_map, List.length_range', List.length_append, List.length_nil, List.length_replicate,
    Nat.zero_add, padding_length (copied_length_le ..)] at hcells
  have hlen : (copied m dst.toNat src.toNat n.toNat).length = n.toNat := by
    have hle := copied_length_le m dst.toNat src.toNat n.toNat
    split at hcells <;> omega
  have hpad : padding n.toNat n.toNat = 0 := if_neg (Nat.lt_irrefl _)
  rw [hlen, hpad, List.replicate_zero, List.append_nil] at hrun
  refine ⟨hlen, fun j hj => ?_⟩
  rw [← h.chars j hj, hrun]
  exact (puts_byte (by omega) (by omega)).symm

/-- `strncpy` writes `n` bytes, with the contents that its name promises, exactly when
the string has `n` characters or more and is not disturbed. -/
theorem strncpy_exact_iff (m : Mem) (dst src n : UInt32) (s : List UInt8) (hs : StringAt m src.toNat s) :
    CopiesExactly m dst src n s ↔ n.toNat ≤ s.length ∧ Undisturbed s dst.toNat src.toNat n.toNat := by
  have hbound := n.toNat_lt
  constructor
  · intro h
    obtain ⟨hlen, hchars⟩ := h.copied_chars
    refine ⟨?_, fun i j hij hj _ hsame => ?_⟩
    · by_contra hshort
      have hend := hchars s.length (by omega)
      rw [List.getD_eq_getElem _ _ (by omega), List.getD_eq_default _ _ (Nat.le_refl _)] at hend
      exact copied_ne_zero (List.getElem_mem _) hend
    · rw [← hchars i (by omega), ← hchars j hj]
      exact (copied_again (by omega) (by omega) hij hsame).symm
  · rintro ⟨hlen, hover⟩
    have hstored : (storedBytes s n.toNat).length = n.toNat := by
      rw [stored_length, if_neg (by omega)]
    refine ⟨?_, fun j hj => ?_, fun a ha => ?_⟩
    · rw [stored_eq hs hover, Writing.puts_cells, hstored]
      rfl
    · rw [stored_eq hs hover, puts_byte (by omega) (by omega), stored_get_d, if_pos hj]
    · rw [stored_eq hs hover]
      exact Writing.puts_outside (fun j hj => ha j (by omega))

/-- A memory with the path `/` at 0x1000 and nothing else in it but slashes. -/
def slashes : Mem := fun a => if a = 0x1001 then 0 else 0x2F

theorem slash_at : StringAt slashes (0x1000 : UInt32).toNat [0x2F] where
  noNul := by decide
  chars j hj := by
    rw [List.length_singleton] at hj
    rcases (by omega : j = 0 ∨ j = 1) with rfl | rfl <;> rfl

theorem slash_undisturbed (n : Nat) : Undisturbed [0x2F] (0x2000 : UInt32).toNat (0x1000 : UInt32).toNat n := by
  intro i j hij _ hlen hsame
  rw [List.length_singleton] at hlen
  obtain ⟨rfl, rfl⟩ : i = 0 ∧ j = 1 := by omega
  cases hsame

/-- One character copied to where there is room for one. -/
theorem strncpy_exact_iff_slash : CopiesExactly slashes 0x2000 0x1000 1 [0x2F] :=
  (strncpy_exact_iff slashes 0x2000 0x1000 1 [0x2F] slash_at).mpr ⟨Nat.le_refl 1, slash_undisturbed _⟩

/-- The path `/` copied into an array of 256 characters changes what lies behind it. -/
theorem strncpy_past_array : ¬ ∀ (m : Mem) (dst src n : UInt32) (s : List UInt8), StringAt m src.toNat s →
    CopiesExactly m dst src n s := by
  intro hclaim
  have hbehind : ∀ j, j < (256 : UInt32).toNat → 0x2100 ≠ u32 ((0x2000 : UInt32).toNat + j) := by
    intro j hj
    have hplace : (0x2000 : UInt32).toNat + j < 0x2100 := Nat.add_lt_add_left hj 0x2000
    rw [u32_of_lt (Nat.lt_trans hplace (by decide))]
    exact Nat.ne_of_gt hplace
  have hrest := (hclaim slashes 0x2000 0x1000 256 [0x2F] slash_at).rest 0x2100 hbehind
  have hview := strncpy_view (j := 256) slash_at (slash_undisturbed (256 : UInt32).toNat) (by decide)
  change _ = strncpyFrom _ 0 [0x2F] 256 256 at hview
  rw [strncpy_from_apply, if_neg (by decide), if_pos ⟨rfl, by decide⟩] at hview
  cases hview.symm.trans hrest

end BaSic.Proofs.StrncpyCells
