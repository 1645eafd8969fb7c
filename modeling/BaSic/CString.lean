import Mathlib

namespace BaSic

/-- The characters of a C string, without the NUL that ends it. -/
structure CStr where
  chars : List UInt8
  noNul : (0 : UInt8) ∉ chars

/-- An array of characters; what lies past its end is never read. -/
abbrev CharArray := Nat → UInt8

/-- `memset(a + i, 0, n)` -/
def padNul (a : CharArray) (i : Nat) : Nat → CharArray
  | 0 => a
  | n + 1 => padNul (Function.update a i 0) (i + 1) n

/-- `strncpy` from offset `i` on. The NUL that ends a short source is not counted, so that
the padding goes one character too far. -/
def strncpyFrom (dst : CharArray) (i : Nat) : List UInt8 → Nat → CharArray
  | _, 0 => dst
  | [], n + 1 => padNul (Function.update dst i 0) (i + 1) (n + 1)
  | c :: src, n + 1 => strncpyFrom (Function.update dst i c) (i + 1) src n

def strncpy (dst : CharArray) (src : CStr) (n : Nat) : CharArray := strncpyFrom dst 0 src.chars n

/-- `strcmp(a + i, b)` -/
def strcmpFrom (a : CharArray) (i : Nat) : List UInt8 → Int
  | [] => (a i).toNat
  | c :: b => if a i ≠ 0 ∧ a i = c then strcmpFrom a (i + 1) b else (a i).toNat - c.toNat

def strcmp (a : CharArray) (b : CStr) : Int := strcmpFrom a 0 b.chars

/-- `strncpy(dst, src, n); dst[n] = '\0'` -/
def copyCut (dst : CharArray) (src : CStr) (n : Nat) : CharArray := Function.update (strncpy dst src n) n 0

/-- The string at `a + i`, of which there are `size` characters left. -/
def textFrom (a : CharArray) (i : Nat) : Nat → List UInt8
  | 0 => []
  | size + 1 => if a i = 0 then [] else a i :: textFrom a (i + 1) size

/-- The string in an array of `size` characters. -/
def text (a : CharArray) (size : Nat) : List UInt8 := textFrom a 0 size

/-- The array has the string from offset `i` on. -/
def HoldsFrom (a : CharArray) (i : Nat) : List UInt8 → Prop
  | [] => a i = 0
  | c :: s => a i = c ∧ HoldsFrom a (i + 1) s

variable {a b : CharArray} {s src : List UInt8} {i j n size : Nat}

theorem pad_nul_apply (a : CharArray) (i n j : Nat) : padNul a i n j = if i ≤ j ∧ j < i + n then 0 else a j := by
  induction n generalizing a i with
  | zero => rw [if_neg (by omega)]; rfl
  | succ n ih =>
    unfold padNul
    rw [ih]
    by_cases hj : j = i
    · rw [if_neg (by omega), if_pos (by omega), hj, Function.update_self]
    · rw [Function.update_of_ne hj]
      split_ifs
      all_goals first | rfl | omega

/-- `strncpy` copies, pads, and leaves what comes before and after. -/
theorem strncpy_from_apply (dst : CharArray) (i : Nat) (src : List UInt8) (n j : Nat) :
    strncpyFrom dst i src n j = if i ≤ j ∧ j < i + n then src.getD (j - i) 0
      else if j = i + n ∧ src.length < n then 0 else dst j := by
  induction src generalizing dst i n with
  | nil =>
    cases n with
    | zero => unfold strncpyFrom; rw [if_neg (by omega), if_neg (by simp)]
    | succ n =>
      unfold strncpyFrom
      rw [pad_nul_apply]
      by_cases hj : j = i
      · rw [if_neg (by omega), if_pos (by omega), hj, Function.update_self]
        rfl
      · rw [Function.update_of_ne hj]
        simp only [List.length_nil, List.getD_nil]
        split_ifs
        all_goals first | rfl | omega
  | cons c src ih =>
    cases n with
    | zero => unfold strncpyFrom; rw [if_neg (by omega), if_neg (by simp)]
    | succ n =>
      unfold strncpyFrom
      rw [ih]
      rw [List.length_cons]
      by_cases hj : j = i
      · have hin : i ≤ j ∧ j < i + (n + 1) := by omega
        have hout : ¬ (i + 1 ≤ j ∧ j < i + 1 + n) := by omega
        have hpast : ¬ (j = i + 1 + n ∧ src.length < n) := by omega
        rw [if_pos hin, if_neg hout, if_neg hpast, hj, Function.update_self, Nat.sub_self]
        rfl
      · rw [Function.update_of_ne hj]
        by_cases hin : i + 1 ≤ j ∧ j < i + 1 + n
        · have hin' : i ≤ j ∧ j < i + (n + 1) := by omega
          have hsub : j - i = (j - (i + 1)) + 1 := by omega
          rw [if_pos hin, if_pos hin', hsub]
          rfl
        · have hout : ¬ (i ≤ j ∧ j < i + (n + 1)) := by omega
          rw [if_neg hin, if_neg hout]
          split_ifs
          all_goals first | rfl | omega

theorem holds_from_iff : HoldsFrom a i s ↔ (∀ j, j < s.length → a (i + j) = s.getD j 0) ∧ a (i + s.length) = 0 := by
  induction s generalizing i with
  | nil => exact (and_iff_right (fun j hj => absurd hj (Nat.not_lt_zero _))).symm
  | cons c s ih =>
    unfold HoldsFrom
    rw [ih, List.length_cons]
    constructor
    · rintro ⟨hc, hs, hend⟩
      refine ⟨fun j hj => ?_, by rw [← hend]; congr 1; omega⟩
      cases j with
      | zero => exact hc
      | succ j =>
        have hsum : i + (j + 1) = i + 1 + j := by omega
        rw [hsum, hs j (by omega)]
        rfl
    · rintro ⟨hs, hend⟩
      refine ⟨hs 0 (Nat.succ_pos _), fun j hj => ?_, by rw [← hend]; congr 1; omega⟩
      have hsum : i + 1 + j = i + (j + 1) := by omega
      rw [hsum, hs (j + 1) (by omega)]
      rfl

/-- What comes behind the first characters of a string is a string. -/
theorem holds_from_append {t : List UInt8} (h : HoldsFrom a i (s ++ t)) :
    (∀ j, j < s.length → a (i + j) = s.getD j 0) ∧ HoldsFrom a (i + s.length) t := by
  obtain ⟨hat, hend⟩ := holds_from_iff.mp h
  refine ⟨?_, holds_from_iff.mpr ⟨?_, ?_⟩⟩
  · intro j hj
    rw [hat j (by simp; omega)]
    simp [List.getElem?_append_left hj]
  · intro j hj
    have hplace : i + s.length + j = i + (s.length + j) := by omega
    rw [hplace, hat _ (by simp; omega)]
    simp [List.getElem?_append_right]
  · rw [List.length_append] at hend
    rwa [Nat.add_assoc]

/-- A copy is the string cut to what there is room for. -/
theorem copy_cut_holds (dst : CharArray) (src : CStr) (n : Nat) : HoldsFrom (copyCut dst src n) 0 (src.chars.take n) := by
  unfold copyCut strncpy
  rw [holds_from_iff, List.length_take]
  refine ⟨fun j hj => ?_, ?_⟩
  · rw [Function.update_of_ne (by omega), strncpy_from_apply, if_pos (by omega), Nat.zero_add, Nat.sub_zero,
      List.getD_eq_getElem?_getD, List.getD_eq_getElem?_getD, List.getElem?_take_of_lt (by omega)]
  · by_cases hn : n ≤ src.chars.length
    · rw [Nat.min_eq_left hn, Nat.zero_add, Function.update_self]
    · rw [Nat.min_eq_right (by omega), Nat.zero_add, Function.update_of_ne (by omega), strncpy_from_apply,
        if_pos (by omega), Nat.sub_zero]
      exact List.getD_eq_default _ _ (Nat.le_refl _)

/-- The room up to the end of a string is enough to read it, which stops at its first NUL. -/
theorem text_from_holds (h : HoldsFrom a i s) (hsize : s.length ≤ size) : textFrom a i size = s.takeWhile (· ≠ 0) := by
  induction s generalizing i size with
  | nil =>
    cases size with
    | zero => rfl
    | succ size => exact if_pos h
  | cons c s ih =>
    rw [List.length_cons] at hsize
    obtain ⟨size, rfl⟩ := Nat.exists_eq_succ_of_ne_zero (Nat.ne_of_gt (Nat.lt_of_lt_of_le (Nat.succ_pos _) hsize))
    unfold textFrom
    rw [h.1]
    by_cases hc : c = 0
    · rw [if_pos hc, List.takeWhile_cons_of_neg (by simpa using hc)]
    · rw [if_neg hc, List.takeWhile_cons_of_pos (by simpa using hc), ih h.2 (Nat.le_of_succ_le_succ hsize)]

theorem text_from_of_holds (h : HoldsFrom a i s) (hs : (0 : UInt8) ∉ s) (hsize : s.length ≤ size) :
    textFrom a i size = s := by
  rw [text_from_holds h hsize, List.takeWhile_eq_self_iff]
  intro c hc
  have hne : c ≠ 0 := fun h0 => hs (h0 ▸ hc)
  simpa using hne

theorem text_from_no_nul : (0 : UInt8) ∉ textFrom a i size := by
  induction size generalizing i with
  | zero => exact List.not_mem_nil
  | succ size ih =>
    unfold textFrom
    split
    · exact List.not_mem_nil
    · exact List.not_mem_cons_of_ne_of_not_mem (Ne.symm ‹_›) ih

/-- What an array has is what is read from it. -/
theorem text_of_holds (h : HoldsFrom a 0 s) (hs : (0 : UInt8) ∉ s) (hsize : s.length < size) : text a size = s :=
  text_from_of_holds h hs (Nat.le_of_lt hsize)

theorem strcmp_from_eq_zero (hs : (0 : UInt8) ∉ s) : strcmpFrom a i s = 0 ↔ HoldsFrom a i s := by
  induction s generalizing i with
  | nil =>
    unfold strcmpFrom HoldsFrom
    rw [← UInt8.toNat_inj]
    exact Int.natCast_eq_zero
  | cons c s ih =>
    obtain ⟨hc, hs⟩ := List.ne_and_not_mem_of_not_mem_cons hs
    unfold strcmpFrom HoldsFrom
    by_cases hi : a i = c
    · rw [if_pos ⟨hi ▸ hc.symm, hi⟩, ih hs]
      exact (and_iff_right hi).symm
    · rw [if_neg (fun h => hi h.2)]
      refine iff_of_false (fun h => hi ?_) (fun h => hi h.1)
      exact UInt8.toNat_inj.mp (by omega)

theorem strcmp_eq_zero (a : CharArray) (b : CStr) : strcmp a b = 0 ↔ HoldsFrom a 0 b.chars := strcmp_from_eq_zero b.noNul

/-- An array has one string at most. -/
theorem holds_from_unique {t : List UInt8} (hs : (0 : UInt8) ∉ s) (ht : (0 : UInt8) ∉ t) (h : HoldsFrom a i s)
    (h' : HoldsFrom a i t) : s = t := by
  induction s generalizing i t with
  | nil =>
    cases t with
    | nil => rfl
    | cons c t => exact absurd (h'.1.symm.trans h) (List.ne_and_not_mem_of_not_mem_cons ht).1.symm
  | cons c s ih =>
    cases t with
    | nil => exact absurd (h.1.symm.trans h') (List.ne_and_not_mem_of_not_mem_cons hs).1.symm
    | cons d t =>
      have hcd : c = d := h.1.symm.trans h'.1
      rw [hcd, ih (List.ne_and_not_mem_of_not_mem_cons hs).2 (List.ne_and_not_mem_of_not_mem_cons ht).2 h.2 h'.2]

/-- Comparing with an array that has a string is comparing with the string. -/
theorem strcmp_holds (h : HoldsFrom a 0 s) (hs : (0 : UInt8) ∉ s) (b : CStr) :
    (strcmp a b == 0) = decide (s = b.chars) := by
  rw [Bool.eq_iff_iff, beq_iff_eq, decide_eq_true_eq, strcmp_eq_zero]
  exact ⟨fun hsame => holds_from_unique hs b.noNul h hsame, fun hsame => hsame ▸ h⟩

theorem take_no_nul (s : CStr) (n : Nat) : (0 : UInt8) ∉ s.chars.take n := fun h => s.noNul (List.mem_of_mem_take h)

end BaSic
