import BaSic.Kernel.Fat12Files
import BaSic.Lib.Words

namespace BaSic.Proofs.FatNames
open Kernel Lib

variable {name query : CString} {base ext : List UInt8}

theorem c_string_ext {a b : CString} (h : a.chars = b.chars) : a = b := by
  cases a
  cases b
  cases h
  rfl

/-- Two names match when they are equal up to letter case. -/
theorem names_match_iff {a b : CString} :
    namesMatch a b = true ↔ a.chars.map upper = b.chars.map upper := by
  have hlist : ∀ l m : List UInt8, (l.length == m.length &&
      (l.zip m).all (fun p => upper p.1 == upper p.2)) = true ↔ l.map upper = m.map upper := by
    intro l
    induction l with
    | nil =>
      intro m
      cases m <;> simp
    | cons x l ih =>
      intro m
      cases m with
      | nil => simp
      | cons y m =>
        have hm := ih m
        simp only [Bool.and_eq_true, beq_iff_eq] at hm
        simp only [List.length_cons, List.zip_cons_cons, List.all_cons, List.map_cons, List.cons.injEq,
          Bool.and_eq_true, beq_iff_eq, Nat.add_right_cancel_iff, ← hm]
        exact and_left_comm
  exact hlist a.chars b.chars

/-- Small letters lie 32 above the capitals. -/
theorem upper_to_nat (c : UInt8) :
    (upper c).toNat = if 97 ≤ c.toNat ∧ c.toNat ≤ 122 then c.toNat - 32 else c.toNat := by
  unfold upper
  simp only [UInt8.le_iff_toNat_le, UInt8.reduceToNat]
  split
  · rename_i h
    have hle : (32 : UInt8) ≤ c := by
      simp only [UInt8.le_iff_toNat_le, UInt8.reduceToNat]
      omega
    rw [UInt8.toNat_sub_of_le _ _ hle]
    rfl
  · rfl

theorem upper_upper (c : UInt8) : upper (upper c) = upper c := by
  apply UInt8.toNat_inj.mp
  grind [upper_to_nat]

theorem upper_ne_zero {c : UInt8} (h : c ≠ 0) : upper c ≠ 0 := by
  simp only [ne_eq, ← UInt8.toNat_inj, upper_to_nat, UInt8.reduceToNat] at h ⊢
  grind

theorem upper_ne_dot {c : UInt8} (h : c ≠ chDot) : upper c ≠ chDot := by
  have hdot : chDot.toNat = 46 := rfl
  simp only [ne_eq, ← UInt8.toNat_inj, upper_to_nat, hdot] at h ⊢
  grind

theorem names_match_symm {a b : CString} (h : namesMatch a b = true) : namesMatch b a = true :=
  names_match_iff.mpr (names_match_iff.mp h).symm

theorem names_match_trans {a b c : CString} (h : namesMatch a b = true) (h' : namesMatch b c = true) :
    namesMatch a c = true :=
  names_match_iff.mpr ((names_match_iff.mp h).trans (names_match_iff.mp h'))

/-- The name under which the directory shows a file written as `name`. -/
def storedName (name : CString) : CString := entryName (newEntry name 0 0)

/-- Only the raw name of an entry is shown. -/
theorem entry_name_congr {e e' : Entry} (h : ∀ i : Fin 11, e (i.castLE (by omega)) = e' (i.castLE (by omega))) :
    entryName e = entryName e' := by
  apply c_string_ext
  have h8 := h 8
  have h9 := h 9
  have h10 := h 10
  have hbase : (List.ofFn (fun i : Fin 8 => e (i.castLE (by omega)))) =
      List.ofFn (fun i : Fin 8 => e' (i.castLE (by omega))) := by
    congr 1
    funext i
    exact h (i.castLE (by omega))
  unfold entryName fat83ToStr
  dsimp only
  rw [hbase]
  change e 8 = e' 8 at h8
  change e 9 = e' 9 at h9
  change e 10 = e' 10 at h10
  rw [h8, h9, h10]

theorem stored_name_eq (name : CString) (first size : Nat) :
    entryName (newEntry name first size) = storedName name := by
  refine entry_name_congr (fun i => ?_)
  unfold newEntry
  simp only [Fin.val_castLE, i.isLt, ↓reduceDIte]

/-- A printable character that may stand in an 8.3 name. -/
def NameChar (c : UInt8) : Prop := 0x21 ≤ c ∧ c ≤ 0x7E ∧ c ≠ chDot ∧ c ≠ chSlash

instance (c : UInt8) : Decidable (NameChar c) := inferInstanceAs (Decidable (_ ∧ _))

/-- A base of 1 to 8 characters and an optional extension of 1 to 3. -/
inductive ShortName (name : CString) : Prop where
  | plain (hlen : 1 ≤ name.chars.length ∧ name.chars.length ≤ 8) (hchars : ∀ c ∈ name.chars, NameChar c)
  | dotted (base ext : List UInt8) (hname : name.chars = base ++ chDot :: ext)
      (hbase : 1 ≤ base.length ∧ base.length ≤ 8) (hext : 1 ≤ ext.length ∧ ext.length ≤ 3)
      (hchars : ∀ c ∈ base ++ ext, NameChar c)

theorem name_char_upper {c : UInt8} (h : NameChar c) : upper c ≠ chSpace := by
  have hlow : (0x21 : UInt8).toNat ≤ c.toNat := UInt8.le_iff_toNat_le.mp h.1
  have hspace : chSpace.toNat = 32 := rfl
  simp only [ne_eq, ← UInt8.toNat_inj, upper_to_nat, hspace, UInt8.reduceToNat] at hlow ⊢
  grind

/-- A base and an extension as an 11-byte name. -/
def padded (base ext : List UInt8) : Fin 11 → UInt8 := fun i =>
  if i.val < 8 then base.getD i.val chSpace else ext.getD (i.val - 8) chSpace

/-- A base and an extension as a string, which has a dot only if there is an extension. -/
def joined (base ext : List UInt8) : List UInt8 := if ext = [] then base else base ++ chDot :: ext

/-- A base and an extension that neither direction of the 8.3 form cuts. -/
structure ShortParts (base ext : List UInt8) : Prop where
  base_le : base.length ≤ 8
  ext_le : ext.length ≤ 3
  chars : ∀ c ∈ base ++ ext, c ≠ chDot ∧ upper c ≠ chSpace

/-- Characters padded with spaces to a fixed width are read up to the padding. -/
theorem take_padded {n : Nat} {l : List UInt8} {raw : Fin n → UInt8} (hlen : l.length ≤ n)
    (hl : ∀ c ∈ l, c ≠ chSpace) (hraw : ∀ i : Fin n, raw i = l.getD i.val chSpace) :
    (List.ofFn raw).takeWhile (· ≠ chSpace) = l := by
  have hlist : List.ofFn raw = l ++ List.replicate (n - l.length) chSpace := by
    apply List.ext_getElem
    · simp only [List.length_ofFn, List.length_append, List.length_replicate]
      omega
    · intro i h0 h1
      rw [List.getElem_ofFn, hraw, List.getElem_append]
      by_cases hi : i < l.length
      · rw [dif_pos hi]
        exact List.getD_eq_getElem _ _ hi
      · rw [dif_neg hi, List.getElem_replicate]
        exact List.getD_eq_default _ _ (Nat.le_of_not_lt hi)
  rw [hlist, List.takeWhile_append_of_pos (fun c hc => by simpa using hl c hc), List.takeWhile_replicate]
  simp

theorem name_le_entry : 11 ≤ 32 := by decide

/-- A padded name is read back as the base and the extension. -/
theorem fat83_to_str_padded {raw : Entry} (hlen : base.length ≤ 8) (hext : ext.length ≤ 3)
    (hchars : ∀ c ∈ base ++ ext, c ≠ chSpace) (hraw : ∀ i : Fin 11, raw (i.castLE name_le_entry) = padded base ext i) :
    fat83ToStr raw = joined base ext := by
  have hbase : (List.ofFn (fun i : Fin 8 => raw (i.castLE (by omega)))).takeWhile (· ≠ chSpace) = base := by
    refine take_padded hlen (fun c hc => hchars c (List.mem_append_left _ hc)) (fun i => ?_)
    exact (hraw (i.castLE (by omega))).trans (if_pos i.isLt)
  have hexts : (List.ofFn (fun i : Fin 3 => raw ⟨8 + i.val, by omega⟩)).takeWhile (· ≠ chSpace) = ext := by
    refine take_padded hext (fun c hc => hchars c (List.mem_append_right _ hc)) (fun i => ?_)
    have hi : raw ⟨8 + i.val, by omega⟩ = padded base ext ⟨8 + i.val, by omega⟩ := hraw ⟨8 + i.val, by omega⟩
    rw [hi, padded, if_neg (Nat.not_lt.mpr (Nat.le_add_right 8 _)), Nat.add_sub_cancel_left]
  have h8 : raw 8 = ext.getD 0 chSpace := hraw 8
  unfold fat83ToStr joined
  dsimp only
  rw [hbase]
  cases ext with
  | nil =>
    rw [List.getD_nil] at h8
    rw [if_pos rfl, if_neg (not_not_intro h8)]
  | cons c ext =>
    have hc : raw 8 ≠ chSpace := by
      rw [h8]
      exact hchars c (List.mem_append_right _ List.mem_cons_self)
    rw [if_pos hc, if_neg (List.cons_ne_nil c ext)]
    exact congrArg (fun l => base ++ chDot :: l) hexts

theorem new_entry_raw (name : CString) (first size : Nat) {i : Nat} (h : i < 11) :
    newEntry name first size ⟨i, by omega⟩ = strToFat83 name ⟨i, h⟩ := by
  unfold newEntry
  exact dif_pos h

/-- A raw name is made of the characters of the name, in upper case, and of spaces. -/
theorem raw_byte {P : UInt8 → Prop} (hchars : ∀ c ∈ name.chars, P (upper c)) (hspace : P chSpace)
    (i : Fin 11) : P (strToFat83 name i) := by
  have hchar : ∀ j, j < name.chars.length → P (upper (name.chars.getD j 0)) := by
    intro j hj
    apply hchars
    rw [List.getD_eq_getElem _ _ hj]
    exact List.getElem_mem hj
  unfold strToFat83
  dsimp only
  split
  · split
    · refine hchar _ ?_
      cases hd : dotIndex name with
      | none =>
        simp only [hd, Option.getD_none] at *
        omega
      | some d =>
        have hlt := (List.findIdx?_eq_some_iff_findIdx_eq.mp hd).1
        simp only [hd, Option.getD_some] at *
        omega
    · exact hspace
  · split
    · exact hspace
    · split
      · exact hchar _ (by omega)
      · exact hspace

theorem raw_ne_zero (name : CString) (i : Fin 11) : strToFat83 name i ≠ 0 :=
  raw_byte (P := fun c => c ≠ 0) (fun c hc => upper_ne_zero (name.noNul c hc)) (by decide) i

theorem upper_dot : upper chDot = chDot := by decide

theorem map_upper_joined : (joined base ext).map upper = joined (base.map upper) (ext.map upper) := by
  unfold joined
  by_cases h : ext = []
  · rw [if_pos h, if_pos (List.map_eq_nil_iff.mpr h)]
  · rw [if_neg h, if_neg (fun hn => h (List.map_eq_nil_iff.mp hn)), List.map_append, List.map_cons, upper_dot]

theorem get_d_map_upper {l : List UInt8} {i : Nat} :
    (l.map upper).getD i chSpace = if i < l.length then upper (l.getD i 0) else chSpace := by
  split
  · rw [List.getD_eq_getElem _ _ (by simpa using ‹i < l.length›), List.getElem_map,
      List.getD_eq_getElem _ _ ‹_›]
  · exact List.getD_eq_default _ _ (by simpa using ‹¬ i < l.length›)

theorem dot_index_joined (hname : name.chars = joined base ext) (hchars : ∀ c ∈ base ++ ext, c ≠ chDot) :
    dotIndex name = if ext = [] then none else some base.length := by
  have hnone : base.findIdx? (· = chDot) = none :=
    List.findIdx?_eq_none_iff.mpr (fun c hc => by simpa using hchars c (List.mem_append_left _ hc))
  unfold dotIndex
  rw [hname, joined]
  split
  · exact hnone
  · rw [List.findIdx?_append, hnone, List.findIdx?_cons]
    simp

/-- The 11-byte name of a base and an extension that fit. -/
theorem str_to_fat83_joined (hname : name.chars = joined base ext) (h : ShortParts base ext) :
    strToFat83 name = padded (base.map upper) (ext.map upper) := by
  have hidx := dot_index_joined hname (fun c hc => (h.chars c hc).1)
  have hlen := h.base_le
  have hext := h.ext_le
  funext i
  unfold strToFat83 padded
  rw [hidx, get_d_map_upper, get_d_map_upper, hname, joined]
  by_cases he : ext = []
  · subst he
    simp only [↓reduceIte, Option.getD_none, List.length_nil, Nat.not_lt_zero, Nat.min_eq_left hlen]
  · have hmid : base.length + 1 + (i.val - 8) - base.length = i.val - 8 + 1 := by omega
    have hrest : (base ++ chDot :: ext).length - base.length - 1 = ext.length := by
      rw [List.length_append, List.length_cons]
      omega
    simp only [if_neg he, Option.getD_some, Nat.min_eq_left hlen, hrest, Nat.min_eq_left hext]
    rw [List.getD_append_right _ _ _ (base.length + 1 + _) (by omega), hmid, List.getD_cons_succ]
    split
    · split
      · rw [List.getD_append _ _ _ _ ‹_›]
      · rfl
    · rfl

theorem upper_parts (h : ShortParts base ext) : ShortParts (base.map upper) (ext.map upper) where
  base_le := by simpa using h.base_le
  ext_le := by simpa using h.ext_le
  chars := by
    intro c hc
    rw [← List.map_append] at hc
    obtain ⟨x, hx, rfl⟩ := List.mem_map.mp hc
    rw [upper_upper]
    exact ⟨upper_ne_dot (h.chars x hx).1, (h.chars x hx).2⟩

/-- A name of short parts is shown as it was given, in upper case. -/
theorem fat83_to_str_stored {raw : Entry} (hname : name.chars = joined base ext) (h : ShortParts base ext)
    (hraw : ∀ i : Fin 11, raw (i.castLE name_le_entry) = strToFat83 name i) : fat83ToStr raw = name.chars.map upper := by
  have hparts := upper_parts h
  rw [str_to_fat83_joined hname h] at hraw
  rw [hname, map_upper_joined]
  refine fat83_to_str_padded hparts.base_le hparts.ext_le (fun c hc => ?_) hraw
  rw [← List.map_append] at hc
  obtain ⟨x, hx, rfl⟩ := List.mem_map.mp hc
  exact (h.chars x hx).2

/-- What is shown has no NUL in it when the name has none. -/
theorem entry_name_chars {raw : Entry} (hname : fat83ToStr raw = name.chars.map upper) :
    (entryName raw).chars = name.chars.map upper := by
  unfold entryName
  dsimp only
  rw [hname, List.takeWhile_eq_self_iff]
  intro c hc
  obtain ⟨x, hx, rfl⟩ := List.mem_map.mp hc
  simpa using upper_ne_zero (name.noNul x hx)

theorem ShortName.parts (h : ShortName name) : ∃ base ext, name.chars = joined base ext ∧ ShortParts base ext := by
  have hchar : ∀ c, NameChar c → c ≠ chDot ∧ upper c ≠ chSpace := fun c hc => ⟨hc.2.2.1, name_char_upper hc⟩
  cases h with
  | plain hlen hchars =>
    exact ⟨name.chars, [], rfl, hlen.2, Nat.zero_le 3, fun c hc => hchar c (hchars c (by simpa using hc))⟩
  | dotted base ext hname hbase hext hchars =>
    have hne : ext ≠ [] := List.length_pos_iff.mp hext.1
    exact ⟨base, ext, by rw [hname, joined, if_neg hne], hbase.2, hext.2, fun c hc => hchar c (hchars c hc)⟩

/-- A short name is shown as it was given, in upper case. -/
theorem stored_short_name (h : ShortName name) : (storedName name).chars = name.chars.map upper := by
  obtain ⟨base, ext, hname, hparts⟩ := h.parts
  exact entry_name_chars (fat83_to_str_stored hname hparts (fun i => new_entry_raw name 0 0 i.isLt))

end BaSic.Proofs.FatNames
