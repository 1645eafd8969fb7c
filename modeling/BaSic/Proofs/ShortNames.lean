import BaSic.Proofs.FatNames

namespace BaSic.Proofs.ShortNames
open Kernel Lib FatNames

/-- A printable character that a raw name has as it is: no space, dot or lower-case letter. -/
def RawChar (c : UInt8) : Prop := 0x21 ≤ c ∧ c ≤ 0x7E ∧ c ≠ chDot ∧ ¬ (0x61 ≤ c ∧ c ≤ 0x7A)

instance (c : UInt8) : Decidable (RawChar c) := inferInstanceAs (Decidable (_ ∧ _))

/-- A canonical 11-byte name. -/
structure RawName where
  base : List UInt8
  ext : List UInt8
  base_le : base.length ≤ 8
  ext_le : ext.length ≤ 3
  chars : ∀ c ∈ base ++ ext, RawChar c

def RawName.bytes (r : RawName) : Fin 11 → UInt8 := padded r.base r.ext

/-- An 8.3-shaped string, with letters in either case. -/
structure ShapedName where
  base : List UInt8
  ext : List UInt8
  base_pos : 1 ≤ base.length
  base_le : base.length ≤ 8
  ext_le : ext.length ≤ 3
  chars : ∀ c ∈ base ++ ext, RawChar (upper c)

/-- An 11-byte name in memory. -/
def followed (name : Fin 11 → UInt8) (behind : CharArray) : CharArray := fun i =>
  if h : i < 11 then name ⟨i, h⟩ else behind i

variable {raw out : CharArray} {e : Entry} {w : Writing} {i j n : Nat} {base ext : List UInt8} {c : UInt8}

theorem raw_char_upper (h : RawChar c) : upper c = c := if_neg h.2.2.2

theorem raw_char_parts (h : RawChar (upper c)) : c ≠ chDot ∧ upper c ≠ chSpace := by
  have hlow : (0x21 : UInt8).toNat ≤ (upper c).toNat := UInt8.le_iff_toNat_le.mp h.1
  constructor
  · rintro rfl
    exact h.2.2.1 (by decide)
  · intro hspace
    rw [hspace] at hlow
    exact absurd hlow (by decide)

theorem raw_char_ne_zero (h : RawChar (upper c)) : c ≠ 0 := by
  rintro rfl
  exact absurd h.1 (by decide)

/-- A loop puts into the array what it reads up to the first space. -/
theorem copy_raw_eq : copyRaw raw i w j n =
    (w.puts id j (((List.range' i n).map raw).takeWhile (· ≠ chSpace)),
      j + (((List.range' i n).map raw).takeWhile (· ≠ chSpace)).length) := by
  induction n generalizing i w j with
  | zero => rfl
  | succ n ih =>
    rw [List.range'_succ, List.map_cons, copyRaw]
    by_cases h : raw i = chSpace
    · rw [if_neg (not_not_intro h), List.takeWhile_cons_of_neg (by simpa using h)]
      rfl
    · rw [if_pos h, ih, List.takeWhile_cons_of_pos (by simpa using h), List.length_cons, Writing.puts_cons]
      congr 1
      omega

/-- The array gets the string, and a NUL behind it. -/
theorem fat83_to_buf_eq (h : ∀ i : Fin 11, raw i = e (i.castLE name_le_entry)) :
    fat83ToBuf raw out = (⟨out, []⟩ : Writing).puts id 0 (fat83ToStr e ++ [0]) := by
  have hbase : (List.range' 0 8).map raw = List.ofFn (fun i : Fin 8 => e (i.castLE (by omega))) := by
    apply List.ext_getElem
    · rw [List.length_map, List.length_range', List.length_ofFn]
    · intro i h0 h1
      rw [List.length_ofFn] at h1
      rw [List.getElem_map, List.getElem_range', List.getElem_ofFn, Nat.one_mul, Nat.zero_add]
      exact h ⟨i, by omega⟩
  have h8 : raw 8 = e 8 := h 8
  have hexts : (List.range' 8 3).map raw = [e 8, e 9, e 10] := by
    have h9 : raw 9 = e 9 := h 9
    have h10 : raw 10 = e 10 := h 10
    rw [← h8, ← h9, ← h10]
    rfl
  unfold fat83ToBuf fat83ToStr
  rw [copy_raw_eq, hbase]
  dsimp only
  rw [h8]
  split
  · rw [copy_raw_eq, hexts, Nat.zero_add, List.append_assoc, Writing.puts_append, List.cons_append, Writing.puts_cons,
      Writing.puts_append, Nat.zero_add]
    rfl
  · rw [Writing.puts_append]
    rfl

theorem fat83_to_str_length : (fat83ToStr e).length ≤ 12 := by
  have htake : ∀ l : List UInt8, (l.takeWhile (· ≠ chSpace)).length ≤ l.length :=
    fun l => (List.takeWhile_sublist _).length_le
  have hbase := htake (List.ofFn (fun i : Fin 8 => e (i.castLE (by omega))))
  have hext := htake [e 8, e 9, e 10]
  rw [List.length_ofFn] at hbase
  rw [List.length_cons, List.length_cons, List.length_singleton] at hext
  unfold fat83ToStr
  dsimp only
  split
  · rw [List.length_append, List.length_cons]
    omega
  · omega

/-- `fat83_to_str` writes the first places of its array, and no more than it has. -/
theorem fat83_to_buf_cells (h : ∀ i : Fin 11, raw i = e (i.castLE name_le_entry)) :
    (fat83ToBuf raw out).cells = List.range ((fat83ToStr e).length + 1) := by
  rw [fat83_to_buf_eq h, Writing.puts_cells, List.map_id, List.nil_append, List.length_append, List.range_eq_range']
  rfl

/-- The string in the array is the name of the entry. -/
theorem name_in_buf (h : ∀ i : Fin 11, raw i = e (i.castLE name_le_entry)) :
    nameIn (fat83ToBuf raw out).mem = entryName e := by
  have hplace : ∀ j, j < (fat83ToStr e ++ [0]).length →
      (fat83ToBuf raw out).mem j = (fat83ToStr e ++ [0]).getD j 0 := by
    intro j hj
    have hin : ((⟨out, []⟩ : Writing).puts id 0 (fat83ToStr e ++ [0])).mem (id (0 + j)) =
        (fat83ToStr e ++ [0]).getD j 0 := Writing.puts_inside (fun _ _ _ _ hsame => Nat.add_left_cancel hsame) hj
    rwa [id_eq, Nat.zero_add, ← fat83_to_buf_eq h] at hin
  have hlen := fat83_to_str_length (e := e)
  have hholds : HoldsFrom (fat83ToBuf raw out).mem 0 (fat83ToStr e) := by
    rw [holds_from_iff]
    refine ⟨fun j hj => ?_, ?_⟩
    · rw [Nat.zero_add, hplace j (by simp; omega), List.getD_append _ _ _ _ hj]
    · rw [Nat.zero_add, hplace _ (by simp), List.getD_append_right _ _ _ _ (Nat.le_refl _), Nat.sub_self]
      rfl
  exact c_string_ext (text_from_holds hholds (by unfold fat12NameMax; omega))

/-- The string of a base and an extension. -/
def joinedString (base ext : List UInt8) (h : ∀ c ∈ base ++ ext, c ≠ 0) : CString where
  chars := joined base ext
  noNul := by
    intro c hc
    unfold joined at hc
    split at hc
    · exact h c (List.mem_append_left _ hc)
    · rcases List.mem_append.mp hc with hc | hc
      · exact h c (List.mem_append_left _ hc)
      · rcases List.mem_cons.mp hc with rfl | hc
        · decide
        · exact h c (List.mem_append_right _ hc)

def ShapedName.string (s : ShapedName) : CString :=
  joinedString s.base s.ext (fun c hc => raw_char_ne_zero (s.chars c hc))

theorem ShapedName.parts (s : ShapedName) : ShortParts s.base s.ext :=
  ⟨s.base_le, s.ext_le, fun c hc => raw_char_parts (s.chars c hc)⟩

namespace RawName
variable (r : RawName)

theorem upper_char {c : UInt8} (hc : c ∈ r.base ++ r.ext) : RawChar (upper c) := by
  have hchar := r.chars c hc
  rwa [raw_char_upper hchar]

def string : CString := joinedString r.base r.ext (fun _ hc => raw_char_ne_zero (r.upper_char hc))

theorem parts : ShortParts r.base r.ext := ⟨r.base_le, r.ext_le, fun _ hc => raw_char_parts (r.upper_char hc)⟩

theorem map_upper_base : r.base.map upper = r.base :=
  (List.map_congr_left (fun c hc => raw_char_upper (r.chars c (List.mem_append_left _ hc)))).trans (List.map_id _)

theorem map_upper_ext : r.ext.map upper = r.ext :=
  (List.map_congr_left (fun c hc => raw_char_upper (r.chars c (List.mem_append_right _ hc)))).trans (List.map_id _)

theorem map_upper_string : r.string.chars.map upper = r.string.chars := by
  change (joined r.base r.ext).map upper = joined r.base r.ext
  rw [map_upper_joined, r.map_upper_base, r.map_upper_ext]

theorem str_to_fat83_string : strToFat83 r.string = r.bytes := by
  rw [str_to_fat83_joined rfl r.parts, r.map_upper_base, r.map_upper_ext]
  rfl

end RawName

/-- The entry that an 11-byte name in memory begins. -/
def entryAt (name : Fin 11 → UInt8) (behind : CharArray) : Entry := fun i => followed name behind i.val

theorem entry_at_name (name : Fin 11 → UInt8) (behind : CharArray) (i : Fin 11) :
    entryAt name behind (i.castLE name_le_entry) = name i := dif_pos i.isLt

/-- A string of short parts comes back in upper case. -/
theorem shown_string (name : CString) (hname : name.chars = joined base ext) (h : ShortParts base ext)
    (behind out : CharArray) :
    (nameIn (fat83ToBuf (followed (strToFat83 name) behind) out).mem).chars = name.chars.map upper := by
  rw [name_in_buf (e := entryAt (strToFat83 name) behind) (fun _ => rfl)]
  exact entry_name_chars (fat83_to_str_stored hname h (entry_at_name _ behind))

/-- A raw name is read back from its string, for which 13 characters are enough, and an
8.3-shaped string matches what its raw name reads as. -/
theorem short_names_round_trip (r : RawName) (s : ShapedName) (behind out : CharArray) :
    strToFat83 (nameIn (fat83ToBuf (followed r.bytes behind) out).mem) = r.bytes ∧
      (fat83ToBuf (followed r.bytes behind) out).cells.length ≤ 13 ∧
      namesMatch (nameIn (fat83ToBuf (followed (strToFat83 s.string) behind) out).mem) s.string = true := by
  refine ⟨?_, ?_, ?_⟩
  · have hshown := shown_string r.string rfl r.parts behind out
    rw [r.map_upper_string, r.str_to_fat83_string] at hshown
    rw [c_string_ext hshown, r.str_to_fat83_string]
  · rw [fat83_to_buf_cells (e := entryAt r.bytes behind) (fun _ => rfl), List.length_range]
    exact Nat.succ_le_succ fat83_to_str_length
  · rw [names_match_iff, shown_string s.string rfl s.parts, List.map_map]
    exact List.map_congr_left (fun c _ => upper_upper c)

end BaSic.Proofs.ShortNames
