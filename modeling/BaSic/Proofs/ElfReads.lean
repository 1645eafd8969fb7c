import BaSic.Proofs.ElfLoad

namespace BaSic.Proofs.ElfReads
open Kernel Lib ElfLoad

/-- The offset of header `i` in the file. -/
def phdrOff (m : Mem) (data : UInt32) (i : Nat) : Nat :=
  u32 ((readWord m (data.toNat + 28)).val + i * (readHalf m (data.toNat + 42)).val)

/-- The four bytes at offset `k` of the header are in the file. -/
def FieldIn (m : Mem) (data size : UInt32) (i k : Nat) : Prop := u32 (phdrOff m data i + k) + 4 ≤ size.toNat

/-- The fields of the header that are read lie in the file, and a segment that passes the
check does so without the sum of its offset and its size wrapping. -/
structure HeaderFits (data size : UInt32) (i : Nat) (m : Mem) : Prop where
  type : FieldIn m data size i 0
  checked : pType m (phdrOf m data i) = ptLoad → FieldIn m data size i 4 ∧ FieldIn m data size i 16
  loaded : pType m (phdrOf m data i) = ptLoad → Checked m size (phdrOf m data i) →
    FieldIn m data size i 8 ∧ FieldIn m data size i 20 ∧
      pOffset m (phdrOf m data i) + pFilesz m (phdrOf m data i) < 4294967296

/-- Every header fits when its turn comes, unless the file is rejected for its own header. -/
def HeadersFit (m : Mem) (data size : UInt32) : Prop :=
  Executable m data size → ∀ i c, Turn data size m i c → i < phnum c data → HeaderFits data size i c

/-- What is read of the file is in it, and a segment that is not in it has the file rejected. -/
structure ReadsFile (m : Mem) (data size : UInt32) : Prop where
  inside : (elfLoad m data size).All (Inside data size)
  rejects : ∀ i c, Turn data size m i c → i < phnum c data → pType c (phdrOf c data i) = ptLoad →
    size.toNat < pOffset c (phdrOf c data i) + pFilesz c (phdrOf c data i) → (elfLoad m data size).val.1.value = 0

variable {data size : UInt32} {m c d : Mem} {i k left n o : Nat}

/-- Consecutive bytes of the file are inside exactly when the last is before its end. -/
theorem inside_iff (ho : o < 4294967296) (hn : 0 < n) :
    (∀ j, j < n → Inside data size (u32 (data.toNat + o + j))) ↔ o + n ≤ size.toNat := by
  have hdata := data.toNat_lt
  have hsize := size.toNat_lt
  have hoff : ∀ j, u32 (u32 (data.toNat + o + j) + 4294967296 - data.toNat) = u32 (o + j) := by
    intro j
    unfold u32
    omega
  unfold Inside
  simp only [hoff]
  constructor
  · intro h
    by_contra hlong
    by_cases hlow : o ≤ size.toNat
    · have hend := h (size.toNat - o) (by omega)
      rw [Nat.add_sub_cancel' hlow, u32_of_lt hsize] at hend
      omega
    · have hstart := h 0 hn
      rw [Nat.add_zero, u32_of_lt ho] at hstart
      omega
  · intro h j hj
    rw [u32_of_lt (by omega)]
    omega

theorem all_field (k : Nat) (b : Mem) :
    (readWord b (phdrOf m data i + k)).All (Inside data size) ↔ FieldIn m data size i k := by
  have haddr : ∀ j, u32 (phdrOf m data i + k + j) = u32 (data.toNat + u32 (phdrOff m data i + k) + j) := by
    intro j
    have hphdr : phdrOf m data i = u32 (data.toNat + (readWord m (data.toNat + 28)).val +
      i * (readHalf m (data.toNat + 42)).val) := rfl
    rw [hphdr]
    unfold phdrOff u32
    omega
  rw [all_read_word]
  simp only [haddr]
  exact inside_iff (u32_lt _) (by omega)

/-- The header of a file that is large enough for it is inside. -/
theorem header_inside (hsize : ehdrSize ≤ size.toNat) (j : Nat) (hj : j < ehdrSize) :
    Inside data size (u32 (data.toNat + j)) :=
  (inside_iff (o := 0) (by omega) (Nat.zero_lt_of_lt hj)).mpr (by omega) j hj

theorem all_phdr_at (hsize : ehdrSize ≤ size.toNat) : (phdrAt m data i).All (Inside data size) := by
  unfold phdrAt
  rw [all_bind, all_bind]
  exact ⟨all_header_word (header_inside hsize) (by decide), all_header_half (header_inside hsize) (by decide), all_pure _⟩

/-- The bytes of a segment that passes the check are in the file unless the sum wraps. -/
theorem all_segment_iff (hok : Checked m size k) (b : Mem) (dst : Nat) :
    (memcpy b dst (data.toNat + pOffset m k) (pFilesz m k)).All (Inside data size) ↔
      pOffset m k + pFilesz m k < 4294967296 := by
  have hsize := size.toNat_lt
  have hoffset : pOffset m k < 4294967296 := read_word_lt m _
  unfold Checked at hok
  rw [all_memcpy]
  rcases Nat.eq_zero_or_pos (pFilesz m k) with hzero | hpos
  · rw [hzero]
    exact iff_of_true (fun j hj => absurd hj (Nat.not_lt_zero j)) hoffset
  · rw [inside_iff hoffset hpos]
    constructor
    · intro h
      omega
    · intro h
      rwa [u32_of_lt h] at hok

theorem all_zero_fill (b : Mem) (hfilesz : FieldIn m data size i 16) :
    FieldIn m data size i 8 ∧ FieldIn m data size i 20 ↔ FieldIn m data size i 8 ∧
      (zeroFill b (phdrOf m data i)).All (Inside data size) := by
  unfold zeroFill
  rw [all_bind, all_bind, all_field, all_field]
  refine and_congr_right (fun hvaddr => ⟨fun h => ⟨h, hfilesz, ?_⟩, fun h => h.1⟩)
  split_ifs
  · rw [all_bind, all_field]
    exact ⟨hvaddr, all_pure _⟩
  · exact all_pure _

/-- A turn reads inside the file exactly when its header fits. -/
theorem all_turn_iff (hsize : ehdrSize ≤ size.toNat) :
    (elfTurn data size i m).All (Inside data size) ↔ HeaderFits data size i m := by
  have htype : (readWord m (phdrAt m data i).val).All (Inside data size) ↔ FieldIn m data size i 0 := all_field 0 m
  have hoffset : (readWord m ((phdrAt m data i).val + 4)).All (Inside data size) ↔ FieldIn m data size i 4 := all_field 4 m
  have hfilesz : (readWord m ((phdrAt m data i).val + 16)).All (Inside data size) ↔ FieldIn m data size i 16 :=
    all_field 16 m
  have hvaddr : (readWord m ((phdrAt m data i).val + 8)).All (Inside data size) ↔ FieldIn m data size i 8 := all_field 8 m
  unfold elfTurn
  rw [all_bind, all_bind, htype]
  by_cases hload : pType m (phdrOf m data i) = ptLoad
  · have hload' : ¬ (readWord m (phdrAt m data i).val).val ≠ ptLoad := not_not.mpr hload
    rw [if_neg hload', all_bind, all_bind, hoffset, hfilesz]
    by_cases hok : Checked m size (phdrOf m data i)
    · have hin : ¬ u32 ((readWord m ((phdrAt m data i).val + 4)).val + (readWord m ((phdrAt m data i).val + 16)).val) >
          size.toNat := Nat.not_lt.mpr hok
      have hcopy : ∀ dst, (memcpy m dst (data.toNat + (readWord m ((phdrAt m data i).val + 4)).val)
          (readWord m ((phdrAt m data i).val + 16)).val).All (Inside data size) ↔ _ := all_segment_iff hok m
      rw [if_neg hin, all_bind, all_bind, all_bind, hvaddr, hcopy]
      constructor
      · rintro ⟨-, h0, h4, h16, h8, hwrap, hfill, -⟩
        have hlast := (all_zero_fill _ h16).mpr ⟨h8, hfill⟩
        exact ⟨h0, fun _ => ⟨h4, h16⟩, fun _ _ => ⟨h8, hlast.2, hwrap⟩⟩
      · intro h
        obtain ⟨h4, h16⟩ := h.checked hload
        obtain ⟨h8, h20, hwrap⟩ := h.loaded hload hok
        exact ⟨all_phdr_at hsize, h.type, h4, h16, h8, hwrap, ((all_zero_fill _ h16).mp ⟨h8, h20⟩).2, all_pure _⟩
    · have hout : u32 ((readWord m ((phdrAt m data i).val + 4)).val + (readWord m ((phdrAt m data i).val + 16)).val) >
          size.toNat := Nat.lt_of_not_le hok
      rw [if_pos hout]
      constructor
      · rintro ⟨-, h0, h4, h16, -⟩
        exact ⟨h0, fun _ => ⟨h4, h16⟩, fun _ hc => absurd hc hok⟩
      · intro h
        obtain ⟨h4, h16⟩ := h.checked hload
        exact ⟨all_phdr_at hsize, h.type, h4, h16, all_pure _⟩
  · have hload' : (readWord m (phdrAt m data i).val).val ≠ ptLoad := hload
    rw [if_pos hload']
    constructor
    · rintro ⟨-, h0, -⟩
      exact ⟨h0, fun hc => absurd hc hload, fun hc => absurd hc hload⟩
    · intro h
      exact ⟨all_phdr_at hsize, h.type, all_pure _⟩

/-- The loop from a turn on reads inside the file exactly when the headers still to come fit. -/
theorem all_loop_iff (hsize : ehdrSize ≤ size.toNat) (hturn : Turn data size m i c) (hleft : left + i = 65535) :
    (elfLoop data size left i c).All (Inside data size) ↔
      ∀ k d, i ≤ k → Turn data size m k d → k < phnum d data → HeaderFits data size k d := by
  have hphnum : ∀ b, (ePhnum b data).All (Inside data size) := fun b => all_header_half (header_inside hsize) (by decide)
  have hentry : ∀ b, (eEntry b data).All (Inside data size) := fun b => all_header_word (header_inside hsize) (by decide)
  induction left generalizing i c with
  | zero =>
    have hall : (elfLoop data size 0 i c).All (Inside data size) := by
      rw [elfLoop, all_bind, all_bind]
      exact ⟨hphnum c, hentry c, all_pure _⟩
    refine iff_of_true hall (fun k d hik _ hmore => ?_)
    have hlt := phnum_lt d data
    omega
  | succ left ih =>
    have hhere : (∀ k d, i ≤ k → Turn data size m k d → k < phnum d data → HeaderFits data size k d) ↔
        (i < phnum c data → HeaderFits data size i c) ∧
          ∀ k d, i + 1 ≤ k → Turn data size m k d → k < phnum d data → HeaderFits data size k d := by
      constructor
      · exact fun h => ⟨h i c (Nat.le_refl i) hturn, fun k d hk => h k d (Nat.le_of_succ_le hk)⟩
      · rintro ⟨hfirst, hrest⟩ k d hik hk hmore
        rcases Nat.eq_or_lt_of_le hik with rfl | hlt
        · obtain rfl := hturn.unique hk
          exact hfirst hmore
        · exact hrest k d hlt hk hmore
    rw [hhere, elfLoop, all_bind, and_iff_right (hphnum c)]
    by_cases hmore : i < phnum c data
    · have hmore' : i < (ePhnum c data).val := hmore
      rw [if_pos hmore', all_bind, all_turn_iff hsize, imp_iff_right hmore]
      refine and_congr_right (fun _ => ?_)
      cases hrun : (elfTurn data size i c).val with
      | none =>
        refine iff_of_true (all_pure _) (fun k d hk hk' hmore => ?_)
        obtain ⟨c', e, hc', -, hloads⟩ := hk'.before hk
        obtain rfl := hturn.unique hc'
        rw [hrun] at hloads
        cases hloads
      | some d => exact ih (.next hturn hmore hrun) (by omega)
    · have hmore' : ¬ i < (ePhnum c data).val := hmore
      rw [if_neg hmore', all_bind]
      refine iff_of_true ⟨hentry c, all_pure _⟩ ⟨fun h => absurd h hmore, fun k d hk hk' _ => ?_⟩
      obtain ⟨c', e, hc', hlt, -⟩ := hk'.before hk
      obtain rfl := hturn.unique hc'
      exact absurd hlt hmore

theorem all_load_iff (h : Executable m data size) : (elfLoad m data size).All (Inside data size) ↔
    ∀ i c, Turn data size m i c → i < phnum c data → HeaderFits data size i c := by
  have hloop := all_loop_iff h.size (.start : Turn data size m 0 m) rfl
  simp only [Nat.zero_le, true_imp_iff] at hloop
  unfold elfLoad
  rw [if_neg (Nat.not_lt.mpr h.size), all_bind, if_neg (not_not.mpr h.magic), all_bind, if_neg (not_not.mpr h.type),
    all_bind, if_neg (not_not.mpr h.machine), hloop]
  have hin : ∀ j, j < ehdrSize → Inside data size (u32 (data.toNat + j)) := header_inside h.size
  exact ⟨fun hall => hall.2.2.2, fun hall => ⟨all_header_word (k := 0) hin (by decide), all_header_half hin (by decide),
    all_header_half hin (by decide), hall⟩⟩

/-- `elf_load` reads inside the file exactly when the headers it comes to fit. -/
theorem reads_file_iff (m : Mem) (data size : UInt32) : ReadsFile m data size ↔ HeadersFit m data size := by
  constructor
  · exact fun h hexec => (all_load_iff hexec).mp h.inside
  · intro h
    by_cases hexec : Executable m data size
    · refine ⟨(all_load_iff hexec).mpr (h hexec), fun i c hturn hmore hload hlong => ?_⟩
      have hbad : ¬ Checked c size (phdrOf c data i) := by
        intro hok
        have hwrap := (h hexec i c hturn hmore).loaded hload hok
        unfold Checked at hok
        rw [u32_of_lt hwrap.2.2] at hok
        omega
      rw [rejected_in_turn hexec hturn hmore (turn_rejected hload hbad)]
      rfl
    · obtain ⟨⟨r, hother, hr⟩, hreads⟩ := elf_load_other hexec
      refine ⟨hreads _ header_inside, fun i c _ _ _ _ => ?_⟩
      rw [hother]
      rcases hr with rfl | rfl | rfl
      all_goals rfl

/-- A file that ends where its one program header should be. -/
def noHeaders : List UInt8 := elfFile 0x500000 1 []

theorem header_past_file : ¬ ∀ m data size, ReadsFile m data size := by
  intro h
  have hinside := (h (inBuffer noHeaders) 0x400000 52).inside 0x400034 (by decide)
  revert hinside
  decide

end BaSic.Proofs.ElfReads
