import BaSic.Proofs.ElfReads

namespace BaSic.Proofs.ElfSegments
open Kernel Lib ElfLoad ElfReads

/-- The address is one that the segment of header `i` is to occupy. -/
structure Target (m : Mem) (data : UInt32) (i a : Nat) : Prop where
  load : pType m (phdrOf m data i) = ptLoad
  low : pVaddr m (phdrOf m data i) ≤ a
  high : a < pVaddr m (phdrOf m data i) + max (pFilesz m (phdrOf m data i)) (pMemsz m (phdrOf m data i))

/-- The first `n` headers and their segments are in the file, and the segments' places apart
from each other and from the file. -/
structure Layout (m : Mem) (data size : UInt32) (n : Nat) : Prop where
  headers : ∀ i, i < n →
    (readWord m (data.toNat + 28)).val + i * (readHalf m (data.toNat + 42)).val + 32 ≤ size.toNat
  segments : ∀ i, i < n → pType m (phdrOf m data i) = ptLoad →
    pOffset m (phdrOf m data i) + pFilesz m (phdrOf m data i) ≤ size.toNat
  ends : ∀ i, i < n → pType m (phdrOf m data i) = ptLoad →
    pVaddr m (phdrOf m data i) + max (pFilesz m (phdrOf m data i)) (pMemsz m (phdrOf m data i)) ≤ 4294967296
  apart : ∀ i k a, i < n → k < n → i ≠ k → Target m data i a → ¬ Target m data k a
  outside : ∀ i a, i < n → Target m data i a → ¬ Inside data size a

/-- The segments of the first `n` headers are in memory, which is otherwise as it was. -/
structure Loaded (m : Mem) (data : UInt32) (n : Nat) (d : Mem) : Prop where
  bytes : ∀ i, i < n → pType m (phdrOf m data i) = ptLoad → ∀ j, j < pFilesz m (phdrOf m data i) →
    d (pVaddr m (phdrOf m data i) + j) = m (u32 (data.toNat + pOffset m (phdrOf m data i) + j))
  zeros : ∀ i, i < n → pType m (phdrOf m data i) = ptLoad → ∀ j, pFilesz m (phdrOf m data i) ≤ j →
    j < pMemsz m (phdrOf m data i) → d (pVaddr m (phdrOf m data i) + j) = 0
  rest : ∀ a, (∀ i, i < n → ¬ Target m data i a) → d a = m a

/-- The memories agree on the file. -/
def SameFile (data size : UInt32) (m c : Mem) : Prop := ∀ a, Inside data size a → c a = m a

variable {data size : UInt32} {m c d : Mem} {i k n a entry : Nat}

/-! A segment in memory -/

section
variable {vaddr src filesz memsz : Nat}

/-- A segment copied, with zeros behind it. -/
def placed (c : Mem) (vaddr src filesz memsz : Nat) : Mem :=
  memset (memcpy c vaddr src filesz).val (vaddr + filesz) 0 (memsz - filesz)

theorem placed_outside (hend : vaddr + max filesz memsz ≤ 4294967296) (ha : ¬ (vaddr ≤ a ∧ a < vaddr + max filesz memsz)) :
    placed c vaddr src filesz memsz a = c a := by
  unfold placed
  rw [memset_outside, memcpy_outside]
  · intro j hj
    rw [u32_of_lt (by omega)]
    omega
  · intro j hj
    rw [u32_of_lt (by omega)]
    omega

theorem placed_bytes (hend : vaddr + max filesz memsz ≤ 4294967296)
    (hapart : ∀ i j, i < filesz → j < filesz → u32 (src + i) ≠ u32 (vaddr + j)) {j : Nat} (hj : j < filesz) :
    placed c vaddr src filesz memsz (vaddr + j) = c (u32 (src + j)) := by
  have haddr : u32 (vaddr + j) = vaddr + j := u32_of_lt (by omega)
  have hcopy : (memcpy c vaddr src filesz).val (u32 (vaddr + j)) = c (u32 (src + j)) :=
    memcpy_inside (by omega) hapart hj
  rw [haddr] at hcopy
  unfold placed
  rw [memset_outside, hcopy]
  · intro i hi
    rw [u32_of_lt (by omega)]
    omega

theorem placed_zeros (hend : vaddr + max filesz memsz ≤ 4294967296) {j : Nat} (hlow : filesz ≤ j) (hj : j < memsz) :
    placed c vaddr src filesz memsz (vaddr + j) = 0 := by
  have haddr : u32 (vaddr + filesz + (j - filesz)) = vaddr + j := by
    rw [u32_of_lt (by omega)]
    omega
  unfold placed
  rw [← haddr]
  exact memset_inside (by omega) (by omega)

end

/-! The file read again -/

theorem SameFile.word {o : Nat} (h : SameFile data size m c) (ho : o + 4 ≤ size.toNat) :
    (readWord c (data.toNat + o)).val = (readWord m (data.toNat + o)).val :=
  read_word_congr (fun j hj => h _ ((inside_iff (by have hsize := size.toNat_lt; omega) (by omega)).mpr ho j hj))

theorem SameFile.half {o : Nat} (h : SameFile data size m c) (ho : o + 2 ≤ size.toNat) :
    (readHalf c (data.toNat + o)).val = (readHalf m (data.toNat + o)).val :=
  read_half_congr (fun j hj => h _ ((inside_iff (by have hsize := size.toNat_lt; omega) (by omega)).mpr ho j hj))

theorem SameFile.phnum (h : SameFile data size m c) (hsize : ehdrSize ≤ size.toNat) :
    ElfLoad.phnum c data = ElfLoad.phnum m data := by
  unfold ehdrSize at hsize
  exact h.half (by omega)

theorem SameFile.phdr_of (h : SameFile data size m c) (hsize : ehdrSize ≤ size.toNat) (i : Nat) :
    phdrOf c data i = phdrOf m data i := by
  unfold ehdrSize at hsize
  have hphoff := h.word (o := 28) (by omega)
  have hphentsize := h.half (o := 42) (by omega)
  change u32 (data.toNat + (readWord c (data.toNat + 28)).val + i * (readHalf c (data.toNat + 42)).val) =
    u32 (data.toNat + (readWord m (data.toNat + 28)).val + i * (readHalf m (data.toNat + 42)).val)
  rw [hphoff, hphentsize]

/-- The fields of a header that lies in the file. -/
theorem SameFile.field (h : SameFile data size m c)
    (hin : (readWord m (data.toNat + 28)).val + i * (readHalf m (data.toNat + 42)).val + 32 ≤ size.toNat)
    (hk : k + 4 ≤ 32) : (readWord c (phdrOf m data i + k)).val = (readWord m (phdrOf m data i + k)).val := by
  have hsize := size.toNat_lt
  refine read_word_congr (fun j hj => h _ ?_)
  have haddr : u32 (phdrOf m data i + k + j) = u32 (data.toNat +
      ((readWord m (data.toNat + 28)).val + i * (readHalf m (data.toNat + 42)).val + k) + j) := by
    change u32 (u32 (data.toNat + (readWord m (data.toNat + 28)).val + i * (readHalf m (data.toNat + 42)).val) + k + j) = _
    unfold u32
    omega
  rw [haddr]
  exact (inside_iff (n := 4) (by omega) (by omega)).mpr (by omega) j hj

/-- Writing where a segment belongs leaves the file alone. -/
theorem Loaded.same_file (h : Loaded m data i c) (hl : Layout m data size n) (hi : i ≤ n) :
    SameFile data size m c := fun a ha =>
  h.rest a (fun k hk ht => hl.outside k a (Nat.lt_of_lt_of_le hk hi) ht ha)

/-- The turn of a header puts its segment in its place. -/
theorem turn_places (hl : Layout m data size n) (hsize : ehdrSize ≤ size.toNat) (hi : i < n)
    (hsame : SameFile data size m c) (hload : pType m (phdrOf m data i) = ptLoad)
    (hrun : (elfTurn data size i c).val = some d) :
    d = placed c (pVaddr m (phdrOf m data i)) (data.toNat + pOffset m (phdrOf m data i)) (pFilesz m (phdrOf m data i))
      (pMemsz m (phdrOf m data i)) := by
  have hphdr := hsame.phdr_of hsize i
  have hin := hl.headers i hi
  have hfield : ∀ {b : Mem}, SameFile data size m b → ∀ k, k + 4 ≤ 32 →
      (readWord b (phdrOf m data i + k)).val = (readWord m (phdrOf m data i + k)).val := fun hb k hk => hb.field hin hk
  have hload' : pType c (phdrOf c data i) = ptLoad := by
    rw [hphdr, ← hload]
    exact hfield hsame 0 (by omega)
  have hok : Checked c size (phdrOf c data i) := by
    by_contra hbad
    rw [turn_rejected hload' hbad] at hrun
    cases hrun
  have hcopied : copied c data (phdrOf m data i) = (memcpy c (pVaddr m (phdrOf m data i))
      (data.toNat + pOffset m (phdrOf m data i)) (pFilesz m (phdrOf m data i))).val := by
    have hvaddr : pVaddr c (phdrOf m data i) = pVaddr m (phdrOf m data i) := hfield hsame 8 (by omega)
    have hoffset : pOffset c (phdrOf m data i) = pOffset m (phdrOf m data i) := hfield hsame 4 (by omega)
    have hfilesz : pFilesz c (phdrOf m data i) = pFilesz m (phdrOf m data i) := hfield hsame 16 (by omega)
    unfold copied
    rw [hvaddr, hoffset, hfilesz]
  have hcopy : SameFile data size m (copied c data (phdrOf m data i)) := by
    intro a ha
    rw [← hsame a ha, hcopied]
    refine memcpy_outside (fun j hj heq => hl.outside i a hi ⟨hload, ?_, ?_⟩ ha)
    all_goals
      have hend := hl.ends i hi hload
      rw [heq, u32_of_lt (by omega)]
      omega
  rw [turn_loaded hload' hok, zero_fill_val, hphdr] at hrun
  have hvaddr : pVaddr _ (phdrOf m data i) = pVaddr m (phdrOf m data i) := hfield hcopy 8 (by omega)
  have hfilesz : pFilesz _ (phdrOf m data i) = pFilesz m (phdrOf m data i) := hfield hcopy 16 (by omega)
  have hmemsz : pMemsz _ (phdrOf m data i) = pMemsz m (phdrOf m data i) := hfield hcopy 20 (by omega)
  rw [hvaddr, hfilesz, hmemsz, hcopied] at hrun
  exact (Option.some.inj hrun).symm

/-- A header of another kind changes nothing. -/
theorem turn_passes (hl : Layout m data size n) (hsize : ehdrSize ≤ size.toNat) (hi : i < n)
    (hsame : SameFile data size m c) (hload : pType m (phdrOf m data i) ≠ ptLoad)
    (hrun : (elfTurn data size i c).val = some d) : d = c := by
  have htype : pType c (phdrOf c data i) = pType m (phdrOf m data i) := by
    rw [hsame.phdr_of hsize i]
    exact hsame.field (k := 0) (hl.headers i hi) (by omega)
  rw [turn_skipped (by rwa [htype])] at hrun
  exact (Option.some.inj hrun).symm

/-- The segment of header `i` loaded after those of the headers before it. -/
theorem Loaded.next (h : Loaded m data i c) (hl : Layout m data size n) (hsize : ehdrSize ≤ size.toNat)
    (hi : i < n) (hrun : (elfTurn data size i c).val = some d) : Loaded m data (i + 1) d := by
  have hsame := h.same_file hl (Nat.le_of_lt hi)
  by_cases hload : pType m (phdrOf m data i) = ptLoad
  · obtain rfl := turn_places hl hsize hi hsame hload hrun
    have hend := hl.ends i hi hload
    have hsegment := hl.segments i hi hload
    have hmax := size.toNat_lt
    have hother : ∀ a, ¬ Target m data i a → placed c (pVaddr m (phdrOf m data i))
        (data.toNat + pOffset m (phdrOf m data i)) (pFilesz m (phdrOf m data i)) (pMemsz m (phdrOf m data i)) a = c a :=
      fun a ha => placed_outside hend (fun hc => ha ⟨hload, hc.1, hc.2⟩)
    have hbefore : ∀ k j, k < i → pType m (phdrOf m data k) = ptLoad →
        j < max (pFilesz m (phdrOf m data k)) (pMemsz m (phdrOf m data k)) →
        ¬ Target m data i (pVaddr m (phdrOf m data k) + j) := fun k j hk hloadk hj =>
      hl.apart k i _ (Nat.lt_trans hk hi) hi (Nat.ne_of_lt hk) ⟨hloadk, by omega, by omega⟩
    have hfile : ∀ j, j < pFilesz m (phdrOf m data i) →
        Inside data size (u32 (data.toNat + pOffset m (phdrOf m data i) + j)) := fun j hj =>
      (inside_iff (by omega) (Nat.zero_lt_of_lt hj)).mpr hsegment j hj
    have hapart : ∀ k j, k < pFilesz m (phdrOf m data i) → j < pFilesz m (phdrOf m data i) →
        u32 (data.toNat + pOffset m (phdrOf m data i) + k) ≠ u32 (pVaddr m (phdrOf m data i) + j) := by
      intro k j hk hj heq
      have hin := hfile k hk
      rw [heq, u32_of_lt (by omega)] at hin
      exact hl.outside i _ hi ⟨hload, by omega, by omega⟩ hin
    refine ⟨fun k hk hloadk j hj => ?_, fun k hk hloadk j hlow hj => ?_, fun a ha => ?_⟩
    · rcases Nat.lt_succ_iff_lt_or_eq.mp hk with hlt | rfl
      · rw [hother _ (hbefore k j hlt hloadk (by omega))]
        exact h.bytes k hlt hloadk j hj
      · rw [placed_bytes hend hapart hj]
        exact hsame _ (hfile j hj)
    · rcases Nat.lt_succ_iff_lt_or_eq.mp hk with hlt | rfl
      · rw [hother _ (hbefore k j hlt hloadk (by omega))]
        exact h.zeros k hlt hloadk j hlow hj
      · exact placed_zeros hend hlow hj
    · rw [hother a (ha i (Nat.lt_succ_self i))]
      exact h.rest a (fun k hk => ha k (Nat.lt_succ_of_lt hk))
  · obtain rfl := turn_passes hl hsize hi hsame hload hrun
    refine ⟨fun k hk hloadk => ?_, fun k hk hloadk => ?_, fun a ha => h.rest a (fun k hk => ha k (Nat.lt_succ_of_lt hk))⟩
    · rcases Nat.lt_succ_iff_lt_or_eq.mp hk with hlt | rfl
      · exact h.bytes k hlt hloadk
      · exact absurd hloadk hload
    · rcases Nat.lt_succ_iff_lt_or_eq.mp hk with hlt | rfl
      · exact h.zeros k hlt hloadk
      · exact absurd hloadk hload

theorem nothing_loaded (m : Mem) (data : UInt32) : Loaded m data 0 m :=
  ⟨fun i hi => absurd hi (Nat.not_lt_zero i), fun i hi => absurd hi (Nat.not_lt_zero i), fun _ _ => rfl⟩

/-- Up to the turn of a header whose predecessors do not interfere, their segments are loaded. -/
theorem turn_loaded_all (hl : Layout m data size n) (hsize : ehdrSize ≤ size.toNat) (h : Turn data size m i c)
    (hi : i ≤ n) : Loaded m data i c := by
  induction h with
  | start => exact nothing_loaded m data
  | next turn more loads ih => exact (ih (Nat.le_of_succ_le hi)).next hl hsize hi loads

/-- An executable whose segments and their places do not interfere is in memory after
`elf_load`, which returns its entry. -/
theorem elf_load_places (h : (elfLoad m data size).val = (.loaded entry, d)) (hl : Layout m data size (phnum m data)) :
    Loaded m data (phnum m data) d ∧ (elfLoad m data size).val.1.value = entryOf m data := by
  obtain ⟨hexec, hentry, k, hturn, hdone⟩ := loaded_turn h
  have hle : k ≤ phnum m data := by
    by_contra hbeyond
    obtain ⟨c, e, hbefore, hmore, -⟩ := hturn.before (Nat.lt_of_not_le hbeyond)
    have hloaded := turn_loaded_all hl hexec.size hbefore (Nat.le_refl _)
    rw [(hloaded.same_file hl (Nat.le_refl _)).phnum hexec.size] at hmore
    exact absurd hmore (Nat.lt_irrefl _)
  have hloaded := turn_loaded_all hl hexec.size hturn hle
  have hsame := hloaded.same_file hl hle
  rw [hsame.phnum hexec.size] at hdone
  obtain rfl : k = phnum m data := Nat.le_antisymm hle hdone
  have hehdr := hexec.size
  unfold ehdrSize at hehdr
  refine ⟨hloaded, ?_⟩
  rw [h, hentry]
  exact hsame.word (o := 24) (by omega)

/-- Two bytes of code with two zeros behind them in memory, and another byte elsewhere. -/
def twoSegments : List UInt8 :=
  elfFile 0x500000 2 (loadPhdr 116 0x500000 2 4 ++ loadPhdr 118 0x600000 1 1 ++ [0x90, 0xF4, 0xCC])

theorem two_segments_target (hi : i < 2) (h : Target (inBuffer twoSegments) 0x400000 i a) :
    i = 0 ∧ 0x500000 ≤ a ∧ a < 0x500004 ∨ i = 1 ∧ a = 0x600000 := by
  have hlow := h.low
  have hhigh := h.high
  obtain rfl | rfl : i = 0 ∨ i = 1 := by omega
  · have hvaddr : pVaddr (inBuffer twoSegments) (phdrOf (inBuffer twoSegments) 0x400000 0) = 0x500000 := by decide
    have hsizes : max (pFilesz (inBuffer twoSegments) (phdrOf (inBuffer twoSegments) 0x400000 0))
        (pMemsz (inBuffer twoSegments) (phdrOf (inBuffer twoSegments) 0x400000 0)) = 4 := by decide
    omega
  · have hvaddr : pVaddr (inBuffer twoSegments) (phdrOf (inBuffer twoSegments) 0x400000 1) = 0x600000 := by decide
    have hsizes : max (pFilesz (inBuffer twoSegments) (phdrOf (inBuffer twoSegments) 0x400000 1))
        (pMemsz (inBuffer twoSegments) (phdrOf (inBuffer twoSegments) 0x400000 1)) = 1 := by decide
    omega

theorem inside_buffer {size : UInt32} (hsize : size.toNat < 0x100000) (h : Inside 0x400000 size a) :
    ¬ (0x500000 ≤ a ∧ a ≤ 0x600000) := by
  unfold Inside u32 at h
  have hdata : (0x400000 : UInt32).toNat = 4194304 := rfl
  rw [hdata] at h
  omega

theorem two_segments_layout : Layout (inBuffer twoSegments) 0x400000 119 2 := by
  have hcases : ∀ i, i < 2 → i = 0 ∨ i = 1 := fun i hi => by omega
  constructor
  · intro i hi
    obtain rfl | rfl := hcases i hi <;> decide
  · intro i hi _
    obtain rfl | rfl := hcases i hi <;> decide
  · intro i hi _
    obtain rfl | rfl := hcases i hi <;> decide
  · intro i k a hi hk hne ht hother
    have hplace := two_segments_target hi ht
    have hplace' := two_segments_target hk hother
    omega
  · intro i a hi ht hin
    have hplace := two_segments_target hi ht
    have hout := inside_buffer (by decide) hin
    omega

theorem elf_load_places_two :
    Loaded (inBuffer twoSegments) 0x400000 (phnum (inBuffer twoSegments) 0x400000)
      (elfLoad (inBuffer twoSegments) 0x400000 119).val.2 ∧
    (elfLoad (inBuffer twoSegments) 0x400000 119).val.1.value = entryOf (inBuffer twoSegments) 0x400000 := by
  have hresult : (elfLoad (inBuffer twoSegments) 0x400000 119).val.1 = .loaded 0x500000 := by decide
  have hphnum : phnum (inBuffer twoSegments) 0x400000 = 2 := by decide
  exact elf_load_places (Prod.ext hresult rfl) (hphnum ▸ two_segments_layout)

/-- Before a file is rejected for a segment out of bounds, the segments of the headers in
front have passed their checks, nothing has been written but what these headers load, and
unless they interfere their bytes and zeros are in memory, which is otherwise as it was. -/
theorem rejected_after_loading (h : (elfLoad m data size).val = (.outOfBounds, d)) :
    ∃ k, Turn data size m k d ∧ k < phnum d data ∧
      pType d (phdrOf d data k) = ptLoad ∧ ¬ Checked d size (phdrOf d data k) ∧
      (∀ i c, i < k → Turn data size m i c → pType c (phdrOf c data i) = ptLoad → Checked c size (phdrOf c data i)) ∧
      (∀ a, (∀ i c, i < k → Turn data size m i c → ¬ Writes data i c a) → d a = m a) ∧
      (Layout m data size k → Loaded m data k d) := by
  obtain ⟨hexec, k, hturn, hmore, hnone⟩ := out_of_bounds_turn h
  obtain ⟨hload, hbad⟩ := turn_none_iff.mp hnone
  exact ⟨k, hturn, hmore, hload, hbad, fun i c hi hc hl => hturn.checked hi hc hl, fun a ha => hturn.keeps ha,
    fun hl => turn_loaded_all hl hexec.size hturn (Nat.le_refl k)⟩

theorem half_bad_layout : Layout (inBuffer halfBad) 0x400000 117 1 := by
  have hvaddr : pVaddr (inBuffer halfBad) (phdrOf (inBuffer halfBad) 0x400000 0) = 0x500000 := by decide
  have hsizes : max (pFilesz (inBuffer halfBad) (phdrOf (inBuffer halfBad) 0x400000 0))
      (pMemsz (inBuffer halfBad) (phdrOf (inBuffer halfBad) 0x400000 0)) = 3 := by decide
  have hzero : ∀ i, i < 1 → i = 0 := fun i hi => by omega
  constructor
  · intro i hi
    obtain rfl := hzero i hi
    decide
  · intro i hi _
    obtain rfl := hzero i hi
    decide
  · intro i hi _
    obtain rfl := hzero i hi
    decide
  · intro i k a hi hk hne
    exact absurd ((hzero i hi).trans (hzero k hk).symm) hne
  · intro i a hi ht hin
    obtain rfl := hzero i hi
    have hlow := ht.low
    have hhigh := ht.high
    have hout := inside_buffer (by decide) hin
    omega

/-- The second header is rejected, as in the file. -/
theorem half_bad_second (h : Turn 0x400000 117 (inBuffer halfBad) 1 c) :
    (elfTurn 0x400000 117 1 c).val = none := by
  have hloaded := turn_loaded_all half_bad_layout (by decide) h (Nat.le_refl 1)
  have hsame := hloaded.same_file half_bad_layout (Nat.le_refl 1)
  have hphdr := hsame.phdr_of (by decide) 1
  have hfield : ∀ k, k + 4 ≤ 32 → (readWord c (phdrOf (inBuffer halfBad) 0x400000 1 + k)).val =
      (readWord (inBuffer halfBad) (phdrOf (inBuffer halfBad) 0x400000 1 + k)).val :=
    fun k hk => hsame.field (by decide) hk
  have htype : pType c (phdrOf c 0x400000 1) = ptLoad := by
    rw [hphdr]
    exact (hfield 0 (by omega)).trans (by decide)
  refine turn_rejected htype ?_
  have hoffset : pOffset c (phdrOf c 0x400000 1) = 200 := by
    rw [hphdr]
    exact (hfield 4 (by omega)).trans (by decide)
  have hfilesz : pFilesz c (phdrOf c 0x400000 1) = 1 := by
    rw [hphdr]
    exact (hfield 16 (by omega)).trans (by decide)
  unfold Checked
  rw [hoffset, hfilesz]
  decide

theorem half_bad_turn {k : Nat} (h : Turn 0x400000 117 (inBuffer halfBad) k d)
    (hbad : ¬ Checked d 117 (phdrOf d 0x400000 k)) : k = 1 := by
  by_contra hk
  obtain rfl | hlate : k = 0 ∨ 1 < k := by omega
  · cases h
    exact hbad (by unfold Checked; decide)
  · obtain ⟨c, e, hturn, -, hrun⟩ := h.before hlate
    rw [half_bad_second hturn] at hrun
    cases hrun

/-- The first segment is in memory when the file is rejected for the second. -/
theorem rejected_after_loading_half :
    ∃ d, (elfLoad (inBuffer halfBad) 0x400000 117).val = (.outOfBounds, d) ∧ Turn 0x400000 117 (inBuffer halfBad) 1 d ∧
      ¬ Checked d 117 (phdrOf d 0x400000 1) ∧ Loaded (inBuffer halfBad) 0x400000 1 d := by
  have hrun : (elfLoad (inBuffer halfBad) 0x400000 117).val =
      (.outOfBounds, (elfLoad (inBuffer halfBad) 0x400000 117).val.2) := Prod.ext half_bad_rejected rfl
  obtain ⟨k, hturn, -, -, hbad, -, -, hplaced⟩ := rejected_after_loading hrun
  obtain rfl := half_bad_turn hturn hbad
  exact ⟨_, hrun, hturn, hbad, hplaced half_bad_layout⟩

theorem rejected_file_loads : ¬ ∀ (m d : Mem) (data size : UInt32),
    (elfLoad m data size).val = (.outOfBounds, d) → ∀ a, ¬ Inside data size a → d a = m a := by
  intro h
  have hkept := h (inBuffer halfBad) _ 0x400000 117 (Prod.ext half_bad_rejected rfl) 0x500000 (by decide)
  revert hkept
  decide

end BaSic.Proofs.ElfSegments
