import BaSic.Kernel.Elf

namespace BaSic.Proofs.ElfLoad
open Kernel Lib

def phdrOf (m : Mem) (data : UInt32) (i : Nat) : Nat := (phdrAt m data i).val

def pType (m : Mem) (phdr : Nat) : Nat := (readWord m phdr).val
def pOffset (m : Mem) (phdr : Nat) : Nat := (readWord m (phdr + 4)).val
def pVaddr (m : Mem) (phdr : Nat) : Nat := (readWord m (phdr + 8)).val
def pFilesz (m : Mem) (phdr : Nat) : Nat := (readWord m (phdr + 16)).val
def pMemsz (m : Mem) (phdr : Nat) : Nat := (readWord m (phdr + 20)).val

def phnum (m : Mem) (data : UInt32) : Nat := (ePhnum m data).val
def entryOf (m : Mem) (data : UInt32) : Nat := (eEntry m data).val

/-- The header is that of a 32-bit x86 executable. -/
structure Executable (m : Mem) (data size : UInt32) : Prop where
  size : ehdrSize ≤ size.toNat
  magic : (readWord m data.toNat).val = elfMagic
  type : (readHalf m (data.toNat + 16)).val = etExec
  machine : (readHalf m (data.toNat + 18)).val = em386

/-- The header's segment passes the check for the file's size. -/
def Checked (m : Mem) (size : UInt32) (phdr : Nat) : Prop := u32 (pOffset m phdr + pFilesz m phdr) ≤ size.toNat

/-- The memory after the bytes of the file have been copied. -/
def copied (m : Mem) (data : UInt32) (phdr : Nat) : Mem :=
  (memcpy m (pVaddr m phdr) (data.toNat + pOffset m phdr) (pFilesz m phdr)).val

/-- The turn of header `i` comes with this memory. -/
inductive Turn (data size : UInt32) (m : Mem) : Nat → Mem → Prop where
  | start : Turn data size m 0 m
  | next {i : Nat} {c d : Mem} (turn : Turn data size m i c) (more : i < phnum c data)
      (loads : (elfTurn data size i c).val = some d) : Turn data size m (i + 1) d

/-- Loading header `i` writes the address. -/
structure Writes (data : UInt32) (i : Nat) (m : Mem) (a : Nat) : Prop where
  load : pType m (phdrOf m data i) = ptLoad
  target : (∃ j, j < pFilesz m (phdrOf m data i) ∧ a = u32 (pVaddr m (phdrOf m data i) + j)) ∨
    ∃ j, j < pMemsz (copied m data (phdrOf m data i)) (phdrOf m data i) -
        pFilesz (copied m data (phdrOf m data i)) (phdrOf m data i) ∧
      a = u32 (pVaddr (copied m data (phdrOf m data i)) (phdrOf m data i) +
        pFilesz (copied m data (phdrOf m data i)) (phdrOf m data i) + j)

variable {data size : UInt32} {m c d : Mem} {i k left phdr a : Nat}

theorem phnum_lt (m : Mem) (data : UInt32) : phnum m data < 65536 := read_half_lt m _

theorem turn_skipped (h : pType m (phdrOf m data i) ≠ ptLoad) : (elfTurn data size i m).val = some m := by
  unfold elfTurn
  rw [bind_val, bind_val]
  exact congrArg Reading.val (if_pos h)

theorem turn_rejected (h : pType m (phdrOf m data i) = ptLoad) (hbad : ¬ Checked m size (phdrOf m data i)) :
    (elfTurn data size i m).val = none := by
  have hload : ¬ (readWord m (phdrAt m data i).val).val ≠ ptLoad := not_not.mpr h
  have hout : u32 ((readWord m ((phdrAt m data i).val + 4)).val + (readWord m ((phdrAt m data i).val + 16)).val) >
      size.toNat := Nat.lt_of_not_le hbad
  unfold elfTurn
  rw [bind_val, bind_val, if_neg hload, bind_val, bind_val, if_pos hout]
  rfl

theorem turn_loaded (h : pType m (phdrOf m data i) = ptLoad) (hok : Checked m size (phdrOf m data i)) :
    (elfTurn data size i m).val = some (zeroFill (copied m data (phdrOf m data i)) (phdrOf m data i)).val := by
  have hload : ¬ (readWord m (phdrAt m data i).val).val ≠ ptLoad := not_not.mpr h
  have hin : ¬ u32 ((readWord m ((phdrAt m data i).val + 4)).val + (readWord m ((phdrAt m data i).val + 16)).val) >
      size.toNat := Nat.not_lt.mpr hok
  unfold elfTurn
  rw [bind_val, bind_val, if_neg hload, bind_val, bind_val, if_neg hin]
  rfl

/-- A turn ends the loop exactly for a segment that fails the check. -/
theorem turn_none_iff : (elfTurn data size i m).val = none ↔
    pType m (phdrOf m data i) = ptLoad ∧ ¬ Checked m size (phdrOf m data i) := by
  by_cases h : pType m (phdrOf m data i) = ptLoad
  · by_cases hok : Checked m size (phdrOf m data i)
    · rw [turn_loaded h hok]
      exact iff_of_false (fun hc => by cases hc) (fun hc => hc.2 hok)
    · exact iff_of_true (turn_rejected h hok) ⟨h, hok⟩
  · rw [turn_skipped h]
    exact iff_of_false (fun hc => by cases hc) (fun hc => h hc.1)

theorem zero_fill_val (m : Mem) (phdr : Nat) : (zeroFill m phdr).val =
    memset m (pVaddr m phdr + pFilesz m phdr) 0 (pMemsz m phdr - pFilesz m phdr) := by
  unfold zeroFill
  rw [bind_val, bind_val]
  by_cases hmore : pMemsz m phdr > pFilesz m phdr
  · exact congrArg Reading.val (if_pos hmore)
  · have hnone : pMemsz m phdr - pFilesz m phdr = 0 := by omega
    rw [hnone]
    exact congrArg Reading.val (if_neg hmore)

/-- A turn leaves alone what it does not write. -/
theorem turn_keeps (h : (elfTurn data size i c).val = some d) (ha : ¬ Writes data i c a) : d a = c a := by
  by_cases hload : pType c (phdrOf c data i) = ptLoad
  · by_cases hok : Checked c size (phdrOf c data i)
    · rw [turn_loaded hload hok, zero_fill_val] at h
      obtain rfl := Option.some.inj h
      rw [memset_outside (fun j hj hc => ha ⟨hload, Or.inr ⟨j, hj, hc⟩⟩)]
      exact memcpy_outside (fun j hj hc => ha ⟨hload, Or.inl ⟨j, hj, hc⟩⟩)
    · rw [turn_rejected hload hok] at h
      cases h
  · rw [turn_skipped hload] at h
    obtain rfl := Option.some.inj h
    rfl

theorem Turn.bound (h : Turn data size m i c) : i ≤ 65535 := by
  cases h with
  | start => exact Nat.zero_le _
  | next turn more loads => exact Nat.lt_of_lt_of_le more (Nat.le_of_lt_succ (phnum_lt _ data))

/-- The loop goes on from each of its turns. -/
theorem Turn.loop (h : Turn data size m i c) :
    (elfLoop data size 65535 0 m).val = (elfLoop data size (65535 - i) i c).val := by
  induction h with
  | start => rfl
  | @next i c d turn more loads ih =>
    have hbound := turn.bound
    have hlt := phnum_lt c data
    obtain ⟨left, hleft⟩ : ∃ left, 65535 - i = left + 1 := ⟨65534 - i, by omega⟩
    have hmore : i < (ePhnum c data).val := more
    rw [ih, hleft, elfLoop, bind_val, if_pos hmore, bind_val, loads]
    rw [show 65535 - (i + 1) = left by omega]

/-- How the loop ends: all headers are done, or one has been rejected, and the memory is
that of the turn then due. -/
theorem loop_ends (hturn : Turn data size m i c) (hleft : left + i = 65535) : ∃ k d, Turn data size m k d ∧
    (phnum d data ≤ k ∧ (elfLoop data size left i c).val = (.loaded (entryOf d data), d) ∨
      k < phnum d data ∧ (elfTurn data size k d).val = none ∧ (elfLoop data size left i c).val = (.outOfBounds, d)) := by
  induction left generalizing i c with
  | zero =>
    have hlt := phnum_lt c data
    exact ⟨i, c, hturn, Or.inl ⟨by omega, rfl⟩⟩
  | succ left ih =>
    rw [elfLoop, bind_val]
    by_cases hmore : i < phnum c data
    · rw [show (if i < (ePhnum c data).val then _ else _) = _ from if_pos hmore, bind_val]
      cases hrun : (elfTurn data size i c).val with
      | none => exact ⟨i, c, hturn, Or.inr ⟨hmore, hrun, rfl⟩⟩
      | some d => exact ih (.next hturn hmore hrun) (by omega)
    · rw [show (if i < (ePhnum c data).val then _ else _) = _ from if_neg hmore]
      exact ⟨i, c, hturn, Or.inl ⟨Nat.le_of_not_lt hmore, rfl⟩⟩

theorem elf_load_loop (h : Executable m data size) :
    (elfLoad m data size).val = (elfLoop data size 65535 0 m).val := by
  unfold elfLoad
  rw [if_neg (Nat.not_lt.mpr h.size), bind_val, if_neg (not_not.mpr h.magic), bind_val, if_neg (not_not.mpr h.type),
    bind_val, if_neg (not_not.mpr h.machine)]

theorem all_header_half {P : Nat → Prop} (h : ∀ j, j < ehdrSize → P (u32 (data.toNat + j))) (hk : k + 2 ≤ ehdrSize) :
    (readHalf m (data.toNat + k)).All P := all_read_half.mpr (fun j hj => by
  rw [Nat.add_assoc]
  exact h (k + j) (by omega))

theorem all_header_word {P : Nat → Prop} (h : ∀ j, j < ehdrSize → P (u32 (data.toNat + j))) (hk : k + 4 ≤ ehdrSize) :
    (readWord m (data.toNat + k)).All P := all_read_word.mpr (fun j hj => by
  rw [Nat.add_assoc]
  exact h (k + j) (by omega))

/-- What is no executable is rejected before the loop, and no more than its header is read. -/
theorem elf_load_other (h : ¬ Executable m data size) :
    (∃ r, (elfLoad m data size).val = (r, m) ∧ (r = .tooSmall ∨ r = .badMagic ∨ r = .notExecutable)) ∧
      ∀ P : Nat → Prop, (ehdrSize ≤ size.toNat → ∀ j, j < ehdrSize → P (u32 (data.toNat + j))) →
        (elfLoad m data size).All P := by
  unfold elfLoad
  by_cases hsize : size.toNat < ehdrSize
  · rw [if_pos hsize]
    exact ⟨⟨_, rfl, by simp⟩, fun P _ => all_pure _⟩
  have hle := Nat.le_of_not_lt hsize
  rw [if_neg hsize, bind_val]
  by_cases hmagic : (readWord m data.toNat).val ≠ elfMagic
  · rw [if_pos hmagic]
    refine ⟨⟨_, rfl, by simp⟩, fun P hP => ?_⟩
    rw [all_bind, if_pos hmagic]
    exact ⟨all_header_word (k := 0) (hP hle) (by decide), all_pure _⟩
  rw [if_neg hmagic, bind_val]
  by_cases htype : (readHalf m (data.toNat + 16)).val ≠ etExec
  · rw [if_pos htype]
    refine ⟨⟨_, rfl, by simp⟩, fun P hP => ?_⟩
    rw [all_bind, if_neg hmagic, all_bind, if_pos htype]
    exact ⟨all_header_word (k := 0) (hP hle) (by decide), all_header_half (hP hle) (by decide), all_pure _⟩
  rw [if_neg htype, bind_val]
  by_cases hmachine : (readHalf m (data.toNat + 18)).val ≠ em386
  · rw [if_pos hmachine]
    refine ⟨⟨_, rfl, by simp⟩, fun P hP => ?_⟩
    rw [all_bind, if_neg hmagic, all_bind, if_neg htype, all_bind, if_pos hmachine]
    exact ⟨all_header_word (k := 0) (hP hle) (by decide), all_header_half (hP hle) (by decide),
      all_header_half (hP hle) (by decide), all_pure _⟩
  · exact absurd ⟨hle, not_not.mp hmagic, not_not.mp htype, not_not.mp hmachine⟩ h

/-- A file is rejected for a segment out of bounds in the turn of its header. -/
theorem out_of_bounds_turn (h : (elfLoad m data size).val = (.outOfBounds, d)) :
    Executable m data size ∧ ∃ k, Turn data size m k d ∧ k < phnum d data ∧ (elfTurn data size k d).val = none := by
  by_cases hexec : Executable m data size
  · rw [elf_load_loop hexec] at h
    obtain ⟨k, c, hturn, ⟨-, hrun⟩ | ⟨hmore, hnone, hrun⟩⟩ := loop_ends (.start : Turn data size m 0 m) rfl
    · rw [hrun] at h
      cases h
    · rw [hrun] at h
      obtain ⟨-, rfl⟩ := Prod.mk.inj h
      exact ⟨hexec, k, hturn, hmore, hnone⟩
  · obtain ⟨⟨r, hother, rfl | rfl | rfl⟩, -⟩ := elf_load_other hexec
    all_goals
      rw [hother] at h
      cases h

theorem loaded_turn {entry : Nat} (h : (elfLoad m data size).val = (.loaded entry, d)) :
    Executable m data size ∧ entry = entryOf d data ∧ ∃ k, Turn data size m k d ∧ phnum d data ≤ k := by
  by_cases hexec : Executable m data size
  · rw [elf_load_loop hexec] at h
    obtain ⟨k, c, hturn, ⟨hdone, hrun⟩ | ⟨-, -, hrun⟩⟩ := loop_ends (.start : Turn data size m 0 m) rfl
    · rw [hrun] at h
      obtain ⟨hentry, rfl⟩ := Prod.mk.inj h
      exact ⟨hexec, (ElfResult.loaded.inj hentry).symm, k, hturn, hdone⟩
    · rw [hrun] at h
      cases h
  · obtain ⟨⟨r, hother, rfl | rfl | rfl⟩, -⟩ := elf_load_other hexec
    all_goals
      rw [hother] at h
      cases h

/-- The turn of a header comes with one memory only. -/
theorem Turn.unique (h : Turn data size m i c) (h' : Turn data size m i d) : c = d := by
  induction h generalizing d with
  | start =>
    cases h'
    rfl
  | next turn more loads ih =>
    cases h' with
    | next turn' more' loads' =>
      obtain rfl := ih turn'
      rw [loads] at loads'
      exact Option.some.inj loads'

/-- A turn comes only if the ones before have loaded. -/
theorem Turn.before (h : Turn data size m k d) (hi : i < k) :
    ∃ c e, Turn data size m i c ∧ i < phnum c data ∧ (elfTurn data size i c).val = some e := by
  induction h with
  | start => exact absurd hi (Nat.not_lt_zero i)
  | next turn more loads ih =>
    rcases Nat.lt_succ_iff_lt_or_eq.mp hi with hlt | rfl
    · exact ih hlt
    · exact ⟨_, _, turn, more, loads⟩

theorem rejected_in_turn (hexec : Executable m data size) (h : Turn data size m i c) (hmore : i < phnum c data)
    (hnone : (elfTurn data size i c).val = none) : (elfLoad m data size).val = (.outOfBounds, c) := by
  have hlt := phnum_lt c data
  obtain ⟨left, hleft⟩ : ∃ left, 65535 - i = left + 1 := ⟨65534 - i, by omega⟩
  have hmore' : i < (ePhnum c data).val := hmore
  rw [elf_load_loop hexec, h.loop, hleft, elfLoop, bind_val, if_pos hmore', bind_val, hnone]
  rfl

/-- Up to the turn of a header nothing is written but what the headers before it load. -/
theorem Turn.keeps (h : Turn data size m k d) (ha : ∀ i c, i < k → Turn data size m i c → ¬ Writes data i c a) :
    d a = m a := by
  induction h with
  | start => rfl
  | next turn more loads ih =>
    rw [turn_keeps loads (ha _ _ (Nat.lt_succ_self _) turn)]
    exact ih (fun i c hi => ha i c (Nat.lt_succ_of_lt hi))

/-- The headers before one whose turn comes have passed the check. -/
theorem Turn.checked (h : Turn data size m k d) (hi : i < k) (hc : Turn data size m i c)
    (hload : pType c (phdrOf c data i) = ptLoad) : Checked c size (phdrOf c data i) := by
  induction h with
  | start => exact absurd hi (Nat.not_lt_zero i)
  | @next j c' d turn more loads ih =>
    rcases Nat.lt_succ_iff_lt_or_eq.mp hi with hlt | rfl
    · exact ih hlt
    · obtain rfl := hc.unique turn
      by_contra hbad
      rw [turn_rejected hload hbad] at loads
      cases loads

/-- The address is one of the `size` from `data` on. -/
def Inside (data size : UInt32) (a : Nat) : Prop := u32 (a + 4294967296 - data.toNat) < size.toNat

instance (data size : UInt32) (a : Nat) : Decidable (Inside data size a) := inferInstanceAs (Decidable (_ < _))

def le16 (n : Nat) : List UInt8 := [UInt8.ofNat n, UInt8.ofNat (n / 256)]

def le32 (n : Nat) : List UInt8 := le16 n ++ le16 (n / 65536)

/-- A header for a segment that is loaded. -/
def loadPhdr (offset vaddr filesz memsz : Nat) : List UInt8 :=
  le32 ptLoad ++ le32 offset ++ le32 vaddr ++ le32 0 ++ le32 filesz ++ le32 memsz ++ le32 0 ++ le32 0

/-- An executable with its program headers right behind the file header. -/
def elfFile (entry phnum : Nat) (rest : List UInt8) : List UInt8 :=
  le32 elfMagic ++ List.replicate 12 0 ++ le16 etExec ++ le16 em386 ++ le32 1 ++ le32 entry ++ le32 ehdrSize ++
    List.replicate 8 0 ++ le16 ehdrSize ++ le16 32 ++ le16 phnum ++ List.replicate 6 0 ++ rest

/-- The file in the buffer of `sys_exec`, and nothing else in memory. -/
def inBuffer (file : List UInt8) : Mem := fun a => if 0x400000 ≤ a then file.getD (a - 0x400000) 0 else 0

/-- A byte of code with two zeros behind it, and a second segment that is beyond the end. -/
def halfBad : List UInt8 :=
  elfFile 0x500000 2 (loadPhdr 116 0x500000 1 3 ++ loadPhdr 200 0x600000 1 1 ++ [0x90])

theorem half_bad_rejected : (elfLoad (inBuffer halfBad) 0x400000 117).val.1 = .outOfBounds := by decide

end BaSic.Proofs.ElfLoad
