import BaSic.Proofs.Shadowing

namespace BaSic.Proofs.NameRoundTrip
open Kernel Lib FatTable FatChains Directory FileData Volume FileOps FatInvariant FatWrite FatNames ReadBack
open Formatted ChainInvariant ReadBack OtherFiles Shadowing

/-- No slot is in use behind the end of the directory. -/
def Terminated (g : Geometry) (slots : Nat → Entry) : Prop :=
  ∀ i j, i < j → j < g.rootEntryCount.toNat → slots i 0 = 0x00 → ¬ Used (slots j)

theorem raw_fits : 11 ≤ 32 := by decide

/-- The 11-byte name of an entry. -/
def rawName (e : Entry) : Fin 11 → UInt8 := fun i => e (i.castLE raw_fits)

/-- Slot `k` holds a live file under the 11-byte name `raw`. -/
def Holds (g : Geometry) (slots : Nat → Entry) (raw : Fin 11 → UInt8) (k : Nat) : Prop :=
  Live g slots k ∧ rawName (slots k) = raw

variable {s s₁ t : Fat12} {image : Nat → Sector} {chain : Nat → List Nat} {leaked : Nat → Prop}
  {g : Geometry} {slots : Nat → Entry} {name path : CString} {j k : Nat} {old : Option Nat} {buf : Bytes}

/-- In a terminated directory a name finds a file exactly when a live file matches. -/
theorem lookup_iff (h : Terminated g (slotAt g image)) : lookup g image name ≠ none ↔
    ∃ k, Live g (slotAt g image) k ∧ namesMatch (entryName (slotAt g image k)) name = true := by
  constructor
  · intro hl
    obtain ⟨k, hk⟩ := Option.ne_none_iff_exists'.mp hl
    exact ⟨k, lookup_live hk, lookup_match hk⟩
  · rintro ⟨k, hk, hm⟩
    obtain ⟨j, _, hj⟩ := lookup_of_match hk hm (fun i hi h0 => h i k hi hk.1 h0 hk.2.1)
    rw [hj]
    exact Option.some_ne_none j

theorem freed_terminated (h : Terminated g (slotAt g image)) (old : Option Nat) :
    Terminated g (slotAt g (freedImage g image old)) := by
  intro i j hij hj h0
  have hi : slotAt g image i 0 = 0x00 := by
    rw [freed_slot] at h0
    split at h0
    · unfold dropped at h0
      rw [Function.update_self] at h0
      cases h0
    · exact h0
  rw [freed_slot]
  split
  · exact used_dropped _
  · exact h i j hij hj hi

theorem written_terminated (f : FatCache) (n : CString) (buf : Bytes) (size : Nat) (hfit : FatFits s.geo)
    (h : Terminated s.geo (slotAt s.geo image)) (hk : freeSlot s.geo image = some k) :
    Terminated s.geo (slotAt s.geo (writtenImage s image f n buf size k)) := by
  obtain ⟨hcount, _, hused⟩ := free_slot_spec hk
  intro i j hij hj h0
  rw [slot_at_written hfit (by omega)] at h0
  rw [slot_at_written hfit hj]
  split at h0
  · exact absurd h0 (raw_ne_zero n 0)
  · have hki : k < i := by
      rcases Nat.lt_or_ge k i with hlt | hge
      · exact hlt
      · exact absurd h0 (hused i (by omega)).1
    rw [if_neg (by omega)]
    exact h i j hij hj h0

/-- The files live after a write are the new one and those that were left. -/
theorem written_live (f : FatCache) {n : CString} (buf : Bytes) {size : Nat} (hfit : FatFits s.geo)
    (hk : freeSlot s.geo image = some k) (hu : Used (newEntry n ((takenClusters s size).headD 0) size)) :
    Live s.geo (slotAt s.geo (writtenImage s image f n buf size k)) j ↔
      j = k ∨ Live s.geo (slotAt s.geo image) j := by
  obtain ⟨hcount, hfree, _⟩ := free_slot_spec hk
  by_cases hjk : j = k
  · subst hjk
    refine iff_of_true ⟨hcount, ?_⟩ (Or.inl rfl)
    rw [slot_at_written hfit hcount, if_pos rfl]
    exact ⟨hu, new_entry_file n _ size⟩
  · rw [live_congr (fun hj => by rw [slot_at_written hfit hj, if_neg hjk])]
    exact (or_iff_right hjk).symm

theorem new_entry_raw_name (n : CString) (first size : Nat) : rawName (newEntry n first size) = strToFat83 n := by
  funext i
  exact new_entry_raw n first size i.isLt

theorem Terminated.congr {slots' : Nat → Entry} (h : Terminated g slots)
    (hs : ∀ j, j < g.rootEntryCount.toNat → slots' j = slots j) : Terminated g slots' := by
  intro i j hij hj h0
  rw [hs i (by omega)] at h0
  rw [hs j hj]
  exact h i j hij hj h0

/-- Writes and deletes keep a directory terminated. -/
theorem update_terminated {op : FatUpdate} {r : Int} (h : WellFormed s image chain leaked)
    (hterm : Terminated s.geo (slotAt s.geo image)) (hop : updateStep s op = .ok (r, t)) :
    ∃ image', Mounted t image' ∧ Terminated t.geo (slotAt t.geo image') := by
  have hready := h.mounted.ready
  have hsame : s = t → ∃ image', Mounted t image' ∧ Terminated t.geo (slotAt t.geo image') := by
    rintro rfl
    exact ⟨image, h.mounted, hterm⟩
  have hfreed : ∀ {s₁ : Fat12} {old}, s₁.geo = s.geo →
      Terminated s₁.geo (slotAt s₁.geo (freedImage s.geo image old)) := by
    intro s₁ old hg
    rw [hg]
    exact freed_terminated hterm _
  cases op with
  | write path buf size =>
    cases path with
    | none =>
      simp only [updateStep, fat12Write, hready, Except.ok.injEq, Prod.mk.injEq] at hop
      exact hsame hop.2
    | some n =>
      cases buf with
      | none =>
        simp only [updateStep, fat12Write, hready, Except.ok.injEq, Prod.mk.injEq] at hop
        exact hsame hop.2
      | some buf =>
        obtain ⟨s₁, hf, hstore⟩ := fat12_write_eq h n buf size
        have h₁ := hf.well_formed h (fun k hk => lookup_live hk)
        have hop := hstore.symm.trans hop
        rcases store_file_eq h₁.mounted h₁.fits.regions n.skipSlash buf size.toNat_lt with
          ⟨_, f, hrun, _⟩ | ⟨_, _, f, d, hrun, _, hd⟩ | ⟨_, k, f, d, hk, hrun, _, _, hd⟩
        · cases hrun.symm.trans hop
          exact ⟨_, ⟨h₁.mounted.ready, h₁.mounted.shows⟩, hfreed hf.geo⟩
        · cases hrun.symm.trans hop
          exact ⟨_, ⟨h₁.mounted.ready, hd⟩, (hfreed hf.geo).congr (fun j hj => slot_at_data buf _ hj)⟩
        · cases hrun.symm.trans hop
          have hterm' := written_terminated (s := s₁) f n.skipSlash buf size.toNat h₁.fits
            (hfreed hf.geo) hk
          exact ⟨_, ⟨h₁.mounted.ready, hd⟩, hterm'⟩
  | delete path =>
    cases path with
    | none =>
      simp only [updateStep, fat12Delete, hready, Except.ok.injEq, Prod.mk.injEq] at hop
      exact hsame hop.2
    | some n =>
      obtain ⟨s₁, d, hf, hnone, hsome⟩ := fat12_delete_eq h n
      have h₁ := hf.well_formed h (fun k hk => lookup_live hk)
      by_cases hl : lookup s.geo image n.skipSlash = none
      · cases (hnone hl).symm.trans hop
        exact ⟨_, h₁.mounted, hfreed hf.geo⟩
      · obtain ⟨hdone, hd⟩ := hsome hl
        cases hdone.symm.trans hop
        have hslots : ∀ j, j < s₁.geo.rootEntryCount.toNat →
            slotAt s₁.geo (flushedImage s₁ (freedImage s.geo image (lookup s.geo image n.skipSlash))) j =
              slotAt s₁.geo (freedImage s.geo image (lookup s.geo image n.skipSlash)) j :=
          fun j hj => slot_at_congr hj (fun lba hlba _ => flushed_other h₁.fits hlba)
        exact ⟨_, ⟨h₁.mounted.ready, hd⟩, (hfreed hf.geo).congr hslots⟩

/-- The root directory after a write that returned its whole size. -/
theorem write_slots {size : UInt32} (h : WellFormed s image chain leaked)
    (hterm : Terminated s.geo (slotAt s.geo image)) (hp : Printable path) (hpos : 1 ≤ size.toNat)
    (hw : fat12Write s (some path) (some buf) size = .ok (size.toNat, t)) :
    ∃ image' k, Mounted t image' ∧ t.geo = s.geo ∧ Terminated s.geo (slotAt s.geo image') ∧
      entryName (slotAt s.geo image' k) = storedName path.skipSlash ∧
      rawName (slotAt s.geo image' k) = strToFat83 path.skipSlash ∧
      (∀ j, Live s.geo (slotAt s.geo image') j ↔
        j = k ∨ lookup s.geo image path.skipSlash ≠ some j ∧ Live s.geo (slotAt s.geo image) j) ∧
      ∀ j, lookup s.geo image path.skipSlash ≠ some j → Live s.geo (slotAt s.geo image) j →
        j ≠ k ∧ slotAt s.geo image' j = slotAt s.geo image j := by
  obtain ⟨s₁, k, f, d, hf, h₁, _, hk, rfl, _, hd, _⟩ := write_succeeded h hpos hw
  have hg := hf.geo
  have hfits := h₁.fits
  have hready := h₁.mounted.ready
  have hu := new_entry_used (printable_skip_slash hp) ((takenClusters s₁ size.toNat).headD 0) size.toNat
  have hfreed : ∀ j, slotAt s.geo (freedImage s.geo image (lookup s.geo image path.skipSlash)) j =
      if lookup s.geo image path.skipSlash = some j then dropped (slotAt s.geo image j)
      else slotAt s.geo image j := freed_slot
  have hleft : ∀ j, Live s.geo (slotAt s.geo (freedImage s.geo image (lookup s.geo image path.skipSlash))) j ↔
      lookup s.geo image path.skipSlash ≠ some j ∧ Live s.geo (slotAt s.geo image) j := fun _ => freed_live_iff
  have hterm₁ := freed_terminated hterm (lookup s.geo image path.skipSlash)
  generalize freedImage s.geo image (lookup s.geo image path.skipSlash) = image₁ at hk hd hfreed hleft hterm₁
  rw [← hg] at hterm₁
  have hterm' := written_terminated f path.skipSlash buf size.toNat hfits hterm₁ hk
  have hlive := fun j => written_live (j := j) f buf hfits hk hu
  obtain ⟨hcount, hfree, _⟩ := free_slot_spec hk
  have hslots : ∀ j, j < s₁.geo.rootEntryCount.toNat →
      slotAt s₁.geo (writtenImage s₁ image₁ f path.skipSlash buf size.toNat k) j =
        if j = k then newEntry path.skipSlash ((takenClusters s₁ size.toNat).headD 0) size.toNat
        else slotAt s₁.geo image₁ j := fun j hj => slot_at_written hfits hj
  have hself := hslots k hcount
  rw [if_pos rfl] at hself
  rw [hg] at hterm' hlive hself hslots hfree
  refine ⟨_, k, ⟨hready, hd⟩, hg, hterm', ?_, ?_, fun j => ?_, fun j hne hj => ?_⟩
  · rw [hself]
    exact stored_name_eq _ _ _
  · rw [hself]
    exact new_entry_raw_name _ _ _
  · rw [hlive, hleft]
  · have hslot := hfreed j
    rw [if_neg hne] at hslot
    have hjk : j ≠ k := by
      rintro rfl
      rw [hslot] at hfree
      exact hfree hj.2.1
    have hj' := hslots j hj.1
    rw [if_neg hjk, hslot] at hj'
    exact ⟨hjk, hj'⟩

/-- A write leaves one file under the 11-byte name of its path, and the path finds
a file, exactly when the 8.3 form reads back as the path or another file matches
the path, and no other file has the 11-byte name. -/
theorem written_name_iff {size : UInt32} (h : Usable s)
    (hterm : Terminated s.geo (slotAt s.geo s.disk.ata.sectors)) (hp : Printable path) (hpos : 1 ≤ size.toNat)
    (hw : fat12Write s (some path) (some buf) size = .ok (size.toNat, t)) :
    ((fat12Exists t path).1 = 1 ∧
      ∃! k, Holds t.geo (slotAt t.geo t.disk.ata.sectors) (strToFat83 path.skipSlash) k) ↔
    (namesMatch (storedName path.skipSlash) path.skipSlash = true ∨
        ∃ k, lookup s.geo s.disk.ata.sectors path.skipSlash ≠ some k ∧
          Live s.geo (slotAt s.geo s.disk.ata.sectors) k ∧
          namesMatch (entryName (slotAt s.geo s.disk.ata.sectors k)) path.skipSlash = true) ∧
      ∀ k, lookup s.geo s.disk.ata.sectors path.skipSlash ≠ some k →
        ¬ Holds s.geo (slotAt s.geo s.disk.ata.sectors) (strToFat83 path.skipSlash) k := by
  obtain ⟨chain, leaked, hs⟩ := h
  obtain ⟨image', k, ht, hg, hterm', hname, hraw, hlive, hother⟩ := write_slots hs hterm hp hpos hw
  rw [exists_iff ht, ht.shows.sectors, hg, ← Option.ne_none_iff_exists', lookup_iff hterm']
  refine and_congr ⟨?_, ?_⟩ ⟨?_, ?_⟩
  · rintro ⟨j, hj, hm⟩
    rcases (hlive j).mp hj with rfl | ⟨hne, hj⟩
    · rw [hname] at hm
      exact Or.inl hm
    · rw [(hother j hne hj).2] at hm
      exact Or.inr ⟨j, hne, hj, hm⟩
  · rintro (hm | ⟨j, hne, hj, hm⟩)
    · exact ⟨k, (hlive k).mpr (Or.inl rfl), by rw [hname]; exact hm⟩
    · exact ⟨j, (hlive j).mpr (Or.inr ⟨hne, hj⟩), by rw [(hother j hne hj).2]; exact hm⟩
  · rintro ⟨x, _, huniq⟩ j hne hj
    obtain ⟨hjk, hslot⟩ := hother j hne hj.1
    have hk := huniq k ⟨(hlive k).mpr (Or.inl rfl), hraw⟩
    have hj' := huniq j ⟨(hlive j).mpr (Or.inr ⟨hne, hj.1⟩), by rw [hslot]; exact hj.2⟩
    exact hjk (hj'.trans hk.symm)
  · intro hno
    refine ⟨k, ⟨(hlive k).mpr (Or.inl rfl), hraw⟩, fun j hj => ?_⟩
    rcases (hlive j).mp hj.1 with rfl | ⟨hne, hl⟩
    · rfl
    · have hr := hj.2
      rw [(hother j hne hl).2] at hr
      exact absurd ⟨hl, hr⟩ (hno j hne)

theorem formatted_terminated (hg : FatFits g) : Terminated g (slotAt g (formatImage g)) :=
  fun _ j _ _ _ => formatted_unused hg j

/-- The name `A` reads back as itself. -/
theorem written_name_iff_small : ∃ t,
    fat12Write (formatted smallGeometry) (some fileA) (some fun _ => 7) 600 = .ok (600, t) ∧
    (fat12Exists t fileA).1 = 1 ∧
    ∃! k, Holds t.geo (slotAt t.geo t.disk.ata.sectors) (strToFat83 fileA.skipSlash) k := by
  have hrun : (fat12Write (formatted smallGeometry) (some fileA) (some fun _ => 7) 600).map Prod.fst =
      .ok 600 := by
    decide +kernel
  obtain ⟨⟨_, t⟩, hw, rfl⟩ := ok_of_map hrun
  refine ⟨t, hw, ?_⟩
  have hpos : 1 ≤ (600 : UInt32).toNat := by decide
  refine (written_name_iff (formatted_well_formed small_fits).usable (formatted_terminated small_fits) printable_a
    hpos hw).mpr ⟨Or.inl (by decide), fun k _ hk => ?_⟩
  exact formatted_unused small_fits k hk.1.2.1

/-- A file written as `LONGNAME1` is stored as `LONGNAME` and not found again. -/
theorem written_name_not_found : ¬ ∀ s t path buf (size : UInt32), Sound s →
    Terminated s.geo (slotAt s.geo s.disk.ata.sectors) → Printable path → path.chars ≠ [] → 1 ≤ size.toNat →
    fat12Write s (some path) (some buf) size = .ok (size.toNat, t) →
    (fat12Exists t path).1 = 1 ∧
      ∃! k, Holds t.geo (slotAt t.geo t.disk.ata.sectors) (strToFat83 path.skipSlash) k := by
  intro hclaim
  have hrun : (fat12Write (formatted smallGeometry) (some longerName) (some fun _ => 7) 10).map (fun x =>
      (x.1, (fat12Exists x.2 longerName).1)) = .ok (10, 0) := by
    decide
  obtain ⟨⟨_, t⟩, hw, hfacts⟩ := ok_of_map hrun
  obtain ⟨rfl, hgone⟩ := Prod.mk.inj hfacts
  have hprint : Printable longerName := by decide +kernel
  have hfound := (hclaim _ t longerName _ 10 (formatted_sound small_fits) (formatted_terminated small_fits)
    hprint (List.cons_ne_nil _ _) (by decide) hw).1
  rw [hgone] at hfound
  cases hfound

end BaSic.Proofs.NameRoundTrip
