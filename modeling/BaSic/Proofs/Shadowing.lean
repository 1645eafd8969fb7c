import BaSic.Proofs.OtherFiles

namespace BaSic.Proofs.Shadowing
open Kernel Lib FatTable FatChains Directory FileData Volume FileOps FatInvariant FatWrite FatNames ReadBack
open Formatted ChainInvariant ReadBack OtherFiles

variable {s s₁ t : Fat12} {image : Nat → Sector} {chain : Nat → List Nat} {leaked : Nat → Prop}
  {g : Geometry} {a b n q : CString} {j k : Nat} {buf : Bytes}

theorem find_verdict_congr (h : namesMatch a b = true) : findVerdict a = findVerdict b := by
  funext e
  have hm : namesMatch (entryName e) a = namesMatch (entryName e) b := by
    rw [Bool.eq_iff_iff]
    exact ⟨fun hm => names_match_trans hm h, fun hm => names_match_trans hm (names_match_symm h)⟩
  unfold findVerdict
  rw [hm]

/-- Names that match find the same file. -/
theorem lookup_of_names_match (h : namesMatch a b = true) : lookup g image a = lookup g image b := by
  unfold lookup
  rw [find_verdict_congr h]

/-- A path with a slash in front. -/
def slashed (name : CString) : CString := ⟨chSlash :: name.chars, by
  intro c hc
  rcases List.mem_cons.mp hc with rfl | hc
  · decide
  · exact name.noNul c hc⟩

theorem slashed_skip (name : CString) : (slashed name).skipSlash = name := c_string_ext rfl

/-- The number of bytes a write of `size` bytes stores when it finds room. -/
def payload (g : Geometry) (size : Nat) : Nat :=
  min size (512 * (clustersNeeded g size * g.sectorsPerCluster.toNat))

theorem stored_size_eq {size : Nat}
    (hroom : clustersNeeded s.geo size ≤ (freeClusters (fatEntry s.fat.data) s.geo).length) :
    storedSize s size = payload s.geo size := by
  unfold storedSize takenLbas payload
  rw [chain_lbas_length, taken_length hroom]

/-- A write of `n` finds room, and its entry stands in front of the file whose
name the 8.3 form of `n` reads as. -/
structure Hides (s : Fat12) (chain : Nat → List Nat) (n : CString) (size : Nat) : Prop where
  used : strToFat83 n 0 ≠ 0xE5
  room : clustersNeeded s.geo size ≤ (freeClusters (freedTable (fatEntry s.fat.data) chain
    (lookup s.geo s.disk.ata.sectors n)) s.geo).length
  front : ∃ k j, freeSlot s.geo (freedImage s.geo s.disk.ata.sectors (lookup s.geo s.disk.ata.sectors n)) =
    some k ∧ lookup s.geo s.disk.ata.sectors (storedName n) = some j ∧ k < j

/-- Reading `q` gives the first `w` bytes of `buf`. -/
def Contains (s : Fat12) (q : CString) (buf : Bytes) (w : Nat) : Prop :=
  ∀ out (cap : UInt32), readResult s q out cap = .ok (((min cap.toNat w : Nat) : Int),
    some (fun i => if i < min cap.toNat w then buf i else out i))

/-- A write of `n` hides no file of another name, or one with the same bytes. -/
def Harmless (s : Fat12) (chain : Nat → List Nat) : FatUpdate → Prop
  | .write (some n) (some buf) size =>
    namesMatch (storedName n.skipSlash) n.skipSlash = true ∨ ¬ Hides s chain n.skipSlash size.toNat ∨
      Contains s (slashed (storedName n.skipSlash)) buf (payload s.geo size.toNat)
  | _ => True

theorem exists_iff (h : Mounted s image) :
    (fat12Exists s q).1 = 1 ↔ ∃ k, lookup s.geo image q.skipSlash = some k := by
  rw [fat12_exists_eq h]
  cases lookup s.geo image q.skipSlash <;> simp

theorem read_result_of_lookup (h : WellFormed s image chain leaked) {p : CString}
    (hp : lookup s.geo image p.skipSlash = some k) (hq : lookup s.geo image q.skipSlash = some k)
    (out : Bytes) (cap : UInt32) : readResult s q out cap = readResult s p out cap := by
  have hf := h.chains.file_at h.fits (lookup_live hp)
  rw [read_result_eq h.mounted hp hf, read_result_eq h.mounted hq hf]

/-- Freeing the file of `n` leaves a file of another name where it was. -/
theorem freed_other (hf : Freed s image chain (lookup s.geo image n) s₁) (h : WellFormed s image chain leaked)
    (hq : lookup s.geo image q = some k) (hne : namesMatch q n = false) :
    lookup s.geo (freedImage s.geo image (lookup s.geo image n)) q = some k ∧
      Live s.geo (slotAt s.geo (freedImage s.geo image (lookup s.geo image n))) k ∧
      SameFile s image s₁ (freedImage s.geo image (lookup s.geo image n)) k (chain k) := by
  have hlive := lookup_live hq
  have hno : ∀ j, lookup s.geo image n = some j → namesMatch (entryName (slotAt s.geo image j)) q = false := by
    intro j hj
    refine Bool.eq_false_iff.mpr (fun hm => ?_)
    rw [names_match_trans (names_match_symm hm) (lookup_match hj)] at hne
    cases hne
  have hold : lookup s.geo image n ≠ some k := by
    intro hk
    have hm := hno k hk
    rw [lookup_match hq] at hm
    cases hm
  refine ⟨?_, freed_live_iff.mpr ⟨hold, hlive⟩, freed_same hf h (fun j hj => lookup_live hj) hlive hold⟩
  rw [lookup_freed (fun j hj => ⟨lookup_live hj, hno j hj⟩)]
  exact hq

theorem delete_other {r : Int} (h : WellFormed s image chain leaked)
    (hq : lookup s.geo image q.skipSlash = some k) (hne : namesMatch q.skipSlash n.skipSlash = false)
    (hrun : fat12Delete s (some n) = .ok (r, t)) (out : Bytes) (cap : UInt32) :
    readResult t q out cap = readResult s q out cap := by
  obtain ⟨s₁, d, hf, hnone, hsome⟩ := fat12_delete_eq h n
  obtain ⟨hlook, hlive, hsame⟩ := freed_other hf h hq hne
  have hfile := h.chains.file_at h.fits (lookup_live hq)
  by_cases hl : lookup s.geo image n.skipSlash = none
  · rw [hnone hl] at hrun
    obtain ⟨-, rfl⟩ := Prod.mk.inj (Except.ok.inj hrun)
    exact hsame.read h.mounted hf.mounted hf.geo hfile hq hlook out cap
  · obtain ⟨hdone, hd⟩ := hsome hl
    rw [hdone] at hrun
    obtain ⟨-, rfl⟩ := Prod.mk.inj (Except.ok.inj hrun)
    have h₁ := hf.well_formed h (fun j hj => lookup_live hj)
    have hflush : ∀ lba, s.geo.rootStartLba ≤ lba →
        flushedImage s₁ (freedImage s.geo image (lookup s.geo image n.skipSlash)) lba =
          freedImage s.geo image (lookup s.geo image n.skipSlash) lba := by
      intro lba hlba
      refine flushed_other h₁.fits ?_
      rwa [hf.geo]
    have hslots : ∀ j, j < s.geo.rootEntryCount.toNat →
        slotAt s.geo (flushedImage s₁ (freedImage s.geo image (lookup s.geo image n.skipSlash))) j =
          slotAt s.geo (freedImage s.geo image (lookup s.geo image n.skipSlash)) j :=
      fun j hj => slot_at_congr hj (fun lba hlba _ => hflush lba hlba)
    have hkeep : SameFile s image { s₁ with disk := d, fat.dirty := false }
        (flushedImage s₁ (freedImage s.geo image (lookup s.geo image n.skipSlash))) k (chain k) := by
      refine ⟨(hslots k hlive.1).trans hsame.slot, hsame.table, fun lba hlba => ?_⟩
      rw [hflush lba (Nat.le_trans (root_le_data s.geo) (chain_lbas_ge hlba))]
      exact hsame.data lba hlba
    exact hkeep.read h.mounted ⟨hf.mounted.ready, hd⟩ hf.geo hfile hq (by rw [lookup_congr hslots, hlook]) out cap

/-- What a write of `n` does to the reading of a file of another name. -/
theorem write_other {r : Int} {size : UInt32} (h : WellFormed s s.disk.ata.sectors chain leaked)
    (hq : lookup s.geo s.disk.ata.sectors q.skipSlash = some k)
    (hne : namesMatch q.skipSlash n.skipSlash = false)
    (hrun : fat12Write s (some n) (some buf) size = .ok (r, t)) :
    (Hides s chain n.skipSlash size.toNat ∧ namesMatch (storedName n.skipSlash) q.skipSlash = true ∧
      Contains t q buf (payload s.geo size.toNat)) ∨
    (¬ (Hides s chain n.skipSlash size.toNat ∧ namesMatch (storedName n.skipSlash) q.skipSlash = true) ∧
      ∀ out cap, readResult t q out cap = readResult s q out cap) := by
  obtain ⟨s₁, hf, hstore⟩ := fat12_write_eq h n buf size
  have h₁ := hf.well_formed h (fun j hj => lookup_live hj)
  obtain ⟨hlook, hlive, hsame⟩ := freed_other hf h hq hne
  have hfile := h.chains.file_at h.fits (lookup_live hq)
  generalize hfreed : freedImage s.geo s.disk.ata.sectors (lookup s.geo s.disk.ata.sectors n.skipSlash) =
    image₁ at h₁ hlook hlive hsame
  rw [hstore] at hrun
  have hfree : freeClusters (freedTable (fatEntry s.fat.data) chain (lookup s.geo s.disk.ata.sectors n.skipSlash))
      s.geo = freeClusters (fatEntry s₁.fat.data) s₁.geo := by
    rw [hf.table, hf.geo]
  have hfail : (freeClusters (fatEntry s₁.fat.data) s₁.geo).length < clustersNeeded s₁.geo size.toNat ∨
      freeSlot s₁.geo image₁ = none → ∀ out cap, readResult t q out cap = readResult s q out cap := by
    intro hfull out cap
    obtain ⟨-, image', ht, hgeo, hlook', hfiles⟩ := store_failed h₁ size.toNat_lt hrun hfull
    rw [hf.geo] at hgeo hlook' hfiles
    exact (hsame.trans (hfiles k hlive) hf.geo).read h.mounted ht hgeo hfile hq (by rw [hlook', hlook]) out cap
  rcases store_file_eq h₁.mounted h₁.fits.regions n.skipSlash buf size.toNat_lt with
    ⟨hlt, _⟩ | ⟨_, hnone, _⟩ | ⟨hroom, j, f, d, hj, hdone, hb, htable, hd⟩
  · refine Or.inr ⟨fun hh => ?_, hfail (Or.inl hlt)⟩
    have hroom := hh.1.room
    rw [hfree, ← hf.geo] at hroom
    omega
  · refine Or.inr ⟨fun hh => ?_, hfail (Or.inr hnone)⟩
    obtain ⟨_, _, hk, _⟩ := hh.1.front
    rw [hfreed, ← hf.geo, hnone] at hk
    cases hk
  · rw [hdone] at hrun
    obtain ⟨-, rfl⟩ := Prod.mk.inj (Except.ok.inj hrun)
    rw [← hf.geo] at hlook hlive
    have hpast := lookup_past_written (f := f) (n := n.skipSlash) buf size.toNat h₁.fits hj hlook
    by_cases hc : j < k ∧ strToFat83 n.skipSlash 0 ≠ 0xE5 ∧
        namesMatch (storedName n.skipSlash) q.skipSlash = true
    · rw [if_pos hc] at hpast
      refine Or.inl ⟨⟨hc.2.1, ?_, j, k, ?_, ?_, hc.1⟩, hc.2.2, fun out cap => ?_⟩
      · rw [hfree, ← hf.geo]
        exact hroom
      · rw [hfreed, ← hf.geo]
        exact hj
      · rw [lookup_of_names_match hc.2.2]
        exact hq
      · obtain ⟨hcount, _, _⟩ := free_slot_spec hj
        obtain ⟨u, hread⟩ := read_written h₁.mounted h₁.fits hcount size.toNat_lt hroom hb hd hpast
          (Nat.le_refl chainFuel) out cap
        unfold readResult
        rw [hread, stored_size_eq hroom, hf.geo]
        rfl
    · rw [if_neg hc] at hpast
      refine Or.inr ⟨fun hh => hc ?_, fun out cap => ?_⟩
      · obtain ⟨i, x, hi, hx, hix⟩ := hh.1.front
        rw [lookup_of_names_match hh.2, hq] at hx
        rw [hfreed, ← hf.geo, hj] at hi
        cases hx
        cases hi
        exact ⟨hix, hh.1.used, hh.2⟩
      · have hnew := written_same (d := d) (n := n.skipSlash) buf h₁ hj htable hlive
        rw [hf.geo] at hpast
        exact (hsame.trans hnew hf.geo).read h.mounted ⟨h₁.mounted.ready, hd⟩ hf.geo hfile hq hpast out cap

/-- The reads of every file of another name survive an update exactly when it is
harmless. -/
theorem update_keeps_other_files {op : FatUpdate} {r : Int} (h : WellFormed s s.disk.ata.sectors chain leaked)
    (hn : op.path = some n) (hop : updateStep s op = .ok (r, t)) :
    (∀ q, (fat12Exists s q).1 = 1 → namesMatch q.skipSlash n.skipSlash = false →
      ∀ out cap, readResult t q out cap = readResult s q out cap) ↔ Harmless s chain op := by
  cases op with
  | delete path =>
    cases hn
    refine iff_of_true (fun q hq hne out cap => ?_) trivial
    obtain ⟨k, hk⟩ := (exists_iff h.mounted).mp hq
    exact delete_other h hk hne hop out cap
  | write path buf size =>
    cases hn
    cases buf with
    | none =>
      refine iff_of_true (fun q _ _ out cap => ?_) trivial
      have hready := h.mounted.ready
      simp only [updateStep, fat12Write, hready, Except.ok.injEq, Prod.mk.injEq] at hop
      rw [← hop.2]
    | some buf =>
      constructor
      · intro hkeep
        by_cases hm : namesMatch (storedName n.skipSlash) n.skipSlash = true
        · exact Or.inl hm
        by_cases hh : Hides s chain n.skipSlash size.toNat
        · refine Or.inr (Or.inr (fun out cap => ?_))
          obtain ⟨_, j, _, hj, _⟩ := hh.front
          have hne : namesMatch (slashed (storedName n.skipSlash)).skipSlash n.skipSlash = false := by
            rw [slashed_skip]
            exact Bool.eq_false_iff.mpr hm
          have hj' : lookup s.geo s.disk.ata.sectors (slashed (storedName n.skipSlash)).skipSlash = some j := by
            rw [slashed_skip]
            exact hj
          rw [← hkeep _ ((exists_iff h.mounted).mpr ⟨j, hj'⟩) hne out cap]
          rcases write_other h hj' hne hop with ⟨_, _, hc⟩ | ⟨hno, _⟩
          · exact hc out cap
          · exact absurd ⟨hh, by rw [slashed_skip]; exact names_match_iff.mpr rfl⟩ hno
        · exact Or.inr (Or.inl hh)
      · intro hsafe q hq hne out cap
        obtain ⟨k, hk⟩ := (exists_iff h.mounted).mp hq
        rcases write_other h hk hne hop with ⟨hh, hm, hc⟩ | ⟨_, hsame⟩
        · rcases hsafe with hown | hno | hsame
          · rw [names_match_trans (names_match_symm hm) hown] at hne
            cases hne
          · exact absurd hh hno
          · have hk' : lookup s.geo s.disk.ata.sectors (slashed (storedName n.skipSlash)).skipSlash = some k := by
              rw [slashed_skip, lookup_of_names_match hm]
              exact hk
            rw [hc out cap, read_result_of_lookup h hk' hk out cap, hsame out cap]
        · exact hsame out cap

/-- A longer second version of `A` leaves `B` as it is. -/
theorem update_keeps_other_files_small : ∃ s t, fat12Write s (some fileA) (some fun _ => 9) 600 = .ok (600, t) ∧
    (fat12Exists s fileB).1 = 1 ∧ ∀ out cap, readResult t fileB out cap = readResult s fileB out cap := by
  have hrun : (runAll updateStep (formatted smallGeometry) [.write (some fileA) (some fun _ => 7) 10,
      .write (some fileB) (some fun _ => 8) 10]).map (fun x => ((fat12Exists x.2 fileB).1,
        (fat12Write x.2 (some fileA) (some fun _ => 9) 600).map Prod.fst)) = .ok (1, .ok 600) := by
    decide +kernel
  obtain ⟨⟨_, s⟩, hall, hfacts⟩ := ok_of_map hrun
  obtain ⟨he, hw⟩ := Prod.mk.inj hfacts
  obtain ⟨⟨_, t⟩, hw, rfl⟩ := ok_of_map hw
  obtain ⟨-, ⟨chain, hs⟩, -⟩ := small_run (by simp [FatUpdate.path, printable_a, printable_b]) hall
  refine ⟨s, t, hw, he, ?_⟩
  have hop : updateStep s (.write (some fileA) (some fun _ => 9) 600) = .ok (600, t) := hw
  exact (update_keeps_other_files hs rfl hop).mpr (Or.inl (by decide)) fileB he (by decide)

/-- A file stored as `LONGNAME1` is read as `LONGNAME`, in the place of the file
of that name behind it. -/
theorem write_hides_other_file : ¬ ∀ s t op r n q, Sound s → DistinctNames s → op.path = some n →
    updateStep s op = .ok (r, t) → (fat12Exists s q).1 = 1 → namesMatch q.skipSlash n.skipSlash = false →
    ∀ out cap, readResult t q out cap = readResult s q out cap := by
  intro hclaim
  have hrun : (runAll updateStep (formatted smallGeometry) [.write (some fileA) (some fun _ => 7) 10,
      .write (some longName) (some fun _ => 8) 10, .delete (some fileA)]).map (fun x =>
        (decide (DistinctNames x.2), (fat12Exists x.2 longName).1,
          (readResult x.2 longName (fun _ => 0) 100).map Prod.fst,
          (fat12Write x.2 (some longerName) (some fun _ => 9) 20).map (fun y =>
            (readResult y.2 longName (fun _ => 0) 100).map Prod.fst))) =
      .ok (true, 1, .ok 10, .ok (.ok 20)) := by
    decide +kernel
  obtain ⟨⟨_, s⟩, hall, hfacts⟩ := ok_of_map hrun
  obtain ⟨hd, he, hbefore, hafter⟩ : _ ∧ _ ∧ _ ∧ _ := by simpa only [Prod.mk.injEq] using hfacts
  obtain ⟨⟨r, t⟩, hw, hread⟩ := ok_of_map hafter
  obtain ⟨-, hs⟩ := small_run (by simp [FatUpdate.path]; decide +kernel) hall
  have hsame := hclaim s t (.write (some longerName) (some fun _ => 9) 20) r longerName longName hs
    (of_decide_eq_true hd) rfl hw he (by decide) (fun _ => 0) 100
  rw [hsame, hbefore] at hread
  cases hread

end BaSic.Proofs.Shadowing
