import BaSic.Proofs.FatNames
import BaSic.Proofs.Formatted
import BaSic.Lib.Steps

namespace BaSic.Proofs.ChainInvariant
open Kernel Lib FatTable FatChains Directory FileData Volume FileOps FatInvariant FatWrite
open FatNames Formatted

def Printable (name : CString) : Prop := ∀ c ∈ name.chars, 0x20 ≤ c ∧ c ≤ 0x7E

/-- A call that changes the volume. -/
inductive FatUpdate where
  | write (path : Option CString) (buf : Option Bytes) (size : UInt32)
  | delete (path : Option CString)

def FatUpdate.path : FatUpdate → Option CString
  | .write path _ _ => path
  | .delete path => path

def updateStep (s : Fat12) : FatUpdate → Except Fault (Int × Fat12)
  | .write path buf size => fat12Write s path buf size
  | .delete path => fat12Delete s path

/-- The root directory holds plain files only. -/
def Plain (g : Geometry) (slots : Nat → Entry) : Prop :=
  ∀ k, k < g.rootEntryCount.toNat → Used (slots k) → slots k 11 &&& 0x18 = 0

/-- A volume of plain files in order, on which no cluster is leaked. -/
def Sound (s : Fat12) : Prop :=
  (∃ chain, WellFormed s s.disk.ata.sectors chain (fun _ => False)) ∧
    Plain s.geo (slotAt s.geo s.disk.ata.sectors)

variable {s s₁ : Fat12} {image : Nat → Sector} {chain : Nat → List Nat} {name : CString}
  {leaked : Nat → Prop} {g : Geometry} {slots slots' : Nat → Entry}

theorem sound_of_well_formed (h : WellFormed s image chain (fun _ => False))
    (hp : Plain s.geo (slotAt s.geo image)) : Sound s := by
  unfold Sound
  rw [h.mounted.shows.sectors]
  exact ⟨⟨chain, h⟩, hp⟩

theorem Plain.update (h : Plain g slots) (hs : ∀ k, k < g.rootEntryCount.toNat →
    slots' k = slots k ∨ ¬ Used (slots' k) ∨ slots' k 11 &&& 0x18 = 0) : Plain g slots' := by
  intro k hk hu
  rcases hs k hk with he | hn | hp
  · rw [he] at hu ⊢
    exact h k hk hu
  · exact absurd hu hn
  · exact hp

theorem upper_printable {c : UInt8} (h : 0x20 ≤ c ∧ c ≤ 0x7E) : 0x20 ≤ upper c ∧ upper c ≤ 0x7E := by
  unfold upper
  split
  · rename_i hl
    have h0 := UInt8.le_iff_toNat_le.mp hl.1
    have h1 := UInt8.le_iff_toNat_le.mp hl.2
    have hsub : (c - 32).toNat = c.toNat - 32 := UInt8.toNat_sub_of_le _ _ (by
      rw [UInt8.le_iff_toNat_le]
      exact Nat.le_trans (by decide) h0)
    rw [UInt8.le_iff_toNat_le, UInt8.le_iff_toNat_le, hsub]
    simp only [UInt8.reduceToNat] at h0 h1 ⊢
    omega
  · exact h

/-- The raw name of a printable path is printable. -/
theorem raw_printable (h : Printable name) (i : Fin 11) :
    0x20 ≤ strToFat83 name i ∧ strToFat83 name i ≤ 0x7E :=
  raw_byte (P := fun c => 0x20 ≤ c ∧ c ≤ 0x7E) (fun c hc => upper_printable (h c hc)) (by decide) i

theorem new_entry_used (h : Printable name) (first size : Nat) : Used (newEntry name first size) := by
  have hraw := raw_printable h 0
  have he : newEntry name first size 0 = strToFat83 name 0 := rfl
  unfold Used
  rw [he]
  constructor
  · intro h0
    rw [h0] at hraw
    exact absurd hraw.1 (by decide)
  · intro h0
    rw [h0] at hraw
    exact absurd hraw.2 (by decide)

theorem freed_plain {old : Option Nat} (hf : Freed s image chain old s₁)
    (hp : Plain s.geo (slotAt s.geo image)) : Plain s₁.geo (slotAt s₁.geo (freedImage s.geo image old)) := by
  rw [hf.geo]
  refine hp.update (fun k _ => ?_)
  rw [freed_slot]
  split
  · exact Or.inr (Or.inl (used_dropped _))
  · exact Or.inl rfl

theorem write_keeps (h : WellFormed s image chain leaked) (path : CString) (hp : Printable path.skipSlash)
    (buf : Bytes) (size : UInt32) :
    ∃ r t image' chain', fat12Write s (some path) (some buf) size = .ok (r, t) ∧
      WellFormed t image' chain' leaked ∧
      (Plain s.geo (slotAt s.geo image) → Plain t.geo (slotAt t.geo image')) := by
  obtain ⟨s₁, hf, hw⟩ := fat12_write_eq h path buf size
  have h₁ := hf.well_formed h (fun k hk => lookup_live hk)
  have hplain₁ := freed_plain hf
  rw [hw]
  rcases store_file_eq h₁.mounted h₁.fits.regions path.skipSlash buf size.toNat_lt with
    ⟨_, f, hrun, hdata⟩ | ⟨_, _, f, d, hrun, hdata, hd⟩ | ⟨hroom, k, f, d, hk, hrun, hb, hsame, hd⟩
  · exact ⟨_, _, _, _, hrun,
      h₁.same rfl ⟨h₁.mounted.ready, h₁.mounted.shows⟩ hdata (fun _ _ => rfl), hplain₁⟩
  · refine ⟨_, _, _, _, hrun, h₁.same rfl ⟨h₁.mounted.ready, hd⟩ hdata (fun _ hj => slot_at_data buf _ hj),
      fun hplain => ?_⟩
    exact (hplain₁ hplain).update (fun _ hj => Or.inl (slot_at_data buf _ hj))
  · refine ⟨_, _, _, _, hrun, write_well_formed h₁ hk hroom hb hsame hd (new_entry_used hp _ _),
      fun hplain => ?_⟩
    refine (hplain₁ hplain).update (fun j hj => ?_)
    dsimp only at hj ⊢
    rw [slot_at_written h₁.fits hj]
    split
    · exact Or.inr (Or.inr (new_entry_plain _ _ _))
    · exact Or.inl rfl

theorem delete_keeps (h : WellFormed s image chain leaked) (path : CString) :
    ∃ r t image', fat12Delete s (some path) = .ok (r, t) ∧ WellFormed t image' chain leaked ∧
      (Plain s.geo (slotAt s.geo image) → Plain t.geo (slotAt t.geo image')) := by
  obtain ⟨s₁, d, hf, hnone, hsome⟩ := fat12_delete_eq h path
  have h₁ := hf.well_formed h (fun k hk => lookup_live hk)
  by_cases hl : lookup s.geo image path.skipSlash = none
  · exact ⟨0, s₁, _, hnone hl, h₁, freed_plain hf⟩
  · obtain ⟨hrun, hd⟩ := hsome hl
    have hslots : ∀ j, j < s₁.geo.rootEntryCount.toNat →
        slotAt s₁.geo (flushedImage s₁ (freedImage s.geo image (lookup s.geo image path.skipSlash))) j =
          slotAt s₁.geo (freedImage s.geo image (lookup s.geo image path.skipSlash)) j :=
      fun j hj => slot_at_congr hj (fun lba hlba _ => flushed_other h₁.fits hlba)
    exact ⟨1, _, _, hrun, h₁.same rfl ⟨h₁.mounted.ready, hd⟩ rfl hslots,
      fun hplain => (freed_plain hf hplain).update (fun j hj => Or.inl (hslots j hj))⟩

/-- Every call with a printable name returns and leaves the volume in order. -/
theorem update_sound (h : Sound s) (op : FatUpdate) (hop : ∀ p ∈ op.path, Printable p.skipSlash) :
    ∃ r t, updateStep s op = .ok (r, t) ∧ Sound t := by
  obtain ⟨⟨chain, hw⟩, hplain⟩ := h
  have hready := hw.mounted.ready
  have hsame : ∃ r t, (Except.ok (0, s) : Except Fault (Int × Fat12)) = .ok (r, t) ∧ Sound t :=
    ⟨0, s, rfl, ⟨chain, hw⟩, hplain⟩
  cases op with
  | write path buf size =>
    cases path with
    | none => simpa [updateStep, fat12Write, hready] using hsame
    | some path =>
      cases buf with
      | none => simpa [updateStep, fat12Write, hready] using hsame
      | some buf =>
        obtain ⟨r, t, _, _, hrun, ht, hp⟩ := write_keeps hw path (hop path rfl) buf size
        exact ⟨r, t, hrun, sound_of_well_formed ht (hp hplain)⟩
  | delete path =>
    cases path with
    | none => simpa [updateStep, fat12Delete, hready] using hsame
    | some path =>
      obtain ⟨r, t, _, hrun, ht, hp⟩ := delete_keeps hw path
      exact ⟨r, t, hrun, sound_of_well_formed ht (hp hplain)⟩

theorem printable_skip_slash (h : Printable name) : Printable name.skipSlash := by
  intro c hc
  unfold CString.skipSlash at hc
  dsimp only at hc
  split at hc
  · exact h c (List.mem_of_mem_tail hc)
  · exact h c hc

/-- A call with a printable name, and how it returns. -/
def PrintableCall (s : Fat12) (op : FatUpdate) (r : Int) (t : Fat12) : Prop :=
  (∀ p ∈ op.path, Printable p) ∧ updateStep s op = .ok (r, t)

theorem call_sound {op : FatUpdate} {r : Int} {t : Fat12} (h : Sound s) (hc : PrintableCall s op r t) :
    Sound t := by
  obtain ⟨_, _, hstep, ht⟩ := update_sound h op (fun p hp => printable_skip_slash (hc.1 p hp))
  cases hstep.symm.trans hc.2
  exact ht

/-- Over every run of writes and deletes with printable names, whatever they
return, the chains stay acyclic, ended, disjoint and without a leak, and no call
faults or hangs. -/
theorem chains_stay_sound {t : Fat12} {trace : List (FatUpdate × Int)} (h : Sound s)
    (hrun : Steps PrintableCall s trace t) :
    Sound t ∧ ∀ op : FatUpdate, (∀ p ∈ op.path, Printable p) → ∃ r u, PrintableCall t op r u := by
  have ht : Sound t := hrun.invariant (fun _ _ _ _ hs hc => call_sound hs hc) h
  refine ⟨ht, fun op hop => ?_⟩
  obtain ⟨r, u, hstep, _⟩ := update_sound ht op (fun p hp => printable_skip_slash (hop p hp))
  exact ⟨r, u, hop, hstep⟩

/-- Four clusters of one sector behind a one-sector FAT and root directory. -/
def smallGeometry : Geometry := ⟨512, 1, 1, 1, 16, 7, 1⟩

def fileA : CString := ⟨[0x41], by simp⟩

def fileB : CString := ⟨[0x42], by simp⟩

def longName : CString := ⟨[0x4C, 0x4F, 0x4E, 0x47, 0x4E, 0x41, 0x4D, 0x45], by simp⟩

/-- One character more than the base of an 8.3 name can hold. -/
def longerName : CString := ⟨[0x4C, 0x4F, 0x4E, 0x47, 0x4E, 0x41, 0x4D, 0x45, 0x31], by simp⟩

instance (name : CString) : Decidable (Printable name) :=
  inferInstanceAs (Decidable (∀ c ∈ name.chars, 0x20 ≤ c ∧ c ≤ 0x7E))

theorem printable_a : Printable fileA := by decide +kernel

theorem printable_b : Printable fileB := by decide +kernel

theorem small_fits : FatFits smallGeometry := ⟨by decide, by decide, by decide, by decide⟩

theorem formatted_sound (hg : FatFits g) : Sound (formatted g) :=
  sound_of_well_formed (formatted_well_formed hg) (fun k _ hu => absurd hu (formatted_unused hg k))

/-- Calls made one after the other on a small empty volume. -/
theorem small_run {ops : List FatUpdate} {rs : List Int} {t : Fat12}
    (hops : ∀ op ∈ ops, ∀ p ∈ op.path, Printable p)
    (h : runAll updateStep (formatted smallGeometry) ops = .ok (rs, t)) :
    Steps PrintableCall (formatted smallGeometry) (ops.zip rs) t ∧ Sound t := by
  have hrun := run_all_steps (R := PrintableCall) h (fun _ op _ _ hop hc => ⟨hops op hop, hc⟩)
  exact ⟨hrun, hrun.invariant (fun _ _ _ _ hs hc => call_sound hs hc) (formatted_sound small_fits)⟩

/-- A file of two clusters, a second version that no longer fits, and a delete
that finds nothing any more. -/
theorem chains_stay_sound_small : ∃ t, Steps PrintableCall (formatted smallGeometry)
    [(.write (some fileA) (some fun _ => 7) 600, 600), (.write (some fileA) (some fun _ => 7) 4000, 0),
      (.delete (some fileA), 0)] t ∧ Sound t := by
  have hresults : (runAll updateStep (formatted smallGeometry) [.write (some fileA) (some fun _ => 7) 600,
      .write (some fileA) (some fun _ => 7) 4000, .delete (some fileA)]).map Prod.fst = .ok [600, 0, 0] := by
    decide +kernel
  obtain ⟨⟨_, t⟩, hall, rfl⟩ := ok_of_map hresults
  obtain ⟨hrun, -⟩ := small_run (by simp [FatUpdate.path, printable_a]) hall
  exact ⟨t, hrun, (chains_stay_sound (formatted_sound small_fits) hrun).1⟩

end BaSic.Proofs.ChainInvariant
