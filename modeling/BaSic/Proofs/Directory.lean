import BaSic.Kernel.Fat12Files
import BaSic.Proofs.DiskRefinement

namespace BaSic.Proofs.Directory
open Kernel DiskRefinement

/-- The disk layer stands for the sectors `image`, and every transfer succeeds. -/
structure Shows (d : Disk) (image : Nat → Sector) : Prop where
  coherent : Coherent d
  sectors : d.ata.sectors = image

variable {d : Disk} {image : Nat → Sector} {g : Geometry} {s : Fat12}

theorem Shows.read (h : Shows d image) (lba : Nat) (buf : Sector) :
    ∃ d', readInto d lba buf = (image lba, d') ∧ Shows d' image := by
  obtain ⟨hr, hc, hs⟩ := h.coherent.read lba
  rw [h.sectors] at hr hs
  unfold readInto
  generalize hd : diskReadSector d lba = res at hr hc hs
  obtain ⟨r, d'⟩ := res
  cases hr
  exact ⟨d', rfl, hc, hs⟩

theorem Shows.write (h : Shows d image) (lba : Nat) (sector : Sector) :
    Shows (writeFrom d lba sector) (Function.update image lba sector) := by
  obtain ⟨-, hc, hs⟩ := h.coherent.write lba sector
  rw [h.sectors] at hs
  exact ⟨hc, hs⟩

theorem Shows.cache_flush (h : Shows d image) : diskCacheFlush d = d := h.coherent.flush

/-- The directory loops over entries `k`, `k + 1`, … laid out in one row. -/
def firstHit (verdict : Entry → Verdict) (slots : Nat → Entry) : (count k : Nat) → Option Nat
  | 0, _ => none
  | count + 1, k =>
    match verdict (slots k) with
    | .next => firstHit verdict slots count (k + 1)
    | .stop => none
    | .hit => some k

theorem first_hit_some {verdict : Entry → Verdict} {slots : Nat → Entry} {count k j : Nat} :
    firstHit verdict slots count k = some j ↔
      (k ≤ j ∧ j < k + count) ∧ verdict (slots j) = .hit ∧
        ∀ i, k ≤ i → i < j → verdict (slots i) = .next := by
  induction count generalizing k with
  | zero =>
    simp only [firstHit, reduceCtorEq, false_iff]
    omega
  | succ count ih =>
    rw [firstHit]
    cases hv : verdict (slots k) with
    | next =>
      simp only
      rw [ih]
      constructor
      · intro ⟨hj, hhit, hbefore⟩
        refine ⟨by omega, hhit, fun i hi hij => ?_⟩
        by_cases hik : i = k
        · rw [hik, hv]
        · exact hbefore i (by omega) hij
      · intro ⟨hj, hhit, hbefore⟩
        have hne : j ≠ k := by
          intro he
          rw [he, hv] at hhit
          cases hhit
        exact ⟨by omega, hhit, fun i hi hij => hbefore i (by omega) hij⟩
    | stop =>
      simp only [reduceCtorEq, false_iff]
      intro ⟨hj, hhit, hbefore⟩
      by_cases hjk : j = k
      · rw [hjk, hv] at hhit
        cases hhit
      · rw [hbefore k (Nat.le_refl _) (by omega)] at hv
        cases hv
    | hit =>
      simp only [Option.some.injEq]
      constructor
      · intro he
        subst he
        exact ⟨by omega, hv, fun i hi hij => by omega⟩
      · intro ⟨hj, hhit, hbefore⟩
        by_cases hjk : j = k
        · exact hjk.symm
        · rw [hbefore k (Nat.le_refl _) (by omega)] at hv
          cases hv

/-- A hit that no stop hides gives a first hit. -/
theorem first_hit_of_hit {verdict : Entry → Verdict} {slots : Nat → Entry} {count k j : Nat}
    (hk : k ≤ j) (hj : j < k + count) (hhit : verdict (slots j) = .hit)
    (hstop : ∀ i, k ≤ i → i < j → verdict (slots i) ≠ .stop) :
    ∃ i, i ≤ j ∧ firstHit verdict slots count k = some i := by
  induction count generalizing k with
  | zero => omega
  | succ count ih =>
    rw [firstHit]
    cases hv : verdict (slots k) with
    | hit => exact ⟨k, hk, rfl⟩
    | stop =>
      by_cases hkj : k = j
      · rw [hkj, hhit] at hv
        cases hv
      · exact absurd hv (hstop k (Nat.le_refl _) (by omega))
    | next =>
      have hkj : k ≠ j := by
        intro he
        rw [he, hhit] at hv
        cases hv
      exact ih (by omega) (by omega) (fun i hi hij => hstop i (by omega) hij)

theorem first_hit_congr {verdict : Entry → Verdict} {slots slots' : Nat → Entry} {count k : Nat}
    (h : ∀ i, k ≤ i → i < k + count → verdict (slots' i) = verdict (slots i)) :
    firstHit verdict slots' count k = firstHit verdict slots count k := by
  induction count generalizing k with
  | zero => rfl
  | succ count ih =>
    rw [firstHit, firstHit, h k (Nat.le_refl _) (by omega),
      ih (fun i hi hi' => h i (by omega) (by omega))]

/-- Slot `k` of the root directory. -/
def slotAt (g : Geometry) (image : Nat → Sector) (k : Nat) : Entry :=
  entryAt (image (g.rootStartLba + k / 16)) (k % 16)

/-- Where slot `k` is, as the code reports a hit. -/
def foundAt (g : Geometry) (image : Nat → Sector) (k : Nat) : Found :=
  ⟨g.rootStartLba + k / 16, k % 16, slotAt g image k⟩

/-- The slot `find_entry` comes back with. -/
def lookup (g : Geometry) (image : Nat → Sector) (name : CString) : Option Nat :=
  firstHit (findVerdict name) (slotAt g image) g.rootEntryCount.toNat 0

/-- The slot `alloc_root_entry` comes back with. -/
def freeSlot (g : Geometry) (image : Nat → Sector) : Option Nat :=
  firstHit allocVerdict (slotAt g image) g.rootEntryCount.toNat 0

/-- Scanning inside one sector is scanning its stretch of the row of slots. -/
theorem scan_sector_eq (verdict : Entry → Verdict) (sector : Sector) (slots : Nat → Entry)
    (base count idx rest : Nat) (h : ∀ i, idx ≤ i → i < idx + count → slots (base + i) = entryAt sector i) :
    (∃ i, i < idx + count ∧ scanSector verdict sector count idx = (.hit, i) ∧
      firstHit verdict slots (count + rest) (base + idx) = some (base + i) ∧ slots (base + i) = entryAt sector i) ∨
    (∃ i, scanSector verdict sector count idx = (.stop, i) ∧
      firstHit verdict slots (count + rest) (base + idx) = none) ∨
    (∃ i, scanSector verdict sector count idx = (.next, i) ∧
      firstHit verdict slots (count + rest) (base + idx) =
        firstHit verdict slots rest (base + idx + count)) := by
  induction count generalizing idx with
  | zero =>
    right
    right
    exact ⟨idx, rfl, by rw [Nat.zero_add, Nat.add_zero]⟩
  | succ count ih =>
    have hidx := h idx (Nat.le_refl _) (by omega)
    rw [scanSector, Nat.add_right_comm count 1 rest, firstHit, hidx]
    cases hv : verdict (entryAt sector idx) with
    | hit => exact Or.inl ⟨idx, by omega, rfl, rfl, hidx⟩
    | stop => exact Or.inr (Or.inl ⟨idx, rfl, rfl⟩)
    | next =>
      simp only
      have hrec := ih (idx + 1) (fun i hi hi' => h i (by omega) (by omega))
      rw [← Nat.add_assoc base idx 1, Nat.add_right_comm (base + idx) 1 count] at hrec
      rcases hrec with ⟨i, hi, hr⟩ | hr
      · exact Or.inl ⟨i, by omega, hr⟩
      · exact Or.inr hr

/-- The two nested directory loops find what the scan along the row finds. -/
theorem scan_root_eq (verdict : Entry → Verdict) (fuel q left : Nat) (hfuel : left ≤ fuel)
    (h : Shows d image) (buf : Sector) :
    ∃ d', scanRoot verdict fuel d buf (g.rootStartLba + q) left =
        ((firstHit verdict (slotAt g image) left (16 * q)).map (foundAt g image), d') ∧
      Shows d' image := by
  induction fuel generalizing q left d buf with
  | zero =>
    have hl : left = 0 := by omega
    subst hl
    exact ⟨d, rfl, h⟩
  | succ fuel ih =>
    rw [scanRoot]
    by_cases hl : left = 0
    · subst hl
      exact ⟨d, rfl, h⟩
    rw [if_neg hl]
    obtain ⟨d', hread, hd'⟩ := h.read (g.rootStartLba + q) buf
    rw [hread]
    simp only
    have hslots : ∀ i, 0 ≤ i → i < 0 + min 16 left →
        slotAt g image (16 * q + i) = entryAt (image (g.rootStartLba + q)) i := by
      intro i _ hi
      unfold slotAt
      rw [show (16 * q + i) / 16 = q by omega, show (16 * q + i) % 16 = i by omega]
    have hscan := scan_sector_eq verdict (image (g.rootStartLba + q)) (slotAt g image) (16 * q)
      (min 16 left) 0 (left - min 16 left) hslots
    rw [Nat.add_sub_cancel' (Nat.min_le_right 16 left), Nat.add_zero] at hscan
    rcases hscan with ⟨i, hi, hs, hf, he⟩ | ⟨i, hs, hf⟩ | ⟨i, hs, hf⟩
    · rw [hs, hf]
      refine ⟨d', ?_, hd'⟩
      simp only [Option.map_some, foundAt, he]
      rw [show (16 * q + i) / 16 = q by omega, show (16 * q + i) % 16 = i by omega]
    · rw [hs, hf]
      exact ⟨d', rfl, hd'⟩
    · rw [hs, hf]
      obtain ⟨d'', hrun, hd''⟩ := ih (q + 1) (left - min 16 left) (by omega) hd' (image (g.rootStartLba + q))
      by_cases hle : left ≤ 16
      · have hz : left - min 16 left = 0 := by omega
        rw [hz] at hrun ⊢
        exact ⟨d'', hrun, hd''⟩
      · rw [show 16 * (q + 1) = 16 * q + min 16 left by omega] at hrun
        exact ⟨d'', hrun, hd''⟩

theorem find_entry_eq (h : Shows s.disk image) (name : CString) :
    ∃ d', findEntry s name =
        ((lookup s.geo image name).map (foundAt s.geo image), { s with disk := d' }) ∧
      Shows d' image := by
  obtain ⟨d', hrun, hd'⟩ := scan_root_eq (g := s.geo) (findVerdict name) s.geo.rootEntryCount.toNat 0
    s.geo.rootEntryCount.toNat (Nat.le_refl _) h s.stack
  refine ⟨d', ?_, hd'⟩
  unfold findEntry
  rw [Nat.add_zero] at hrun
  simp only
  rw [hrun]
  rfl

theorem alloc_root_entry_eq (h : Shows s.disk image) :
    ∃ d', allocRootEntry s =
        ((freeSlot s.geo image).map (foundAt s.geo image), { s with disk := d' }) ∧
      Shows d' image := by
  obtain ⟨d', hrun, hd'⟩ := scan_root_eq (g := s.geo) allocVerdict s.geo.rootEntryCount.toNat 0
    s.geo.rootEntryCount.toNat (Nat.le_refl _) h s.stack
  refine ⟨d', ?_, hd'⟩
  unfold allocRootEntry
  rw [Nat.add_zero] at hrun
  simp only
  rw [hrun]
  rfl

/-- The image with the entry `e` stored in slot `k`. -/
def storeSlot (g : Geometry) (image : Nat → Sector) (k : Nat) (e : Entry) : Nat → Sector :=
  Function.update image (g.rootStartLba + k / 16)
    (setEntry (image (g.rootStartLba + k / 16)) (k % 16) e)

/-- The image with the first name byte of slot `k` set to 0xE5. -/
def dropSlot (g : Geometry) (image : Nat → Sector) (k : Nat) : Nat → Sector :=
  Function.update image (g.rootStartLba + k / 16)
    (setByte (image (g.rootStartLba + k / 16)) (k % 16 * 32) 0xE5)

theorem entry_at_set (sector : Sector) {i j : Nat} (hj : j < 16) (e : Entry) :
    entryAt (setEntry sector i e) j = if j = i then e else entryAt sector j := by
  funext b
  unfold entryAt setEntry
  simp only [Fin.val_ofNat]
  by_cases hji : j = i
  · rw [if_pos (by omega), if_pos hji]
    congr 1
    apply Fin.ext
    simp only
    omega
  · rw [if_neg (by omega), if_neg hji]

theorem slot_at_store (g : Geometry) (image : Nat → Sector) (k j : Nat) (e : Entry) :
    slotAt g (storeSlot g image k e) j = if j = k then e else slotAt g image j := by
  unfold slotAt storeSlot
  rw [Function.update_apply]
  by_cases hq : j / 16 = k / 16
  · rw [if_pos (by omega), entry_at_set _ (by omega), hq]
    by_cases hjk : j = k
    · rw [if_pos (by omega), if_pos hjk]
    · rw [if_neg (by omega), if_neg hjk]
  · rw [if_neg (by omega), if_neg (by rintro rfl; exact hq rfl)]

/-- A slot whose first name byte is 0xE5. -/
def dropped (e : Entry) : Entry := Function.update e 0 0xE5

theorem slot_at_drop (g : Geometry) (image : Nat → Sector) (k j : Nat) :
    slotAt g (dropSlot g image k) j = if j = k then dropped (slotAt g image k) else slotAt g image j := by
  unfold slotAt dropSlot setByte dropped
  funext b
  rw [Function.update_apply]
  by_cases hq : j / 16 = k / 16
  · rw [if_pos (by omega)]
    unfold entryAt
    rw [Function.update_apply]
    by_cases hjk : j = k
    · subst hjk
      rw [if_pos rfl, Function.update_apply]
      by_cases hb : b = 0
      · subst hb
        rw [if_pos rfl]
        exact if_pos rfl
      · rw [if_neg hb, if_neg]
        intro he
        have hv := congrArg Fin.val he
        simp only [Fin.val_ofNat] at hv
        apply hb
        apply Fin.ext
        simp only [Fin.val_zero]
        omega
    · rw [if_neg hjk, if_neg, hq]
      intro he
      have hv := congrArg Fin.val he
      simp only [Fin.val_ofNat] at hv
      omega
  · rw [if_neg (by omega), if_neg (by rintro rfl; exact hq rfl)]

/-- The slots only depend on the sectors of the root directory. -/
theorem slot_at_congr {image' : Nat → Sector} {k : Nat} (hk : k < g.rootEntryCount.toNat)
    (h : ∀ lba, g.rootStartLba ≤ lba → lba < g.dataStartLba → image' lba = image lba) :
    slotAt g image' k = slotAt g image k := by
  unfold slotAt
  rw [h _ (by omega) (by unfold Geometry.dataStartLba; omega)]

end BaSic.Proofs.Directory
