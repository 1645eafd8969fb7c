import BaSic.Proofs.UntrustedDisk

namespace BaSic.Proofs.RootListing
open Kernel Lib Directory FatInvariant FatNames ReadBack FatWrite Formatted ChainInvariant UntrustedDisk

/-- An entry with the name `q`, in capital or small letters. -/
def Named (e : Dirent) (q : CString) : Prop := e.name.chars.map upper = q.chars.map upper

instance (e : Dirent) (q : CString) : Decidable (Named e q) := inferInstanceAs (Decidable (_ = _))

/-- What a listing shows of the slots `k`, `k + 1`, … laid out in one row. -/
def shown (slots : Nat → Entry) : (count k : Nat) → List Dirent
  | 0, _ => []
  | count + 1, k =>
    if slots k 0 = 0x00 then []
    else if slots k 0 = 0xE5 ∨ slots k 11 &&& 0x08 ≠ 0 then shown slots count (k + 1)
    else direntOf (slots k) :: shown slots count (k + 1)

/-- What `fat12_read` and `fat12_delete` do when they find a file of `size` bytes at `first`. -/
structure Serves (s : Fat12) (image : Nat → Sector) (q : CString) (size first : Nat) : Prop where
  read : ∀ out (cap : UInt32), ∃ d, Shows d image ∧ ∀ fuel, fat12Read fuel s (some q) (some out) cap =
    readChain s.stack s.geo s.fat size cap.toNat fuel d out first 0 >>=
      fun r => .ok (asInt r.1, some r.2.1, { s with disk := r.2.2 })
  delete : ∀ r t, fat12Delete s (some q) = .ok (r, t) → ∃ f, freeChain s.fat first = .ok f ∧ t.fat.data = f.data

variable {s : Fat12} {d : Disk} {image : Nat → Sector} {g : Geometry} {slots : Nat → Entry} {q name : CString}

/-- Listing one sector shows its stretch of the row of slots. -/
theorem list_sector_eq (max : Int) (sector : Sector) (slots : Nat → Entry) (base count idx rest : Nat)
    (out : List Dirent) (h : ∀ i, idx ≤ i → i < idx + count → slots (base + i) = entryAt sector i)
    (hroom : (out.length + count : Int) ≤ max) :
    listSector max sector count idx out = (true, out ++ shown slots (count + rest) (base + idx)) ∨
      ∃ out', listSector max sector count idx out = (false, out') ∧ out'.length ≤ out.length + count ∧
        out ++ shown slots (count + rest) (base + idx) = out' ++ shown slots rest (base + idx + count) := by
  induction count generalizing idx out with
  | zero => exact Or.inr ⟨out, rfl, Nat.le_refl _, by rw [Nat.zero_add, Nat.add_zero]⟩
  | succ count ih =>
    have hidx := h idx (Nat.le_refl _) (by omega)
    have hslots : ∀ i, idx + 1 ≤ i → i < idx + 1 + count → slots (base + i) = entryAt sector i :=
      fun i hi hi' => h i (by omega) (by omega)
    rw [listSector, if_pos (by omega), Nat.add_right_comm count 1 rest, shown, hidx]
    dsimp only
    by_cases hend : entryAt sector idx 0 = 0x00
    · rw [if_pos hend, if_pos hend, List.append_nil]
      exact Or.inl rfl
    · rw [if_neg hend, if_neg hend]
      by_cases hskip : entryAt sector idx 0 = 0xE5 ∨ entryAt sector idx 11 &&& 0x08 ≠ 0
      · rw [if_pos hskip, if_pos hskip]
        have hrec := ih (idx + 1) out hslots (by omega)
        rw [← Nat.add_assoc base idx 1, Nat.add_right_comm (base + idx) 1 count] at hrec
        exact hrec.imp_right (fun ⟨out', hrun, hlen, heq⟩ => ⟨out', hrun, by omega, heq⟩)
      · rw [if_neg hskip, if_neg hskip]
        have hlen : (out ++ [direntOf (entryAt sector idx)]).length = out.length + 1 := List.length_append
        have hrec := ih (idx + 1) (out ++ [direntOf (entryAt sector idx)]) hslots (by omega)
        rw [← Nat.add_assoc base idx 1, Nat.add_right_comm (base + idx) 1 count, List.append_assoc,
          List.singleton_append] at hrec
        exact hrec.imp_right (fun ⟨out', hrun, hle, heq⟩ => ⟨out', hrun, by omega, heq⟩)

/-- The two nested loops show the row of slots. -/
theorem list_root_eq (max : Int) (fuel k left : Nat) (hfuel : left ≤ fuel) (h : Shows d image) (buf : Sector)
    (out : List Dirent) (hroom : (out.length + left : Int) ≤ max) :
    ∃ d', listRoot max fuel d buf (g.rootStartLba + k) left out =
        (out ++ shown (slotAt g image) left (16 * k), d') ∧ Shows d' image := by
  induction fuel generalizing k left d buf out with
  | zero =>
    obtain rfl : left = 0 := by omega
    exact ⟨d, by rw [shown, List.append_nil]; rfl, h⟩
  | succ fuel ih =>
    rw [listRoot]
    by_cases hleft : left = 0
    · subst hleft
      rw [if_neg (fun hno => absurd hno.1 (by decide)), shown, List.append_nil]
      exact ⟨d, rfl, h⟩
    rw [if_pos ⟨by omega, by omega⟩]
    obtain ⟨d', hread, hd'⟩ := h.read (g.rootStartLba + k) buf
    rw [hread]
    dsimp only
    have hslots : ∀ i, 0 ≤ i → i < 0 + min 16 left →
        slotAt g image (16 * k + i) = entryAt (image (g.rootStartLba + k)) i := by
      intro i _ hi
      unfold slotAt
      rw [show (16 * k + i) / 16 = k by omega, show (16 * k + i) % 16 = i by omega]
    have hscan := list_sector_eq max (image (g.rootStartLba + k)) (slotAt g image) (16 * k) (min 16 left) 0
      (left - min 16 left) out hslots (by omega)
    rw [Nat.add_sub_cancel' (Nat.min_le_right 16 left), Nat.add_zero] at hscan
    rcases hscan with hrun | ⟨out', hrun, hlen, heq⟩
    · rw [hrun]
      exact ⟨d', rfl, hd'⟩
    · rw [hrun, heq]
      dsimp only
      obtain ⟨d'', hrest, hd''⟩ := ih (k + 1) (left - min 16 left) (by omega) hd' (image (g.rootStartLba + k)) out'
        (by omega)
      rw [Nat.add_assoc, hrest]
      by_cases hle : left ≤ 16
      · rw [show left - min 16 left = 0 by omega]
        exact ⟨d'', rfl, hd''⟩
      · rw [show 16 * (k + 1) = 16 * k + min 16 left by omega]
        exact ⟨d'', rfl, hd''⟩

/-- The first match of a lookup is the first entry shown that has the name. -/
theorem first_hit_shown (name : CString) (slots : Nat → Entry) (count k : Nat) :
    (firstHit (findVerdict name) slots count k).map (fun j => direntOf (slots j)) =
      (shown slots count k).find? (fun e => decide (Named e name)) := by
  induction count generalizing k with
  | zero => rfl
  | succ count ih =>
    rw [firstHit, shown, findVerdict]
    by_cases hend : slots k 0 = 0x00
    · rw [if_pos hend, if_pos hend]
      rfl
    rw [if_neg hend, if_neg hend]
    by_cases hskip : slots k 0 = 0xE5 ∨ slots k 11 &&& 0x08 ≠ 0
    · rw [if_pos hskip, if_pos hskip]
      exact ih (k + 1)
    rw [if_neg hskip, if_neg hskip]
    by_cases hname : namesMatch (entryName (slots k)) name = true
    · have hsame : Named (direntOf (slots k)) name := names_match_iff.mp hname
      rw [if_pos hname, List.find?_cons_of_pos (by simpa using hsame)]
      rfl
    · have hother : ¬ Named (direntOf (slots k)) name := fun hno => hname (names_match_iff.mpr hno)
      rw [if_neg hname, List.find?_cons_of_neg (by simpa using hother)]
      exact ih (k + 1)

/-- A listing with room for all entries. -/
theorem fat12_list_eq (hready : s.ready = true) (h : Shows s.disk image) (path : Option CString) {max : Int}
    (hmax : (s.geo.rootEntryCount.toNat : Int) ≤ max) :
    (fat12List s path max).1 = shown (slotAt s.geo image) s.geo.rootEntryCount.toNat 0 := by
  obtain ⟨d, hrun, -⟩ := list_root_eq (g := s.geo) max s.geo.rootEntryCount.toNat 0 s.geo.rootEntryCount.toNat
    (Nat.le_refl _) h s.stack [] (by simpa using hmax)
  unfold fat12List
  rw [hready]
  dsimp only
  rw [Nat.add_zero] at hrun
  simp only [Bool.not_true, Bool.false_eq_true, if_false, hrun, List.nil_append, Nat.mul_zero]

theorem fat_flush_data (s : Fat12) : (fatFlush s).fat.data = s.fat.data := by
  unfold fatFlush
  split <;> rfl

/-- What is done with the file in the slot found. -/
theorem slot_served (hready : s.ready = true) (h : Shows s.disk image) {k : Nat}
    (hk : lookup s.geo image q.skipSlash = some k) :
    Serves s image q (fileSize (slotAt s.geo image k)) (firstCluster (slotAt s.geo image k)) := by
  obtain ⟨d, hfind, hd⟩ := find_entry_eq h q.skipSlash
  rw [hk] at hfind
  constructor
  · intro out cap
    refine ⟨d, hd, fun fuel => ?_⟩
    unfold fat12Read
    simp only [hready, hfind, Option.map_some, foundAt]
    rfl
  · intro r t hrun
    unfold fat12Delete at hrun
    simp only [hready, hfind, Option.map_some] at hrun
    unfold removeFile at hrun
    dsimp only [foundAt] at hrun
    cases hfree : freeChain s.fat (firstCluster (slotAt s.geo image k)) with
    | error e =>
      rw [hfree] at hrun
      cases hrun
    | ok f =>
      rw [hfree] at hrun
      obtain ⟨-, rfl⟩ := Prod.mk.inj (Except.ok.inj hrun)
      exact ⟨f, rfl, fat_flush_data _⟩

/-- `fat12_exists` answers as the listing says, and what is read or deleted is the first entry
of that name in the listing. -/
theorem listing_agrees (h : Shows s.disk image) (q : CString) (path : Option CString) {max : Int}
    (hmax : (s.geo.rootEntryCount.toNat : Int) ≤ max) :
    ((fat12Exists s q).1 = 1 ↔ ∃ e ∈ (fat12List s path max).1, Named e q.skipSlash) ∧
      ∀ e, (fat12List s path max).1.find? (fun e => decide (Named e q.skipSlash)) = some e →
        Serves s image q e.size e.firstCluster := by
  cases hready : s.ready with
  | false =>
    have hempty : (fat12List s path max).1 = [] := by
      unfold fat12List
      rw [hready]
      rfl
    have hno : (fat12Exists s q).1 = 0 := by
      unfold fat12Exists
      rw [hready]
      rfl
    rw [hempty, hno]
    refine ⟨iff_of_false (by decide) (fun ⟨e, he, _⟩ => absurd he List.not_mem_nil), fun e he => ?_⟩
    cases he
  | true =>
    have hfirst := first_hit_shown q.skipSlash (slotAt s.geo image) s.geo.rootEntryCount.toNat 0
    rw [fat12_list_eq hready h path hmax, ← hfirst, fat12_exists_eq ⟨hready, h⟩]
    constructor
    · have hsome : lookup s.geo image q.skipSlash = none ↔
          (shown (slotAt s.geo image) s.geo.rootEntryCount.toNat 0).find? (fun e => decide (Named e q.skipSlash)) =
            none := by
        rw [← hfirst, Option.map_eq_none_iff]
        rfl
      rw [List.find?_eq_none] at hsome
      split
      · rename_i hnone
        refine iff_of_false (by decide) (fun ⟨e, he, hname⟩ => ?_)
        exact hsome.mp hnone e he (decide_eq_true hname)
      · rename_i hfound
        refine iff_of_true rfl ?_
        rw [hsome] at hfound
        simpa using hfound
    · intro e he
      obtain ⟨k, hk, rfl⟩ := Option.map_eq_some_iff.mp he
      exact slot_served hready h hk

/-- The volume whose only file is `A`. -/
def loneFile : Fat12 := { unmounted loopImage with geo := smallGeometry, ready := true }

theorem lone_shows : Shows loneFile.disk loopImage := unmounted_shows loopImage

theorem listing_agrees_lone : ∃ e ∈ (fat12List loneFile none 16).1, Named e fileA := by
  have hentries : ((loneFile.geo.rootEntryCount.toNat : Nat) : Int) ≤ 16 := by decide
  have hagrees := listing_agrees lone_shows fileA none hentries
  exact hagrees.1.mp (by decide)

/-- `/A` exists, and no listed name has a slash. -/
theorem slash_not_listed : ¬ ∀ (s : Fat12) (image : Nat → Sector) (q : CString) (path : Option CString) (max : Int),
    Shows s.disk image → (s.geo.rootEntryCount.toNat : Int) ≤ max →
      ((fat12Exists s q).1 = 1 ↔ ∃ e ∈ (fat12List s path max).1, Named e q) := by
  intro hall
  have hexists : (fat12Exists loneFile ⟨[0x2F, 0x41], by simp⟩).1 = 1 := by decide
  have hlisted : ∀ e ∈ (fat12List loneFile none 16).1, ¬ Named e ⟨[0x2F, 0x41], by simp⟩ := by decide +kernel
  obtain ⟨e, he, hname⟩ := (hall loneFile loopImage _ none 16 lone_shows (by decide)).mp hexists
  exact hlisted e he hname

end BaSic.Proofs.RootListing
