import BaSic.Proofs.DiskCache

namespace BaSic.Proofs.DiskFailures
open Kernel Lib DiskCache

/-- The bytes most recently passed to `disk_write_sector` for each sector,
whether or not that call reported success. -/
def latest (sectors : Nat → Sector) : List (DiskOp × DiskResult) → Nat → Sector
  | [] => sectors
  | (op, _) :: trace => latest (arrayStep sectors op).2 trace

/-- Every read that returned 1 gave the latest bytes for its sector. -/
def ReadsLatest (sectors : Nat → Sector) (trace : List (DiskOp × DiskResult)) : Prop :=
  ∀ before lba s after,
    trace = before ++ (.read lba, .sector (some s)) :: after → s = latest sectors before lba

/-- What the client wants stored in a slot once this call is over. -/
def slotData (s : CacheSlot) : DiskOp → Sector
  | .write lba buf => if lba = s.lba then buf else s.data
  | _ => s.data

/-- No dirty data was discarded or marked clean in this step: each dirty slot
still waits to be written, or the drive has taken its data. -/
def DirtyKept (d : Disk) (op : DiskOp) (d' : Disk) : Prop :=
  ∀ i, (d.cache i).valid = true → (d.cache i).dirty = true →
    d'.cache i = { d.cache i with data := slotData (d.cache i) op } ∨
      d'.ata.sectors (d.cache i).lba = slotData (d.cache i) op

def Calls (d : Disk) (op : DiskOp) (r : DiskResult) (d' : Disk) : Prop :=
  diskStep d op = (r, d')

/-- A call whose own write-backs all succeed. -/
def SafeCalls (d : Disk) (op : DiskOp) (r : DiskResult) (d' : Disk) : Prop :=
  Calls d op r d' ∧ WriteBacksSucceed d op

theorem safe_run_holds {d d' : Disk} {f : Nat → Sector} {trace : List (DiskOp × DiskResult)}
    (h : Steps SafeCalls d trace d') (hd : Holds d f) : Holds d' (latest f trace) := by
  induction h generalizing f with
  | nil d => exact hd
  | cons head _ ih =>
    obtain ⟨hc, hw⟩ := head
    have hn := hd.step _ hw
    rw [hc] at hn
    exact ih hn

theorem safe_run_reads {d d' : Disk} {f : Nat → Sector} {trace : List (DiskOp × DiskResult)}
    (h : Steps SafeCalls d trace d') (hd : Holds d f) : ReadsLatest f trace := by
  rintro before lba s after rfl
  obtain ⟨t, hb, ha⟩ := h.split
  cases ha with
  | cons head _ =>
    obtain ⟨hc, hw⟩ := head
    have hr := (safe_run_holds hb hd).read lba hw
    simp only [Calls, diskStep, Prod.mk.injEq, DiskResult.sector.injEq] at hc
    exact hr.2 s hc.1

/-- Only one slot moves in a read or a write of `lba`; it is then about `lba`,
and nothing was cached for `lba` unless it was that slot. -/
structure Touches (d d' : Disk) (lba : Nat) (i : Fin diskCacheSlots) : Prop where
  others : ∀ j, j ≠ i → d'.cache j = d.cache j
  label : (d'.cache i).lba = lba
  alone : ∀ j, j ≠ i → (d.cache j).valid = true → (d.cache j).lba ≠ lba

theorem touches_evict {d : Disk} {f : Nat → Sector} (h : Holds d f) {lba : Nat}
    (hf : cacheFind d lba = none) : Touches d (cacheEvict d lba).2 lba (cacheEvict d lba).1 := by
  obtain ⟨i, hi, _, hc, ho, _⟩ := cache_evict_cases d lba h.present
  rw [hi]
  exact ⟨ho, by rw [hc], fun j _ hv => cache_find_none hf j hv⟩

theorem touches_slot_for {d : Disk} {f : Nat → Sector} (h : Holds d f) (lba : Nat) :
    Touches d (slotFor d lba).2 lba (slotFor d lba).1 := by
  unfold slotFor
  cases hf : cacheFind d lba with
  | some i => exact ⟨fun _ _ => rfl, (cache_find_some hf).2, (h.but hf).apart⟩
  | none => exact touches_evict h hf

theorem Touches.set {d e : Disk} {lba : Nat} {i : Fin diskCacheSlots} (h : Touches d e lba i)
    (ata : Ata) (s : CacheSlot) (hs : s.lba = lba) :
    Touches d ({ e with ata := ata }.setSlot i s) lba i := by
  refine ⟨?_, by simpa using hs, h.alone⟩
  intro j hj
  rw [set_slot_other _ _ _ _ hj]
  exact h.others j hj

/-- The slot claimed for a read comes out clean. -/
theorem read_touches {d : Disk} {f : Nat → Sector} (h : Holds d f) (lba : Nat) :
    (diskReadSector d lba).2 = d ∨ ∃ i, Touches d (diskReadSector d lba).2 lba i ∧
      ((diskReadSector d lba).2.cache i).dirty = false := by
  cases hf : cacheFind d lba with
  | some i => exact Or.inl (by simp [diskReadSector, hf])
  | none =>
    right
    have ht := touches_evict h hf
    obtain ⟨i, hi, _, hc, _, _⟩ := cache_evict_cases d lba h.present
    have hd : ((cacheEvict d lba).2.cache (cacheEvict d lba).1).dirty = false := by rw [hi, hc]
    rw [read_sector_miss hf h.present]
    refine ⟨(cacheEvict d lba).1, ht.set _ _ ?_, ?_⟩
    · split <;> exact ht.label
    · rw [set_slot_same]
      split <;> exact hd

/-- The slot a write goes to comes out clean, or dirty with the new data. -/
theorem write_touches {d : Disk} {f : Nat → Sector} (h : Holds d f) (lba : Nat) (buf : Sector)
    (hw : WritesBack d lba → d.ata.succeeds d.ata.transfers = true) :
    ∃ i, Touches d (diskWriteSector d lba buf).2 lba i ∧
      (((diskWriteSector d lba buf).2.cache i).dirty = false ∨
      ((d.cache i).valid = true → (d.cache i).dirty = true → (d.cache i).lba = lba →
        (diskWriteSector d lba buf).2.cache i = { d.cache i with data := buf })) := by
  have ht := touches_slot_for h lba
  obtain ⟨hb, _, hl, _⟩ := h.slot_for lba hw
  rw [write_sector_eq lba buf hb.present]
  refine ⟨(slotFor d lba).1, ht.set _ _ hl, ?_⟩
  rw [set_slot_same]
  cases (slotFor d lba).2.ata.succeeds (slotFor d lba).2.ata.transfers with
  | true => exact Or.inl rfl
  | false =>
    right
    intro hv hd he
    -- a slot that is already about `lba` is the one that was found
    have hsame : (slotFor d lba).2.cache (slotFor d lba).1 = d.cache (slotFor d lba).1 := by
      unfold slotFor at *
      cases hf : cacheFind d lba with
      | some i => rfl
      | none =>
        simp only [hf] at hv he
        exact absurd he (cache_find_none hf _ hv)
    simp [hsame, hd]

theorem flush_slot_same (d : Disk) (i : Fin diskCacheSlots) :
    (((flushSlot d i).cache i).valid && ((flushSlot d i).cache i).dirty) = false := by
  unfold flushSlot
  split
  · simp
  · rename_i h
    simpa using h

/-- No slot the flush has visited is left dirty. -/
theorem flush_slots_clean (d : Disk) (is : List (Fin diskCacheSlots)) (j : Fin diskCacheSlots)
    (hj : j ∈ is ∨ ((d.cache j).valid && (d.cache j).dirty) = false) :
    (((is.foldl flushSlot d).cache j).valid && ((is.foldl flushSlot d).cache j).dirty) = false := by
  induction is generalizing d with
  | nil => simpa using hj
  | cons i is ih =>
    apply ih (flushSlot d i)
    by_cases hji : j = i
    · subst hji
      exact Or.inr (flush_slot_same d j)
    · rw [flush_slot_other d i j hji]
      rcases hj with hj | hj
      · rcases List.mem_cons.mp hj with rfl | hj
        · exact absurd rfl hji
        · exact Or.inl hj
      · exact Or.inr hj

/-- A call whose write-backs succeed discards no dirty data. -/
theorem dirty_kept {d : Disk} {f : Nat → Sector} (h : Holds d f) (op : DiskOp)
    (hw : WriteBacksSucceed d op) : DirtyKept d op (diskStep d op).2 := by
  have hn := h.step op hw
  intro i hv hd
  -- either the slot is as it was, or no dirty slot is left in front of the drive
  have hor : (diskStep d op).2.cache i = { d.cache i with data := slotData (d.cache i) op } ∨
      ∀ j, ((diskStep d op).2.cache j).valid = true → ((diskStep d op).2.cache j).dirty = true →
        ((diskStep d op).2.cache j).lba ≠ (d.cache i).lba := by
    cases op with
    | read lba =>
      rcases read_touches h lba with he | ⟨k, ht, hk⟩
      · exact Or.inl (by simp [diskStep, he, slotData])
      · by_cases hik : i = k
        · right
          intro j hvj hdj he
          have hjk : j ≠ k := by
            intro hjk
            rw [diskStep, hjk, hk] at hdj
            contradiction
          rw [diskStep, ht.others j hjk] at hvj he
          exact hjk (hik ▸ h.unique j i hvj hv he)
        · exact Or.inl (by simp [diskStep, ht.others i hik, slotData])
    | write lba buf =>
      obtain ⟨k, ht, hk⟩ := write_touches h lba buf hw
      by_cases hik : i = k
      · subst hik
        rcases hk with hk | hk
        · right
          intro j hvj hdj he
          have hji : j ≠ i := by
            intro hji
            rw [diskStep, hji, hk] at hdj
            contradiction
          rw [diskStep, ht.others j hji] at hvj he
          exact hji (h.unique j i hvj hv he)
        · by_cases hl : (d.cache i).lba = lba
          · exact Or.inl (by rw [diskStep, hk hv hd hl, slotData, if_pos hl.symm])
          · right
            intro j hvj _ he
            by_cases hji : j = i
            · rw [diskStep, hji, ht.label] at he
              exact hl he.symm
            · rw [diskStep, ht.others j hji] at hvj he
              exact hji (h.unique j i hvj hv he)
      · left
        rw [diskStep, ht.others i hik, slotData, if_neg (fun he => ht.alone i hik hv he.symm)]
    | flush =>
      right
      intro j hvj hdj
      simp only [diskStep, diskCacheFlush, h.present, Bool.not_true, Bool.false_eq_true,
        ↓reduceIte] at hvj hdj
      have hc := flush_slots_clean d (List.finRange diskCacheSlots) j (Or.inl (List.mem_finRange j))
      rw [hvj, hdj] at hc
      contradiction
  rcases hor with hs | hs
  · exact Or.inl hs
  · right
    rw [hn.drive _ hs]
    cases op with
    | read lba => exact (h.slots i hv).symm
    | flush => exact (h.slots i hv).symm
    | write lba buf =>
      simp only [arrayStep, slotData]
      by_cases hl : lba = (d.cache i).lba
      · rw [if_pos hl, ← hl, Function.update_self]
      · rw [if_neg hl, Function.update_of_ne (fun he => hl he.symm)]
        exact (h.slots i hv).symm

/-- In every run whose write-backs all succeed, whatever else fails: no call
discards dirty data or marks it clean before the drive has it, and every read
that returns 1 gives the bytes last passed to `disk_write_sector`. -/
theorem write_backs_keep_writes (sectors : Nat → Sector) (succeeds : Nat → Bool) {d : Disk}
    {trace : List (DiskOp × DiskResult)}
    (h : Steps SafeCalls (diskInit ⟨sectors, succeeds, 0⟩ true) trace d) :
    ReadsLatest sectors trace ∧
      ∀ op r d', SafeCalls d op r d' → DirtyKept d op d' := by
  refine ⟨safe_run_reads h (init_holds sectors succeeds 0), ?_⟩
  rintro op r d' ⟨hc, hw⟩
  have hk := dirty_kept (safe_run_holds h (init_holds sectors succeeds 0)) op hw
  rw [hc] at hk
  exact hk

/-- A write that fails, is retried by the flush and read back. -/
theorem write_backs_keep_writes_retry :
    ReadsLatest (fun _ _ => 0)
      [(.write 0 (fun _ => 255), .stored false), (.flush, .flushed),
       (.read 0, .sector (some (fun _ => 255)))] := by
  have hfree : ∀ d : Disk, (d.cache 1).valid = false → ∀ lba, ¬ WritesBack d lba := by
    intro d hd lba hw
    rw [hw.2.1 1] at hd
    contradiction
  refine (write_backs_keep_writes _ (fun n => 1 ≤ n) (.cons ⟨rfl, ?_⟩
    (.cons ⟨rfl, ?_⟩ (.cons ⟨rfl, ?_⟩ (.nil _))))).1
  · exact fun hw => absurd hw (hfree _ rfl _)
  · intro k _
    exact decide_eq_true (Nat.le_add_right 1 k)
  · exact fun hw => absurd hw (hfree _ rfl _)

def DiskResult.data : DiskResult → Option Sector
  | .sector s => s
  | _ => none

/-- The calls of the lost update: the write and the flush both fail, sixteen
other sectors push the slot out, and the drive answers the last read. -/
def lostUpdate : List DiskOp :=
  [.write 0 (fun _ => 255), .flush] ++ (List.range 16).map (fun n => .read (n + 1)) ++ [.read 0]

/-- After `lostUpdate` on a drive of zeros whose first two transfers fail, the
last read returns 1 with a byte 0 where 255 was written. -/
theorem flush_loses_failed_write :
    ((run diskStep (diskInit ⟨fun _ _ => 0, fun n => 2 ≤ n, 0⟩ true) lostUpdate).1.getLast?.bind
        DiskResult.data).map (fun s => s 0) = some 0 ∧
      latest (fun _ _ => 0) (lostUpdate.dropLast.map (fun op => (op, .flushed))) 0 0 = 255 := by
  decide +kernel

end BaSic.Proofs.DiskFailures
