import BaSic.Proofs.VmmTables
import BaSic.Lib.Steps

namespace BaSic.Proofs.VmmMap
open Mm Lib PmmScan VmmTables

/-- The frame a call needs for a new table is 0, or one that holds no table yet. -/
def FreshTable (v : Vmm) (virt : UInt32) : Prop :=
  dirEntry v (pdiOf virt) &&& pagePresent ≠ 0 ∨ (pmmAlloc v.pmm).1 = 0 ∨
    ∃ t < 1048576, (pmmAlloc v.pmm).1 = t * 4096 ∧ t ≠ v.dirFrame ∧ ∀ i, (view v).dir i ≠ some t

/-- No two directory entries share a table, and none lies in frame 0 or in the directory. -/
structure Mapped (v : Vmm) : Prop where
  separate : (view v).Separate
  nonzero : ∀ i, (view v).dir i ≠ some 0
  apart : Apart v

/-- The table that `get_table` returns. -/
def tableOf (v : Vmm) (virt : UInt32) : Nat :=
  if dirEntry v (pdiOf virt) &&& pagePresent ≠ 0 then dirEntry v (pdiOf virt) &&& pageMask else (pmmAlloc v.pmm).1

/-- `get_table` where the accesses of a call go to the frames they are meant for. -/
def placedTable (v : Vmm) (virt flags : UInt32) : Nat × Vmm :=
  if dirEntry v (pdiOf virt) &&& pagePresent ≠ 0 then (dirEntry v (pdiOf virt) &&& pageMask, v)
  else if (pmmAlloc v.pmm).1 = 0 then (0, { v with pmm := (pmmAlloc v.pmm).2 })
  else
    ((pmmAlloc v.pmm).1,
      attached v (pmmAlloc v.pmm).2 (pdiOf virt) ((pmmAlloc v.pmm).1 / 4096) flags.toNat)

/-- What `vmm_map` and `vmm_unmap` have in common: the address's table entry is set. -/
def setEntry (v : Vmm) (virt flags : UInt32) (pte : Nat) : Vmm :=
  let (table, v) := placedTable v virt flags
  if table = 0 then v
  else { v with mem := Function.update v.mem (table / 4 + ptiOf virt) pte }

/-- The address's entry of the directory is mapped to itself, and so is its table, if there is
one or one can be made. -/
structure InPlace (v : Vmm) (virt : UInt32) : Prop where
  dir : physOf v (dirSlot v virt) = some (v.dirFrame * 4096 + 4 * pdiOf virt)
  table : tableOf v virt ≠ 0 → physOf v (.ofNat (tableOf v virt)) = some (tableOf v virt)

variable {v v₀ v₁ w : Vmm} {virt phys flags other : UInt32} {pte t i : Nat} {p : Pmm}

theorem absent_iff : (view v).dir (pdiOf virt) = none ↔ dirEntry v (pdiOf virt) &&& pagePresent = 0 := by
  rw [view_dir (pdi_lt virt), ← not_iff_not, ← Ne, ← Ne, present_iff]
  split <;> simp_all

/-- The three things `get_table` does: it finds the table, fails to allocate one,
or enters a new one. -/
theorem placed_table_cases (v : Vmm) (virt flags : UInt32) :
    (dirEntry v (pdiOf virt) &&& pagePresent ≠ 0 ∧
        placedTable v virt flags = (dirEntry v (pdiOf virt) &&& pageMask, v)) ∨
      (dirEntry v (pdiOf virt) &&& pagePresent = 0 ∧ (pmmAlloc v.pmm).1 = 0 ∧
        placedTable v virt flags = (0, { v with pmm := (pmmAlloc v.pmm).2 })) ∨
      (dirEntry v (pdiOf virt) &&& pagePresent = 0 ∧ (pmmAlloc v.pmm).1 ≠ 0 ∧
        placedTable v virt flags = ((pmmAlloc v.pmm).1,
          attached v (pmmAlloc v.pmm).2 (pdiOf virt) ((pmmAlloc v.pmm).1 / 4096) flags.toNat)) := by
  unfold placedTable
  by_cases hp : dirEntry v (pdiOf virt) &&& pagePresent = 0
  · rw [if_neg (not_not.mpr hp)]
    by_cases hr : (pmmAlloc v.pmm).1 = 0
    · exact Or.inr (Or.inl ⟨hp, hr, if_pos hr⟩)
    · exact Or.inr (Or.inr ⟨hp, hr, if_neg hr⟩)
  · exact Or.inl ⟨hp, if_pos hp⟩

theorem placed_table_fst (v : Vmm) (virt flags : UInt32) : (placedTable v virt flags).1 = tableOf v virt := by
  unfold tableOf
  rcases placed_table_cases v virt flags with ⟨hp, hrun⟩ | ⟨hp, hr, hrun⟩ | ⟨hp, -, hrun⟩
  · rw [hrun, if_pos hp]
  · rw [hrun, if_neg (not_not.mpr hp), hr]
  · rw [hrun, if_neg (not_not.mpr hp)]

/-- A region without a table gets one in a clear frame, if there is any and frame 0 is not clear. -/
theorem placed_table_absent (flags : UInt32) (h : Scannable v.pmm) (hzero : 0 ∉ clearFrames v.pmm)
    (hp : dirEntry v (pdiOf virt) &&& pagePresent = 0) :
    (∃ f ∈ clearFrames v.pmm, f ≠ 0 ∧ f < 1048576 ∧ (∀ g ∈ clearFrames v.pmm, f ≤ g) ∧
        clearFrames (pmmAlloc v.pmm).2 = (clearFrames v.pmm).erase f ∧
        placedTable v virt flags =
          (f * 4096, attached v (pmmAlloc v.pmm).2 (pdiOf virt) f flags.toNat)) ∨
      clearFrames v.pmm = ∅ ∧ placedTable v virt flags = (0, v) := by
  rcases pmm_alloc_cases h with ⟨f, hleast, halloc⟩ | ⟨hnone, halloc⟩
  · have hmem := Finset.mem_coe.mp hleast.1
    obtain ⟨hlt, -⟩ := mem_unset.mp hmem
    have hsmall := h.small
    have hf0 : f ≠ 0 := fun hz => hzero (hz ▸ hmem)
    have haddr : (pmmAlloc v.pmm).1 = f * 4096 := by rw [halloc, h.claim_addr hlt]
    rcases placed_table_cases v virt flags with ⟨hp', -⟩ | ⟨-, hz, -⟩ | ⟨-, -, hrun⟩
    · exact absurd hp hp'
    · omega
    · refine Or.inl ⟨f, hmem, hf0, by omega, fun g hg => hleast.2 (Finset.mem_coe.mpr hg), ?_, ?_⟩
      · rw [halloc, clear_of_claim]
      · rw [hrun, haddr, Nat.mul_div_cancel _ (by decide)]
  · rcases placed_table_cases v virt flags with ⟨hp', -⟩ | ⟨-, -, hrun⟩ | ⟨-, hne, -⟩
    · exact absurd hp hp'
    · rw [hrun, halloc]
      exact Or.inr ⟨hnone, rfl⟩
    · rw [halloc] at hne
      exact absurd rfl hne

/-- What a successful `get_table` leaves: the table is entered, and nothing that
could be looked up has changed. -/
theorem placed_table_spec (h : Mapped v) (hfresh : FreshTable v virt) (hf : flags.toNat < 8) :
    Mapped (placedTable v virt flags).2 ∧
      (∀ i k, (view (placedTable v virt flags).2).lookup i k = (view v).lookup i k) ∧
      ((placedTable v virt flags).1 = 0 ∧ (view v).dir (pdiOf virt) = none ∨
        ∃ t, (placedTable v virt flags).1 = t * 4096 ∧ t ≠ 0 ∧ t < 1048576 ∧
          (view (placedTable v virt flags).2).dir (pdiOf virt) = some t) := by
  rcases placed_table_cases v virt flags with ⟨hp, hrun⟩ | ⟨hp, hr, hrun⟩ | ⟨hp, hr, hrun⟩
  · rw [hrun]
    refine ⟨h, fun _ _ => rfl, Or.inr ⟨dirEntry v (pdiOf virt) / 4096 % 1048576, and_page_mask _, ?_, ?_, ?_⟩⟩
    · have hne := h.nonzero (pdiOf virt)
      rw [view_dir (pdi_lt virt), if_pos ((present_iff _).mp hp)] at hne
      exact fun hz => hne (congrArg some hz)
    · omega
    · rw [view_dir (pdi_lt virt), if_pos ((present_iff _).mp hp)]
  · rw [hrun]
    exact ⟨⟨h.separate, h.nonzero, h.apart⟩, fun _ _ => rfl, Or.inl ⟨rfl, absent_iff.mpr hp⟩⟩
  · rcases hfresh with hp' | hr' | ⟨t, ht, hrt, hdirt, hnew⟩
    · exact absurd hp hp'
    · exact absurd hr' hr
    have hview := view_attach v (pmmAlloc v.pmm).2 (pdi_lt virt) ht hf hdirt
    rw [hrt] at hr
    rw [hrun, hrt, Nat.mul_div_cancel _ (by decide)]
    simp only
    rw [hview]
    have hdir : ((view v).attach (pdiOf virt) t).dir (pdiOf virt) = some t := Function.update_self ..
    refine ⟨⟨?_, fun i => ?_, fun i => ?_⟩, TwoLevel.lookup_attach (absent_iff.mpr hp) hnew,
      Or.inr ⟨t, rfl, by omega, ht, hdir⟩⟩
    · rw [hview]
      exact h.separate.attach hnew
    · rw [hview]
      simp only [TwoLevel.attach, Function.update_apply]
      split
      · simp only [ne_eq, Option.some.injEq]
        omega
      · exact h.nonzero i
    · rw [hview]
      simp only [TwoLevel.attach, Function.update_apply]
      split
      · exact fun hc => hdirt (Option.some.inj hc)
      · exact h.apart i

/-- The directory behind a table `get_table` returned. -/
theorem placed_table_entry (hfresh : FreshTable v virt) (hf : flags.toNat < 8)
    (hz : (placedTable v virt flags).1 ≠ 0) :
    dirEntry (placedTable v virt flags).2 (pdiOf virt) &&& pagePresent ≠ 0 ∧
      dirEntry (placedTable v virt flags).2 (pdiOf virt) &&& pageMask = (placedTable v virt flags).1 ∧
      (dirEntry v (pdiOf virt) &&& pagePresent ≠ 0 ∧ (placedTable v virt flags).2 = v ∨
        dirEntry v (pdiOf virt) &&& pagePresent = 0 ∧ ∃ a, a % 4096 = 0 ∧ ∀ i < 1024,
          dirEntry (placedTable v virt flags).2 i =
            if i = pdiOf virt then a ||| flags.toNat ||| pagePresent else dirEntry v i) := by
  rcases placed_table_cases v virt flags with ⟨hp, hrun⟩ | ⟨hp, hr, hrun⟩ | ⟨hp, hr, hrun⟩
  · rw [hrun]
    exact ⟨hp, rfl, Or.inl ⟨hp, rfl⟩⟩
  · rw [hrun] at hz
    exact absurd rfl hz
  · rcases hfresh with hp' | hr' | ⟨t, ht, hrt, hdirt, -⟩
    · exact absurd hp hp'
    · exact absurd hr' hr
    obtain ⟨he, hlow, hodd⟩ := entry_eq (a := t * 4096) (f := flags.toNat) (by omega) hf
    have hentries := fun i (hi : i < 1024) =>
      dir_entry_attached (p := (pmmAlloc v.pmm).2) (i := pdiOf virt) (f := flags.toNat) hdirt hi
    rw [hrun, hrt, Nat.mul_div_cancel _ (by decide)]
    simp only
    refine ⟨?_, ?_, Or.inr ⟨hp, t * 4096, by omega, hentries⟩⟩
    · rw [hentries _ (pdi_lt virt), if_pos rfl, he, present_iff]
      omega
    · rw [hentries _ (pdi_lt virt), if_pos rfl, he, and_page_mask]
      omega

theorem placed_table_frame (v : Vmm) (virt flags : UInt32) : (placedTable v virt flags).2.dirFrame = v.dirFrame ∧
    (placedTable v virt flags).2.paging = v.paging := by
  rcases placed_table_cases v virt flags with ⟨-, hrun⟩ | ⟨-, -, hrun⟩ | ⟨-, -, hrun⟩
  all_goals
    rw [hrun]
    exact ⟨rfl, rfl⟩

theorem set_entry_null (hz : (placedTable v virt flags).1 = 0) :
    setEntry v virt flags pte = (placedTable v virt flags).2 := if_pos hz

theorem set_entry_table (hz : (placedTable v virt flags).1 ≠ 0) (pte : Nat) :
    setEntry v virt flags pte = { (placedTable v virt flags).2 with
      mem := Function.update (placedTable v virt flags).2.mem ((placedTable v virt flags).1 / 4 + ptiOf virt) pte } :=
  if_neg hz

theorem set_entry_pmm (v : Vmm) (virt flags : UInt32) (pte : Nat) :
    (setEntry v virt flags pte).pmm = (placedTable v virt flags).2.pmm := by
  by_cases hz : (placedTable v virt flags).1 = 0
  · rw [set_entry_null hz]
  · rw [set_entry_table hz]

theorem set_entry_frame (v : Vmm) (virt flags : UInt32) (pte : Nat) :
    (setEntry v virt flags pte).dirFrame = v.dirFrame ∧ (setEntry v virt flags pte).paging = v.paging := by
  by_cases hz : (placedTable v virt flags).1 = 0
  · rw [set_entry_null hz]
    exact placed_table_frame v virt flags
  · rw [set_entry_table hz]
    exact placed_table_frame v virt flags

/-- Setting an entry of a table leaves the directory as `get_table` left it. -/
theorem set_entry_dir (h : Mapped v) (hfresh : FreshTable v virt) (hf : flags.toNat < 8) (pte : Nat) (hi : i < 1024) :
    dirEntry (setEntry v virt flags pte) i = dirEntry (placedTable v virt flags).2 i := by
  obtain ⟨hm, -, ⟨hz, -⟩ | ⟨t, ht, -, -, hdir⟩⟩ := placed_table_spec h hfresh hf
  · rw [set_entry_null hz]
  · by_cases hz : (placedTable v virt flags).1 = 0
    · rw [set_entry_null hz]
    · rw [set_entry_table hz, ht]
      exact dir_entry_update (fun hc => hm.apart _ (hc ▸ hdir)) (pti_lt virt) hi

/-- Setting an entry changes what its own page maps to, if a table was to be had,
and nothing else. -/
theorem set_entry_spec (h : Mapped v) (hfresh : FreshTable v virt) (hf : flags.toNat < 8) (pte : Nat) :
    Mapped (setEntry v virt flags pte) ∧
      ((placedTable v virt flags).1 ≠ 0 → translateAddr (setEntry v virt flags pte) virt = decode pte) ∧
      ((placedTable v virt flags).1 = 0 → translateAddr (setEntry v virt flags pte) virt = none) ∧
      ∀ other : UInt32, other.toNat / 4096 ≠ virt.toNat / 4096 →
        translateAddr (setEntry v virt flags pte) other = translateAddr v other := by
  obtain ⟨hm, hkeep, hcase⟩ := placed_table_spec h hfresh hf
  rcases hcase with ⟨hz, hnone⟩ | ⟨t, ht, hne, -, hdir⟩
  · have hsame : ∀ a, translateAddr (placedTable v virt flags).2 a = translateAddr v a := by
      intro a
      rw [translate_eq hm.apart, translate_eq h.apart, hkeep]
    rw [set_entry_null hz]
    refine ⟨hm, fun hnz => absurd hz hnz, fun _ => ?_, fun other _ => hsame other⟩
    rw [hsame, translate_eq h.apart, TwoLevel.lookup, hnone, Option.bind_none]
  · have hnz : (placedTable v virt flags).1 ≠ 0 := by omega
    have hset : view (setEntry v virt flags pte) =
        (view (placedTable v virt flags).2).store t (ptiOf virt) (decode pte) := by
      rw [set_entry_table hnz, ht]
      exact view_store pte (fun hc => hm.apart _ (hc ▸ hdir)) (pti_lt virt)
    have happart : Apart (setEntry v virt flags pte) := by
      intro i
      rw [hset, (set_entry_frame v virt flags pte).1, ← (placed_table_frame v virt flags).1]
      exact hm.apart i
    refine ⟨⟨?_, ?_, happart⟩, fun _ => ?_, fun hz => absurd hz hnz, fun other hother => ?_⟩
    · rw [hset]
      exact hm.separate
    · rw [hset]
      exact hm.nonzero
    · rw [translate_eq happart, hset, TwoLevel.lookup_store_self hdir]
    · rw [translate_eq happart, hset, TwoLevel.lookup_store_other hm.separate hdir (other_page hother), hkeep,
        translate_eq h.apart]

/-! Calls in place -/

theorem phys_congr {a : UInt32} (hpaging : w.paging = v.paging) (h : translateAddr w a = translateAddr v a) :
    physOf w a = physOf v a := by
  unfold physOf
  rw [hpaging, h]

/-- Clearing a frame that is no table yet moves nothing. -/
theorem phys_zeroed (h : Mapped v) (hdir : t ≠ v.dirFrame) (hnew : ∀ i, (view v).dir i ≠ some t) (a : UInt32) :
    physOf { v with pmm := p, mem := zeroPage v.mem (t * 4096) } a = physOf v a := by
  have hsame : (view { v with pmm := p, mem := zeroPage v.mem (t * 4096) }).dir = (view v).dir :=
    view_dir_congr (fun i hi => dir_entry_zeroed hdir hi)
  have happart : Apart { v with pmm := p, mem := zeroPage v.mem (t * 4096) } := by
    intro i
    rw [hsame]
    exact h.apart i
  refine phys_congr rfl ?_
  rw [translate_eq happart, translate_eq h.apart]
  unfold TwoLevel.lookup
  rw [hsame]
  cases hu : (view v).dir (pdiOf a) with
  | none => rfl
  | some u =>
    have hut : u ≠ t := fun hc => hnew _ (hc ▸ hu)
    have hud : u ≠ v.dirFrame := fun hc => h.apart _ (hc ▸ hu)
    have hpti := pti_lt a
    rw [Option.bind_some, Option.bind_some, view_cell hud hpti]
    refine (view_cell (v := { v with pmm := p, mem := zeroPage v.mem (t * 4096) }) hud hpti).trans (congrArg decode ?_)
    rw [zero_page_eq]
    exact if_neg (by omega)

theorem phys_placed (h : Mapped v) (hfresh : FreshTable v virt) (hf : flags.toNat < 8) (a : UInt32) :
    physOf (placedTable v virt flags).2 a = physOf v a := by
  obtain ⟨hm, hkeep, -⟩ := placed_table_spec h hfresh hf
  refine phys_congr (placed_table_frame v virt flags).2 ?_
  rw [translate_eq hm.apart, translate_eq h.apart, hkeep]

/-- In place, `get_table` does what it is meant to. -/
theorem get_table_placed (h : Mapped v) (hfresh : FreshTable v virt) (hin : InPlace v virt) :
    getTable v virt flags = some (placedTable v virt flags) := by
  have hword : (v.dirFrame * 4096 + 4 * pdiOf virt) / 4 = v.dirFrame * 1024 + pdiOf virt := by omega
  have hload : load v (dirSlot v virt) = some (dirEntry v (pdiOf virt)) := by
    unfold load
    rw [hin.dir, Option.map_some, hword]
    rfl
  unfold getTable
  rw [hload, Option.bind_eq_bind, Option.bind_some]
  rcases placed_table_cases v virt flags with ⟨hp, hrun⟩ | ⟨hp, hr, hrun⟩ | ⟨hp, hr, hrun⟩
  · rw [hrun, if_pos hp]
    rfl
  · rw [hrun, if_neg (not_not.mpr hp)]
    simp only [hr, ↓reduceIte]
    rfl
  · rcases hfresh with hp' | hr' | ⟨t, ht, hrt, hdirt, hnew⟩
    · exact absurd hp hp'
    · exact absurd hr' hr
    have htable := hin.table (by rwa [tableOf, if_neg (not_not.mpr hp)])
    rw [tableOf, if_neg (not_not.mpr hp), hrt] at htable
    have hclear : clearPage { v with pmm := (pmmAlloc v.pmm).2 } (.ofNat (t * 4096)) =
        some { v with pmm := (pmmAlloc v.pmm).2, mem := zeroPage v.mem (t * 4096) } :=
      congrArg (Option.map _) htable
    have hslot : physOf { v with pmm := (pmmAlloc v.pmm).2, mem := zeroPage v.mem (t * 4096) } (dirSlot v virt) =
        some (v.dirFrame * 4096 + 4 * pdiOf virt) := (phys_zeroed h hdirt hnew _).trans hin.dir
    have hstore : ∀ x, store { v with pmm := (pmmAlloc v.pmm).2, mem := zeroPage v.mem (t * 4096) } (dirSlot v virt) x =
        some { v with
          pmm := (pmmAlloc v.pmm).2
          mem := Function.update (zeroPage v.mem (t * 4096)) (v.dirFrame * 1024 + pdiOf virt) x } := by
      intro x
      unfold store
      rw [hslot, Option.map_some, hword]
    rw [hrun, if_neg (not_not.mpr hp)]
    simp only
    rw [if_neg hr, hrt, hclear, Option.bind_eq_bind, Option.bind_some, Nat.mul_div_cancel _ (by decide)]
    exact congrArg (Option.bind · _) (hstore _)

/-- In place, the entry that is set is the one of the table. -/
theorem store_placed (h : Mapped v) (hfresh : FreshTable v virt) (hf : flags.toNat < 8) (hin : InPlace v virt)
    (hz : (placedTable v virt flags).1 ≠ 0) (pte : Nat) :
    store (placedTable v virt flags).2 (tableSlot (placedTable v virt flags).1 virt) pte =
      some (setEntry v virt flags pte) := by
  obtain ⟨-, -, ⟨hz', -⟩ | ⟨t, ht, -, hlt, -⟩⟩ := placed_table_spec h hfresh hf
  · exact absurd hz' hz
  have htable := hin.table (by rwa [← placed_table_fst v virt flags])
  rw [← placed_table_fst v virt flags, ht] at htable
  have hpti := pti_lt virt
  have hbase : (UInt32.ofNat (t * 4096)).toNat = t * 4096 := by
    rw [UInt32.toNat_ofNat']
    exact Nat.mod_eq_of_lt (by omega)
  have hslot : (tableSlot (t * 4096) virt).toNat = t * 4096 + 4 * ptiOf virt := by
    unfold tableSlot
    rw [show (virt.toNat >>> 12) &&& 0x3FF = ptiOf virt from rfl, UInt32.toNat_ofNat']
    exact Nat.mod_eq_of_lt (by omega)
  have hphys := phys_same_page (b := tableSlot (t * 4096) virt) (by rw [hbase, hslot]; omega) htable
  have haddr : t * 4096 - (UInt32.ofNat (t * 4096)).toNat % 4096 + (tableSlot (t * 4096) virt).toNat % 4096 =
      t * 4096 + 4 * ptiOf virt := by
    rw [hbase, hslot]
    omega
  have hword : (t * 4096 + 4 * ptiOf virt) / 4 = t * 4096 / 4 + ptiOf virt := by omega
  rw [set_entry_table hz, ht]
  unfold store
  rw [phys_placed h hfresh hf, hphys, haddr, Option.map_some, hword]

theorem map_placed (h : Mapped v) (hfresh : FreshTable v virt) (hf : flags.toNat < 8) (hin : InPlace v virt) :
    vmmMap v virt phys flags =
      some (setEntry v virt flags ((phys.toNat &&& pageMask) ||| flags.toNat ||| pagePresent)) := by
  unfold vmmMap
  rw [get_table_placed h hfresh hin, Option.bind_eq_bind, Option.bind_some]
  by_cases hz : (placedTable v virt flags).1 = 0
  · rw [set_entry_null hz]
    exact if_pos hz
  · rw [← store_placed h hfresh hf hin hz]
    exact if_neg hz

theorem unmap_placed (h : Mapped v) (hfresh : FreshTable v virt) (hin : InPlace v virt) :
    vmmUnmap v virt = some (setEntry v virt 0 0) := by
  unfold vmmUnmap
  rw [get_table_placed h hfresh hin, Option.bind_eq_bind, Option.bind_some]
  by_cases hz : (placedTable v virt 0).1 = 0
  · rw [set_entry_null hz]
    exact if_pos hz
  · rw [← store_placed h hfresh (by decide) hin hz]
    exact if_neg hz

/-- The directory and the tables lie in frames the allocator has marked used. -/
structure Backed (v : Vmm) : Prop where
  mapped : Mapped v
  scannable : Scannable v.pmm
  used : ∀ i t, (view v).dir i = some t → t < v.pmm.totalFrames ∧ bit v.pmm.bitmap t = true
  own : v.dirFrame ∉ clearFrames v.pmm

/-- The allocator hands out fresh frames as long as the tables stay marked. -/
theorem Backed.fresh (h : Backed v) (virt : UInt32) : FreshTable v virt := by
  obtain ⟨-, -, -, hz | ⟨f, hlt, hr, hclear, -⟩⟩ := h.scannable.alloc
  · exact Or.inr (Or.inl hz)
  · have hsmall := h.scannable.small
    refine Or.inr (Or.inr ⟨f, by omega, hr, fun hd => ?_, fun i hi => ?_⟩)
    · exact h.own (mem_unset.mpr ⟨hd ▸ hlt, hd ▸ hclear⟩)
    · rw [(h.used i f hi).2] at hclear
      cases hclear

/-- Handing out a frame takes none that is used. -/
theorem Backed.alloc (h : Backed v) : Backed { v with pmm := (pmmAlloc v.pmm).2 } := by
  obtain ⟨hscan, htotal, hkeep, -⟩ := h.scannable.alloc
  refine ⟨⟨h.mapped.separate, h.mapped.nonzero, h.mapped.apart⟩, hscan, fun i t hi => ?_, fun hmem => ?_⟩
  · obtain ⟨hlt, hbit⟩ := h.used i t hi
    exact ⟨htotal ▸ hlt, hkeep t hbit⟩
  · obtain ⟨hlt, hclear⟩ := mem_unset.mp hmem
    simp only [htotal] at hlt hclear
    cases hbit : bit v.pmm.bitmap v.dirFrame with
    | false => exact h.own (mem_unset.mpr ⟨hlt, hbit⟩)
    | true =>
      rw [hkeep _ hbit] at hclear
      cases hclear

theorem Backed.placed_table (h : Backed v) (hf : flags.toNat < 8) : Backed (placedTable v virt flags).2 := by
  obtain ⟨hm, -, -⟩ := placed_table_spec h.mapped (h.fresh virt) hf
  have ha := h.alloc
  rcases placed_table_cases v virt flags with ⟨-, hrun⟩ | ⟨-, -, hrun⟩ | ⟨-, hne, hrun⟩
  · rw [hrun]
    exact h
  · rw [hrun]
    exact ha
  · obtain ⟨-, htotal, -, hr⟩ := h.scannable.alloc
    obtain ⟨f, hlt, hrf, hclear, hbit⟩ := hr.resolve_left hne
    have hsmall := h.scannable.small
    have hdir : f ≠ v.dirFrame := fun hd => h.own (mem_unset.mpr ⟨hd ▸ hlt, hd ▸ hclear⟩)
    rw [hrun] at hm ⊢
    refine ⟨hm, ha.scannable, fun i t hi => ?_, ha.own⟩
    rw [hrf, Nat.mul_div_cancel _ (by decide), view_attach v _ (pdi_lt virt) (by omega) hf hdir] at hi
    simp only [TwoLevel.attach, Function.update_apply] at hi
    split at hi
    · cases hi
      exact ⟨htotal ▸ hlt, hbit⟩
    · exact ha.used i t hi

theorem Backed.set_entry (h : Backed v) (hf : flags.toNat < 8) (pte : Nat) :
    Backed (setEntry v virt flags pte) := by
  have hm := (set_entry_spec h.mapped (h.fresh virt) hf pte).1
  have ht : Backed (placedTable v virt flags).2 := h.placed_table hf
  have hdir : (view (setEntry v virt flags pte)).dir = (view (placedTable v virt flags).2).dir :=
    view_dir_congr (fun _ hi => set_entry_dir h.mapped (h.fresh virt) hf pte hi)
  have hpmm := set_entry_pmm v virt flags pte
  refine ⟨hm, hpmm ▸ ht.scannable, fun i t hi => ?_, ?_⟩
  · rw [hdir] at hi
    rw [hpmm]
    exact ht.used i t hi
  · rw [hpmm, (set_entry_frame v virt flags pte).1, ← (placed_table_frame v virt flags).1]
    exact ht.own

/-- What `vmm_init` starts from: paging is off, and `page_dir` lies below the free frames,
in the first 2 MB. -/
structure Ready (v : Vmm) : Prop where
  scannable : Scannable v.pmm
  own : v.dirFrame ∉ clearFrames v.pmm
  low : v.dirFrame < 512
  unpaged : v.paging = false

/-- The state with an empty directory that `vmm_init` starts to map from. -/
def emptied (v : Vmm) : Vmm := { v with mem := zeroPage v.mem (v.dirFrame * 4096) }

/-- A page mapped to its own frame. -/
def identitySet (v : Vmm) (a : UInt32) : Vmm :=
  setEntry v a (.ofNat pageWrite) ((a.toNat &&& pageMask) ||| (UInt32.ofNat pageWrite).toNat ||| pagePresent)

/-- The pages from `addr` on mapped to their own frames. -/
def identityAll (v : Vmm) (addr : Nat) : Nat → Vmm
  | 0 => v
  | left + 1 => identityAll (identitySet v (.ofNat addr)) (addr + pageSize) left

theorem identity_all_zero (v : Vmm) (addr : Nat) : identityAll v addr 0 = v := rfl

theorem identity_all_succ (v : Vmm) (addr left : Nat) :
    identityAll v addr (left + 1) = identityAll (identitySet v (.ofNat addr)) (addr + pageSize) left := rfl

/-- The state with the first `n` pages mapped and paging on, which `vmm_init` leaves for 2048. -/
def started (v : Vmm) (n : Nat) : Vmm := { identityAll (emptied v) 0 n with paging := true }

theorem Backed.identity (h : Backed v) (a : UInt32) : Backed (identitySet v a) := h.set_entry (by decide) _

theorem Backed.paged (h : Backed v) : Backed { v with paging := true } :=
  ⟨⟨h.mapped.separate, h.mapped.nonzero, h.mapped.apart⟩, h.scannable, h.used, h.own⟩

/-- What mapping a page preserves, `vmm_init` preserves from the empty directory on. -/
theorem identity_invariant {I : Vmm → Prop} (hmap : ∀ v a, I v → I (identitySet v a)) {addr left : Nat}
    (h : I v) : I (identityAll v addr left) := by
  induction left generalizing v addr with
  | zero =>
    rw [identity_all_zero]
    exact h
  | succ left ih =>
    rw [identity_all_succ]
    exact ih (hmap v _ h)

/-- What mapping a page preserves and paging does not matter to. -/
theorem started_invariant {I : Vmm → Prop} (hmap : ∀ v a, I v → I (identitySet v a))
    (hpaging : ∀ v, I v → I { v with paging := true }) (hstart : I (emptied v)) (n : Nat) : I (started v n) :=
  hpaging _ (identity_invariant hmap hstart)

theorem started_frame (v : Vmm) (n : Nat) : (started v n).dirFrame = v.dirFrame :=
  started_invariant (I := fun w => w.dirFrame = v.dirFrame) (fun _ _ hw => (set_entry_frame _ _ _ _).1.trans hw)
    (fun _ hw => hw) rfl n

theorem emptied_entry (hi : i < 1024) : dirEntry (emptied v) i = 0 := by
  unfold dirEntry emptied
  rw [zero_page_eq]
  exact if_pos ⟨Nat.le_add_right _ _, by dsimp only; omega⟩

theorem emptied_dir (v : Vmm) (i : Nat) : (view (emptied v)).dir i = none := by
  by_cases hi : i < 1024
  · rw [view_dir hi, emptied_entry hi]
    rfl
  · simp [view, hi]

theorem emptied_backed (h : Ready v) : Backed (emptied v) := by
  refine ⟨⟨fun i j t hi _ => ?_, fun i => ?_, fun i => ?_⟩, h.scannable, fun i t hi => ?_, h.own⟩
  · rw [emptied_dir] at hi
    cases hi
  · rw [emptied_dir]
    exact nofun
  · rw [emptied_dir]
    exact nofun
  · rw [emptied_dir] at hi
    cases hi

/-- Without paging every call is in place. -/
theorem in_place_unpaged (hpaging : v.paging = false) (hlow : v.dirFrame < 512) (hfresh : FreshTable v virt) :
    InPlace v virt := by
  have hphys : ∀ a, physOf v a = some a.toNat := fun a => if_neg (by rw [hpaging]; decide)
  have hpdi := pdi_lt virt
  constructor
  · rw [hphys, Option.some.injEq]
    unfold dirSlot
    rw [show virt.toNat >>> 22 = pdiOf virt from rfl, UInt32.toNat_ofNat']
    exact Nat.mod_eq_of_lt (by omega)
  · intro hz
    rw [hphys, Option.some.injEq, UInt32.toNat_ofNat']
    refine Nat.mod_eq_of_lt ?_
    unfold tableOf at hz ⊢
    split
    · rw [and_page_mask]
      omega
    · rename_i hp
      rw [if_neg hp] at hz
      rcases hfresh with hp' | hr | ⟨t, ht, hrt, -⟩
      · exact absurd hp' hp
      · exact absurd hr hz
      · rw [hrt]
        omega

theorem identity_map_eq {addr left : Nat} (h : Backed v) (hpaging : v.paging = false) (hlow : v.dirFrame < 512) :
    identityMap v addr left = some (identityAll v addr left) := by
  induction left generalizing v addr with
  | zero =>
    rw [identity_all_zero]
    rfl
  | succ left ih =>
    have hfresh := h.fresh (.ofNat addr)
    have hframe := set_entry_frame v (.ofNat addr) (.ofNat pageWrite)
      (((UInt32.ofNat addr).toNat &&& pageMask) ||| (UInt32.ofNat pageWrite).toNat ||| pagePresent)
    rw [identityMap, map_placed h.mapped hfresh (by decide) (in_place_unpaged hpaging hlow hfresh), identity_all_succ]
    exact ih (h.identity _) (hframe.2.trans hpaging) (hframe.1 ▸ hlow)

theorem vmm_init_eq (h : Ready v) : vmmInit v = some (started v 2048) := by
  have hlow := h.low
  have haddr : (UInt32.ofNat (v.dirFrame * 4096)).toNat = v.dirFrame * 4096 := by
    rw [UInt32.toNat_ofNat']
    exact Nat.mod_eq_of_lt (by omega)
  have hclear : clearPage v (.ofNat (v.dirFrame * 4096)) = some (emptied v) := by
    unfold clearPage physOf
    rw [if_neg (by rw [h.unpaged]; decide), haddr]
    rfl
  have hpages : 0x800000 / pageSize = 2048 := rfl
  unfold vmmInit
  rw [hclear, hpages, Option.bind_eq_bind, Option.bind_some,
    identity_map_eq (emptied_backed h) h.unpaged h.low]
  rfl

/-- After `vmm_init` all tables are in frames of their own. -/
theorem init_backed (h : Ready v₀) (hinit : vmmInit v₀ = some v₁) : Backed v₁ :=
  Option.some.inj ((vmm_init_eq h).symm.trans hinit) ▸
    started_invariant (fun _ _ hv => hv.identity _) (fun _ hv => hv.paged) (emptied_backed h) 2048

/-- `vmm_init` under way: the first `n` pages are mapped to themselves, and there are
frames for the tables still to come. -/
structure Filling (v : Vmm) (n : Nat) : Prop where
  backed : Backed v
  zero : 0 ∉ clearFrames v.pmm
  room : ((Finset.range 2).filter (fun i => (view v).dir i = none)).card ≤ (clearFrames v.pmm).card
  kernel : ∀ i < 2, dirEntry v i &&& pagePresent ≠ 0 → dirEntry v i % 8 = pageWrite ||| pagePresent
  done : ∀ a : UInt32, a.toNat / 4096 < n →
    translateAddr v a = some (a.toNat / 4096 * 4096, pageWrite ||| pagePresent)

theorem Filling.placed_table {n : Nat} (h : Filling v n) (hf : flags.toNat < 8) (hpdi : pdiOf virt < 2) :
    (placedTable v virt flags).1 ≠ 0 ∧ 0 ∉ clearFrames (placedTable v virt flags).2.pmm ∧
      ((Finset.range 2).filter (fun i => (view (placedTable v virt flags).2).dir i = none)).card ≤
        (clearFrames (placedTable v virt flags).2.pmm).card := by
  have hspec := placed_table_spec h.backed.mapped (h.backed.fresh virt) hf
  by_cases hp : dirEntry v (pdiOf virt) &&& pagePresent = 0
  · -- one of the missing tables is made, in one of the frames left
    have hmissing : pdiOf virt ∈ (Finset.range 2).filter (fun i => (view v).dir i = none) :=
      Finset.mem_filter.mpr ⟨Finset.mem_range.mpr hpdi, absent_iff.mpr hp⟩
    have hleft : 0 < (clearFrames v.pmm).card :=
      Nat.lt_of_lt_of_le (Finset.card_pos.mpr ⟨_, hmissing⟩) h.room
    rcases placed_table_absent flags h.backed.scannable h.zero hp with ⟨f, hmem, hf0, hlt, -, hclear, hrun⟩ | ⟨hnone, -⟩
    · have hdir : f ≠ v.dirFrame := fun hd => h.backed.own (hd ▸ hmem)
      rw [hrun, view_attach v _ (pdi_lt virt) hlt hf hdir]
      simp only [attached_pmm]
      refine ⟨by omega, ?_, ?_⟩
      · rw [hclear]
        exact fun hmem => h.zero (Finset.mem_of_mem_erase hmem)
      · have hdirs : (Finset.range 2).filter (fun i => ((view v).attach (pdiOf virt) f).dir i = none) =
            ((Finset.range 2).filter (fun i => (view v).dir i = none)).erase (pdiOf virt) := by
          ext i
          simp only [TwoLevel.attach, Finset.mem_filter, Finset.mem_erase, Function.update_apply]
          by_cases hi : i = pdiOf virt <;> simp [hi]
        have hroom := h.room
        rw [hdirs, hclear, Finset.card_erase_of_mem hmissing, Finset.card_erase_of_mem hmem]
        omega
    · rw [hnone] at hleft
      simp at hleft
  · rcases placed_table_cases v virt flags with ⟨-, hrun⟩ | ⟨hp', -⟩ | ⟨hp', -⟩
    · obtain ⟨-, -, ⟨-, hnone⟩ | ⟨t, ht, hne, -⟩⟩ := hspec
      · exact absurd (absent_iff.mp hnone) hp
      · refine ⟨by omega, ?_, ?_⟩
        · rw [hrun]
          exact h.zero
        · rw [hrun]
          exact h.room
    · exact absurd hp' hp
    · exact absurd hp' hp

theorem Filling.map {n : Nat} (h : Filling v n) (hn : n < 2048) :
    Filling (identitySet v (.ofNat (n * 4096))) (n + 1) := by
  have haddr : (UInt32.ofNat (n * 4096)).toNat = n * 4096 := by
    rw [UInt32.toNat_ofNat']
    exact Nat.mod_eq_of_lt (by omega)
  have hf : (UInt32.ofNat pageWrite).toNat < 8 := by decide
  have hpdi : pdiOf (.ofNat (n * 4096)) < 2 := by
    rw [pdi_eq, haddr]
    omega
  obtain ⟨hnz, hzero, hroom⟩ := h.placed_table hf hpdi
  have hfresh := h.backed.fresh (.ofNat (n * 4096))
  obtain ⟨hm, hown, -, hother⟩ := set_entry_spec h.backed.mapped hfresh hf
    (((UInt32.ofNat (n * 4096)).toNat &&& pageMask) ||| (UInt32.ofNat pageWrite).toNat ||| pagePresent)
  have hdir := fun i (hi : i < 1024) => set_entry_dir h.backed.mapped hfresh hf
    (((UInt32.ofNat (n * 4096)).toNat &&& pageMask) ||| (UInt32.ofNat pageWrite).toNat ||| pagePresent) hi
  have hpmm := set_entry_pmm v (.ofNat (n * 4096)) (.ofNat pageWrite)
    (((UInt32.ofNat (n * 4096)).toNat &&& pageMask) ||| (UInt32.ofNat pageWrite).toNat ||| pagePresent)
  unfold identitySet
  refine ⟨h.backed.set_entry hf _, ?_, ?_, fun i hi hp => ?_, fun a ha => ?_⟩
  · rw [hpmm]
    exact hzero
  · rw [hpmm, view_dir_congr hdir]
    exact hroom
  · have hlt : i < 1024 := by omega
    rw [hdir i hlt] at hp ⊢
    obtain ⟨-, -, ⟨-, hsame⟩ | ⟨-, a, ha, hentries⟩⟩ := placed_table_entry hfresh hf hnz
    · rw [hsame] at hp ⊢
      exact h.kernel i hi hp
    · rw [hentries i hlt] at hp ⊢
      split at hp
      · rename_i hi
        obtain ⟨he, hlow, -⟩ := entry_eq ha hf
        have hflags : (UInt32.ofNat pageWrite).toNat = pageWrite := by decide
        rw [hflags] at he hlow ⊢
        rw [if_pos hi, he]
        omega
      · rename_i hne
        rw [if_neg hne]
        exact h.kernel i hi hp
  · by_cases hpage : a.toNat / 4096 = n
    · have hsame : pdiOf a = pdiOf (.ofNat (n * 4096)) ∧ ptiOf a = ptiOf (.ofNat (n * 4096)) := by
        simp only [pdi_eq, pti_eq, haddr]
        omega
      rw [translate_eq hm.apart, hsame.1, hsame.2, ← translate_eq hm.apart, hown hnz, and_page_mask, haddr,
        decode_entry (by omega) (by omega) hf]
      have hround : n * 4096 / 4096 % 1048576 * 4096 = a.toNat / 4096 * 4096 := by omega
      rw [hround]
      rfl
    · rw [hother a (by rw [haddr]; omega)]
      exact h.done a (by omega)

/-- The directory entry over a page that is mapped already. -/
theorem Filling.entry {n : Nat} (h : Filling v n) {a : UInt32} (ha : a.toNat / 4096 < n)
    (hlow : a.toNat < 0x800000) : dirEntry v (pdiOf a) % 8 = pageWrite ||| pagePresent := by
  refine h.kernel (pdiOf a) (by rw [pdi_eq]; omega) (fun hz => ?_)
  have hdone := h.done a ha
  rw [translate_eq h.backed.mapped.apart, TwoLevel.lookup, absent_iff.mpr hz] at hdone
  cases hdone

theorem identity_all_filling {n left : Nat} (h : Filling v n) (hn : n + left ≤ 2048) :
    Filling (identityAll v (n * 4096) left) (n + left) := by
  induction left generalizing v n with
  | zero =>
    rw [identity_all_zero]
    exact h
  | succ left ih =>
    have hnext : (n + 1) * 4096 = n * 4096 + pageSize := by
      rw [show pageSize = 4096 from rfl]
      omega
    have hrest := ih (h.map (by omega)) (by omega)
    rw [hnext] at hrest
    rw [identity_all_succ, show n + (left + 1) = n + 1 + left by omega]
    exact hrest

theorem started_filling (h : Ready v₀) (hzero : 0 ∉ clearFrames v₀.pmm) (hroom : 2 ≤ (clearFrames v₀.pmm).card)
    {n : Nat} (hn : n ≤ 2048) : Filling (started v₀ n) n := by
  have hstart : Filling (emptied v₀) 0 := by
    refine ⟨emptied_backed h, hzero, ?_, fun i hi hp => ?_, fun a ha => by omega⟩
    · exact Nat.le_trans (Finset.card_filter_le _ _) hroom
    · rw [emptied_entry (by omega)] at hp
      exact absurd rfl hp
  have hdone := @identity_all_filling (emptied v₀) 0 n hstart (by omega)
  rw [Nat.zero_mul, Nat.zero_add] at hdone
  exact ⟨hdone.backed.paged, hdone.zero, hdone.room, hdone.kernel, hdone.done⟩

/-- With frames for two tables, `vmm_init` maps the first 8 MB to themselves. -/
theorem first_pages_identity (h : Ready v₀) (hzero : 0 ∉ clearFrames v₀.pmm) (hroom : 2 ≤ (clearFrames v₀.pmm).card)
    (hinit : vmmInit v₀ = some v₁) {a : UInt32} (ha : a.toNat < 0x800000) :
    translateAddr v₁ a = some (a.toNat / 4096 * 4096, pageWrite ||| pagePresent) := by
  rw [vmm_init_eq h] at hinit
  obtain rfl := Option.some.inj hinit
  exact (started_filling h hzero hroom (Nat.le_refl _)).done a (by omega)

/-- Calls of the memory manager, and whatever the rest of the kernel does meanwhile
to the frame allocator and to memory. -/
inductive VmmOp where
  | map (virt phys flags : UInt32)
  | unmap (virt : UInt32)
  | rest (pmm : Pmm) (mem : Nat → Nat)

/-- The state after a call, if it does not end in a page fault. -/
def vmmStep (v : Vmm) : VmmOp → Option Vmm
  | .map virt phys flags => vmmMap v virt phys flags
  | .unmap virt => vmmUnmap v virt
  | .rest pmm mem => some { v with pmm := pmm, mem := mem }

/-- A call that meets the condition. -/
def Taken (P : Vmm → VmmOp → Prop) (v : Vmm) (op : VmmOp) (_ : Unit) (w : Vmm) : Prop := P v op ∧ vmmStep v op = some w

/-- Flags are among PRESENT, WRITE and USER, new tables get fresh frames, the calls are in
place, and nothing else writes `page_dir`. -/
def Orderly (v : Vmm) : VmmOp → Prop
  | .map virt _ flags => flags.toNat < 8 ∧ FreshTable v virt ∧ InPlace v virt
  | .unmap virt => FreshTable v virt ∧ InPlace v virt
  | .rest _ mem => ∀ i < 1024, mem (v.dirFrame * 1024 + i) = dirEntry v i

theorem Mapped.step (h : Mapped v) {op : VmmOp} (hop : Orderly v op) (hrun : vmmStep v op = some w) : Mapped w := by
  cases op with
  | map virt phys flags =>
    obtain ⟨hf, hfresh, hin⟩ := hop
    obtain rfl := Option.some.inj ((map_placed h hfresh hf hin).symm.trans hrun)
    exact (set_entry_spec h hfresh hf _).1
  | unmap virt =>
    obtain ⟨hfresh, hin⟩ := hop
    obtain rfl := Option.some.inj ((unmap_placed h hfresh hin).symm.trans hrun)
    exact (set_entry_spec h hfresh (by decide) _).1
  | rest pmm mem =>
    obtain rfl := Option.some.inj hrun
    have hdir : (view { v with pmm := pmm, mem := mem }).dir = (view v).dir := view_dir_congr hop
    refine ⟨?_, ?_, ?_⟩
    · unfold TwoLevel.Separate
      rw [hdir]
      exact h.separate
    · rw [hdir]
      exact h.nonzero
    · unfold Apart
      rw [hdir]
      exact h.apart

theorem reachable_mapped (h₀ : Ready v₀) (hinit : vmmInit v₀ = some v₁) {trace : List (VmmOp × Unit)}
    (h : Steps (Taken Orderly) v₁ trace v) : Mapped v :=
  h.invariant (fun _ _ _ _ hv hc => hv.step hc.1 hc.2) (init_backed h₀ hinit).mapped

/-- In place, unmapping takes away what the page maps to, whether or not its table is to be had. -/
theorem unmap_spec (h : Mapped v) (hfresh : FreshTable v virt) (hin : InPlace v virt) :
    ∃ w, vmmUnmap v virt = some w ∧ translateAddr w virt = none ∧
      ∀ other : UInt32, other.toNat / 4096 ≠ virt.toNat / 4096 → translateAddr w other = translateAddr v other := by
  have hplain : (0 : UInt32).toNat < 8 := by decide
  obtain ⟨-, hown, hfail, hother⟩ := set_entry_spec h hfresh hplain 0
  refine ⟨_, unmap_placed h hfresh hin, ?_, hother⟩
  by_cases hz : (placedTable v virt 0).1 = 0
  · exact hfail hz
  · exact hown hz

/-- In every state that calls in place lead to, and for every call in place: mapping a page, if
a table is to be had, and unmapping it do so to that page and leave all others alone. -/
theorem tables_refine_flat_map (h₀ : Ready v₀) (hinit : vmmInit v₀ = some v₁) {trace : List (VmmOp × Unit)}
    (h : Steps (Taken Orderly) v₁ trace v) (hfresh : FreshTable v virt) (hin : InPlace v virt) :
    (∀ phys flags : UInt32, flags.toNat < 8 → ∃ w, vmmMap v virt phys flags = some w ∧
        (tableOf v virt ≠ 0 → translateAddr w virt = some (phys.toNat &&& pageMask, flags.toNat ||| pagePresent)) ∧
        ∀ other : UInt32, other.toNat / 4096 ≠ virt.toNat / 4096 → translateAddr w other = translateAddr v other) ∧
      ∃ w, vmmUnmap v virt = some w ∧ translateAddr w virt = none ∧
        ∀ other : UInt32, other.toNat / 4096 ≠ virt.toNat / 4096 → translateAddr w other = translateAddr v other := by
  have hv := reachable_mapped h₀ hinit h
  refine ⟨fun phys flags hf => ?_, unmap_spec hv hfresh hin⟩
  obtain ⟨-, hown, -, hother⟩ := set_entry_spec hv hfresh hf
    ((phys.toNat &&& pageMask) ||| flags.toNat ||| pagePresent)
  have hlt := phys.toNat_lt
  refine ⟨_, map_placed hv hfresh hf hin, fun hne => ?_, hother⟩
  rw [hown (by rwa [placed_table_fst])]
  refine decode_entry ?_ ?_ hf
  all_goals
    rw [and_page_mask]
    omega

/-- A call whose table is not mapped ends in a page fault. -/
theorem map_faults (hdir : physOf v (dirSlot v virt) = some (v.dirFrame * 4096 + 4 * pdiOf virt))
    (hp : dirEntry v (pdiOf virt) &&& pagePresent ≠ 0) (hz : tableOf v virt ≠ 0)
    (hfault : physOf v (tableSlot (tableOf v virt) virt) = none) : vmmMap v virt phys flags = none := by
  have hword : (v.dirFrame * 4096 + 4 * pdiOf virt) / 4 = v.dirFrame * 1024 + pdiOf virt := by omega
  have hload : load v (dirSlot v virt) = some (dirEntry v (pdiOf virt)) := by
    unfold load
    rw [hdir, Option.map_some, hword]
    rfl
  have htable : getTable v virt flags = some (tableOf v virt, v) := by
    unfold getTable
    rw [hload, Option.bind_eq_bind, Option.bind_some, if_pos hp, tableOf, if_pos hp]
    rfl
  unfold vmmMap
  rw [htable, Option.bind_eq_bind, Option.bind_some]
  refine (if_neg hz).trans ?_
  unfold store
  rw [hfault]
  rfl

theorem phys_identity {a : UInt32} {x : Nat} (h : translateAddr v a = some (a.toNat / 4096 * 4096, x)) :
    physOf v a = some a.toNat := by
  unfold physOf
  rw [h, Option.map_some]
  split
  · rw [Option.some.injEq]
    omega
  · rfl

theorem table_of_dir (h : (view v).dir (pdiOf virt) = some t) : tableOf v virt = t * 4096 := by
  rw [view_dir (pdi_lt virt)] at h
  split at h
  · rename_i hodd
    rw [tableOf, if_pos ((present_iff _).mpr hodd), and_page_mask, Option.some.inj h]
  · cases h

/-- A table stays where it is. -/
theorem set_entry_keeps_table (h : Backed v) (hf : flags.toNat < 8) (hi : (view v).dir i = some t) :
    (view (setEntry v virt flags pte)).dir i = some t := by
  rw [view_dir_congr (fun _ hj => set_entry_dir h.mapped (h.fresh virt) hf pte hj)]
  rcases placed_table_cases v virt flags with ⟨-, hrun⟩ | ⟨-, -, hrun⟩ | ⟨hp, hne, hrun⟩
  · rw [hrun]
    exact hi
  · rw [hrun]
    exact hi
  · rcases h.fresh virt with hp' | hz | ⟨f, hlt, hrf, hdir, -⟩
    · exact absurd hp hp'
    · exact absurd hz hne
    rw [hrun, hrf, Nat.mul_div_cancel _ (by decide), view_attach v _ (pdi_lt virt) hlt hf hdir]
    refine (Function.update_of_ne (fun hc => ?_) _ _).trans hi
    rw [hc, absent_iff.mpr hp] at hi
    cases hi

/-- A call is in place if the first 8 MB are mapped to themselves but for a page that has
neither the directory nor the table. -/
theorem in_place_of_kept {n : Nat} (hkeep : ∀ a : UInt32, a.toNat < 0x800000 → a.toNat / 4096 ≠ n →
      translateAddr v a = some (a.toNat / 4096 * 4096, pageWrite ||| pagePresent))
    (hlow : v.dirFrame < 512) (hdir : v.dirFrame ≠ n) (ht : tableOf v virt = t * 4096) (hlt : t < 2048) (hn : t ≠ n) :
    InPlace v virt := by
  have hpdi := pdi_lt virt
  have hslot : (dirSlot v virt).toNat = v.dirFrame * 4096 + 4 * pdiOf virt := by
    unfold dirSlot
    rw [show virt.toNat >>> 22 = pdiOf virt from rfl, UInt32.toNat_ofNat']
    exact Nat.mod_eq_of_lt (by omega)
  have hbase : (UInt32.ofNat (t * 4096)).toNat = t * 4096 := by
    rw [UInt32.toNat_ofNat']
    exact Nat.mod_eq_of_lt (by omega)
  constructor
  · rw [phys_identity (hkeep _ (by omega) (by omega)), hslot]
  · intro _
    rw [ht, phys_identity (hkeep _ (by omega) (by omega)), hbase]

/-- Memory with frames for exactly the two tables `vmm_init` makes. -/
def twoTables : Vmm := ⟨pmmInit (fun _ => 0) 2056, fun _ => 0, 32, false⟩

theorem two_tables_clear : clearFrames twoTables.pmm = Finset.Ico 512 514 := (pmm_init_eq (fun _ => 0) 2056).2.2.2

theorem two_tables_ready : Ready twoTables := by
  refine ⟨(pmm_init_eq (fun _ => 0) 2056).1, ?_, by decide, rfl⟩
  rw [two_tables_clear]
  decide

/-- The table of the first 4 MB is in the lowest frame there was. -/
theorem two_tables_first (n : Nat) : (view (started twoTables (n + 1))).dir 0 = some 512 := by
  have hstart := emptied_backed two_tables_ready
  have hzero : pdiOf (.ofNat 0) = 0 := by decide
  have hfirst : (view (identitySet (emptied twoTables) (.ofNat 0))).dir 0 = some 512 := by
    unfold identitySet
    rw [view_dir_congr (fun _ hj => set_entry_dir hstart.mapped (hstart.fresh _) (by decide) _ hj)]
    have hp : dirEntry (emptied twoTables) (pdiOf (.ofNat 0)) &&& pagePresent = 0 := by
      rw [emptied_entry (pdi_lt _)]
      rfl
    rcases placed_table_absent (.ofNat pageWrite) hstart.scannable
        (show 0 ∉ clearFrames twoTables.pmm by rw [two_tables_clear]; decide) hp with
      ⟨f, hmem, -, hlt, hleast, -, hrun⟩ | ⟨hnone, -⟩
    · have hdir : f ≠ (emptied twoTables).dirFrame := fun hd => hstart.own (hd ▸ hmem)
      have hclear : clearFrames (emptied twoTables).pmm = Finset.Ico 512 514 := two_tables_clear
      rw [hclear] at hmem hleast
      have hlow := hleast 512 (by decide)
      have hge := (Finset.mem_Ico.mp hmem).1
      obtain rfl : f = 512 := by omega
      rw [hrun, view_attach _ _ (pdi_lt _) hlt (by decide) hdir, hzero]
      exact Function.update_self (0 : Nat) (some 512) (view (emptied twoTables)).dir
    · have hclear : clearFrames (emptied twoTables).pmm = Finset.Ico 512 514 := two_tables_clear
      rw [hclear] at hnone
      exact absurd hnone (by decide)
  have hall : Backed (identityAll (emptied twoTables) 0 (n + 1)) ∧
      (view (identityAll (emptied twoTables) 0 (n + 1))).dir 0 = some 512 := by
    rw [identity_all_succ]
    exact identity_invariant (I := fun v => Backed v ∧ (view v).dir 0 = some 512)
      (fun v a hv => ⟨hv.1.identity a, set_entry_keeps_table hv.1 (by decide) hv.2⟩) ⟨hstart.identity _, hfirst⟩
  exact hall.2

/-- What `vmm_init` leaves there. -/
structure KernelMapped (v : Vmm) : Prop where
  filled : Filling v 2048
  first : (view v).dir 0 = some 512
  frame : v.dirFrame = 32
  paging : v.paging = true

theorem two_tables_started : ∃ v₁, vmmInit twoTables = some v₁ ∧ KernelMapped v₁ := by
  have hfilled : Filling (started twoTables 2048) 2048 := by
    refine started_filling two_tables_ready ?_ ?_ (Nat.le_refl _)
    all_goals
      rw [two_tables_clear]
      decide
  have hall : ∀ n, (started twoTables n).dirFrame = 32 ∧ (started twoTables n).paging = true :=
    fun n => ⟨started_frame twoTables n, rfl⟩
  refine ⟨started twoTables 2048, vmm_init_eq two_tables_ready, hfilled, ?_, (hall _).1, (hall _).2⟩
  obtain ⟨n, hn⟩ : ∃ n, 2048 = n + 1 := ⟨2047, rfl⟩
  rw [hn]
  exact two_tables_first n

/-- After `vmm_init` calls for the first 4 MB are in place. -/
theorem KernelMapped.in_place (h : KernelMapped v) (hpdi : pdiOf virt = 0) : InPlace v virt :=
  in_place_of_kept (n := 2048) (fun a ha _ => h.filled.done a (by omega)) (by rw [h.frame]; decide)
    (by rw [h.frame]; decide) (table_of_dir (hpdi ▸ h.first)) (by decide) (by decide)

/-- What is left after one of the first 1024 pages is unmapped. -/
theorem KernelMapped.unmap (h : KernelMapped v) (virt : UInt32) (hpdi : pdiOf virt = 0) :
    ∃ w, vmmUnmap v virt = some w ∧ Backed w ∧ w.dirFrame = 32 ∧ w.paging = true ∧ (view w).dir 0 = some 512 ∧
      translateAddr w virt = none ∧ ∀ a : UInt32, a.toNat < 0x800000 → a.toNat / 4096 ≠ virt.toNat / 4096 →
        translateAddr w a = some (a.toNat / 4096 * 4096, pageWrite ||| pagePresent) := by
  have hb := h.filled.backed
  have hin := h.in_place hpdi
  obtain ⟨w, hrun, hgone, hsame⟩ := unmap_spec hb.mapped (hb.fresh virt) hin
  obtain rfl := Option.some.inj ((unmap_placed hb.mapped (hb.fresh virt) hin).symm.trans hrun)
  obtain ⟨hframe, hpaging⟩ := set_entry_frame v virt 0 0
  refine ⟨_, hrun, hb.set_entry (by decide) 0, hframe.trans h.frame, hpaging.trans h.paging,
    set_entry_keeps_table hb (by decide) h.first, hgone, fun a ha hpage => ?_⟩
  rw [hsame a hpage]
  exact h.filled.done a (by omega)

/-- A page of the first 8 MB is unmapped, another one is mapped anew or unmapped. -/
theorem tables_refine_flat_map_small :
    ∃ v₁ v, vmmInit twoTables = some v₁ ∧ Steps (Taken Orderly) v₁ [(.unmap 0x2000, ())] v ∧
      (∃ w, vmmMap v 0x1000 0x5000 4 = some w ∧ translateAddr w 0x1000 = some (0x5000, 5) ∧
        translateAddr w 0x3000 = some (0x3000, 3)) ∧
      ∃ w, vmmUnmap v 0x1000 = some w ∧ translateAddr w 0x1000 = none := by
  obtain ⟨v₁, hinit, hv₁⟩ := two_tables_started
  obtain ⟨v, hrun, hb, hframe, -, hdir, -, hkeep⟩ := hv₁.unmap 0x2000 (by decide)
  have htable : tableOf v 0x1000 = 512 * 4096 := table_of_dir hdir
  have hin : InPlace v 0x1000 :=
    in_place_of_kept hkeep (by omega) (by rw [hframe]; decide) htable (by decide) (by decide)
  have hstep : Steps (Taken Orderly) v₁ [(.unmap 0x2000, ())] v :=
    .cons ⟨⟨hv₁.filled.backed.fresh _, hv₁.in_place (by decide)⟩, hrun⟩ (.nil _)
  obtain ⟨hmap, w', hunmap, hgone, -⟩ := tables_refine_flat_map two_tables_ready hinit hstep (hb.fresh 0x1000) hin
  obtain ⟨w, hrun', hown, hother⟩ := hmap 0x5000 4 (by decide)
  refine ⟨v₁, v, hinit, hstep, ⟨w, hrun', hown (by rw [htable]; decide), ?_⟩, w', hunmap, hgone⟩
  rw [hother 0x3000 (by decide)]
  exact hkeep 0x3000 (by decide) (by decide)

/-- Once the page of a table is unmapped, the next call that needs the table ends in a page
fault. -/
theorem table_page_unmapped :
    ∃ v₁ v, vmmInit twoTables = some v₁ ∧ vmmUnmap v₁ 0x200000 = some v ∧ tableOf v 0x1000 = 0x200000 ∧
      vmmMap v 0x1000 0x5000 2 = none := by
  obtain ⟨v₁, hinit, hv₁⟩ := two_tables_started
  obtain ⟨v, hrun, -, hframe, hpaging, hdir, hgone, hkeep⟩ := hv₁.unmap 0x200000 (by decide)
  have htable : tableOf v 0x1000 = 512 * 4096 := table_of_dir hdir
  have hslot : (dirSlot v 0x1000).toNat = 131072 := by
    unfold dirSlot
    rw [hframe]
    decide
  have hplace : physOf v (dirSlot v 0x1000) = some (v.dirFrame * 4096 + 4 * pdiOf 0x1000) := by
    rw [phys_identity (hkeep (dirSlot v 0x1000) (by omega) (by rw [hslot]; decide)), hslot, hframe]
    decide
  have hp : dirEntry v (pdiOf 0x1000) &&& pagePresent ≠ 0 := by
    intro hz
    have hnone : (view v).dir 0 = none := absent_iff.mpr hz
    rw [hdir] at hnone
    cases hnone
  have hfault : physOf v (tableSlot (512 * 4096) 0x1000) = none := by
    by_contra hsome
    obtain ⟨q, hq⟩ := Option.ne_none_iff_exists'.mp hsome
    have hbase := phys_same_page (b := 0x200000) (by decide) hq
    unfold physOf at hbase
    rw [hpaging, hgone] at hbase
    cases hbase
  refine ⟨v₁, v, hinit, hrun, htable, map_faults hplace hp (by rw [htable]; decide) ?_⟩
  rw [htable]
  exact hfault

end BaSic.Proofs.VmmMap
