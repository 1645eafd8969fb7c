import BaSic.Mm.Vmm
import BaSic.Lib.TwoLevel
import BaSic.Lib.Words
import BaSic.Proofs.PmmScan

namespace BaSic.Proofs.VmmTables
open Mm Lib PmmScan

/-- A table entry as a mapping. -/
def decode (pte : Nat) : Option (Nat × Nat) :=
  if pte &&& pagePresent = 0 then none else some (pte &&& pageMask, pte &&& 0xFFF)

/-- The directory and its tables, tables going by their frame numbers. -/
def view (v : Vmm) : TwoLevel Nat Nat Nat (Nat × Nat) where
  dir i := if i < 1024 ∧ dirEntry v i &&& pagePresent ≠ 0 then some (dirEntry v i / 4096 % 1048576) else none
  cell t k := if t ≠ v.dirFrame ∧ k < 1024 then decode (v.mem (t * 1024 + k)) else none

/-- The directory is not one of its tables. -/
def Apart (v : Vmm) : Prop := ∀ i, (view v).dir i ≠ some v.dirFrame

/-- The zeroed frame `t` as the table of region `i`. -/
def attached (v : Vmm) (p : Pmm) (i t f : Nat) : Vmm :=
  { v with
    pmm := p
    mem := Function.update (zeroPage v.mem (t * 4096)) (v.dirFrame * 1024 + i) (t * 4096 ||| f ||| pagePresent) }

/-- Which table, and which entry of it, an address is looked up in. -/
def pdiOf (virt : UInt32) : Nat := virt.toNat >>> 22

def ptiOf (virt : UInt32) : Nat := (virt.toNat >>> 12) &&& 0x3FF

@[simp] theorem attached_pmm (v : Vmm) (p : Pmm) (i t f : Nat) : (attached v p i t f).pmm = p := rfl

variable {v w : Vmm} {virt other : UInt32} {i k t f x : Nat} {p : Pmm}

theorem present_iff (x : Nat) : x &&& pagePresent ≠ 0 ↔ x % 2 = 1 := by
  rw [show pagePresent = 1 from rfl, Nat.and_one_is_mod]
  omega

theorem and_page_mask (x : Nat) : x &&& pageMask = x / 4096 % 1048576 * 4096 :=
  and_field x 20 12

theorem and_low_bits (x : Nat) : x &&& 0xFFF = x % 4096 := Nat.and_two_pow_sub_one_eq_mod x 12

theorem pdi_eq (virt : UInt32) : pdiOf virt = virt.toNat / 4194304 := Nat.shiftRight_eq_div_pow _ 22

theorem pti_eq (virt : UInt32) : ptiOf virt = virt.toNat / 4096 % 1024 := by
  have hmask : ∀ x, x &&& 0x3FF = x % 1024 := fun x => Nat.and_two_pow_sub_one_eq_mod x 10
  unfold ptiOf
  rw [hmask, Nat.shiftRight_eq_div_pow]

theorem pdi_lt (virt : UInt32) : pdiOf virt < 1024 := by
  have hlt := virt.toNat_lt
  rw [pdi_eq]
  omega

theorem pti_lt (virt : UInt32) : ptiOf virt < 1024 := by
  rw [pti_eq]
  omega

/-- Addresses of different pages differ in one of the two indices. -/
theorem other_page (h : other.toNat / 4096 ≠ virt.toNat / 4096) :
    pdiOf other ≠ pdiOf virt ∨ ptiOf other ≠ ptiOf virt := by
  simp only [pdi_eq, pti_eq]
  omega

/-- A page-aligned address with flags below it. -/
theorem entry_eq {a f : Nat} (ha : a % 4096 = 0) (hf : f < 8) :
    a ||| f ||| pagePresent = a + (f ||| pagePresent) ∧ f ||| pagePresent < 8 ∧
      (f ||| pagePresent) % 2 = 1 := by
  have hone : pagePresent < 2 ^ 3 := by decide
  have hlt : f ||| pagePresent < 2 ^ 3 := Nat.or_lt_two_pow hf hone
  have hlow : f ||| pagePresent < 2 ^ 12 := by omega
  have ha' : a = (a / 4096) <<< 12 := by
    rw [Nat.shiftLeft_eq]
    omega
  have hadd : (a / 4096) <<< 12 ||| (f ||| pagePresent) = a / 4096 * 4096 + (f ||| pagePresent) :=
    shl_or_of_lt hlow _
  refine ⟨?_, hlt, ?_⟩
  · rw [Nat.or_assoc, ha', hadd]
    omega
  · exact Nat.or_mod_two_eq_one.mpr (Or.inr rfl)

theorem decode_entry {a f : Nat} (ha : a % 4096 = 0) (hlt : a < 4294967296) (hf : f < 8) :
    decode (a ||| f ||| pagePresent) = some (a, f ||| pagePresent) := by
  obtain ⟨he, hlow, hodd⟩ := entry_eq ha hf
  unfold decode
  rw [he, if_neg ((present_iff _).mpr (by omega)), and_page_mask, and_low_bits]
  congr 2 <;> omega

theorem view_dir (hi : i < 1024) : (view v).dir i =
    if dirEntry v i % 2 = 1 then some (dirEntry v i / 4096 % 1048576) else none := by
  simp only [view, hi, true_and, present_iff]

theorem view_cell (ht : t ≠ v.dirFrame) (hk : k < 1024) : (view v).cell t k = decode (v.mem (t * 1024 + k)) :=
  if_pos ⟨ht, hk⟩

/-- Two states with the same entries in the directory have it map to the same tables. -/
theorem view_dir_congr (h : ∀ i < 1024, dirEntry w i = dirEntry v i) : (view w).dir = (view v).dir := by
  funext i
  by_cases hi : i < 1024
  · rw [view_dir hi, view_dir hi, h i hi]
  · simp [view, hi]

/-- The walk through the two levels is a lookup in the view. -/
theorem translate_eq (h : Apart v) (virt : UInt32) :
    translateAddr v virt = (view v).lookup (pdiOf virt) (ptiOf virt) := by
  have happart := h (pdiOf virt)
  unfold translateAddr walk TwoLevel.lookup
  rw [show virt.toNat >>> 22 = pdiOf virt from rfl,
    show (virt.toNat >>> 12) &&& 0x3FF = ptiOf virt from rfl]
  rw [view_dir (pdi_lt virt)] at happart ⊢
  by_cases hp : dirEntry v (pdiOf virt) &&& pagePresent = 0
  · have hodd := (not_congr (present_iff (dirEntry v (pdiOf virt)))).mp (not_not.mpr hp)
    rw [if_pos hp, if_neg hodd]
    rfl
  · have hodd := (present_iff _).mp hp
    rw [if_pos hodd] at happart
    have hne : dirEntry v (pdiOf virt) / 4096 % 1048576 ≠ v.dirFrame := fun he => happart (congrArg some he)
    have hword : (dirEntry v (pdiOf virt) &&& pageMask) / 4 + ptiOf virt =
        dirEntry v (pdiOf virt) / 4096 % 1048576 * 1024 + ptiOf virt := by
      rw [and_page_mask]
      omega
    rw [if_neg hp, if_pos hodd, Option.bind_some, view_cell hne (pti_lt virt), decode, hword]
    simp only
    split <;> rfl

/-- A word of another frame is none of the directory. -/
theorem dir_entry_update (ht : t ≠ v.dirFrame) (hk : k < 1024) (hi : i < 1024) :
    dirEntry { v with mem := Function.update v.mem (t * 4096 / 4 + k) x } i = dirEntry v i := by
  have hword : v.dirFrame * 1024 + i ≠ t * 4096 / 4 + k := by omega
  exact Function.update_of_ne hword _ _

/-- Writing an entry of the table in frame `t`. -/
theorem view_store (pte : Nat) (ht : t ≠ v.dirFrame) (hk : k < 1024) :
    view { v with mem := Function.update v.mem (t * 4096 / 4 + k) pte } = (view v).store t k (decode pte) := by
  have hdir : (view { v with mem := Function.update v.mem (t * 4096 / 4 + k) pte }).dir = (view v).dir :=
    view_dir_congr (fun i hi => dir_entry_update ht hk hi)
  refine TwoLevel.ext hdir ?_
  have hword : t * 4096 / 4 + k = t * 1024 + k := by omega
  rw [hword]
  unfold view TwoLevel.store
  funext u l
  simp only [Function.update_apply]
  by_cases hu : u = t
  · subst hu
    by_cases hl : l = k
    · subst hl
      simp [hk, ht]
    · simp [hl]
  · rw [if_neg hu]
    by_cases hl : l < 1024
    · rw [if_neg (show u * 1024 + l ≠ t * 1024 + k by omega)]
    · rw [if_neg (fun h => hl h.2), if_neg (fun h => hl h.2)]

theorem zero_page_eq (mem : Nat → Nat) (t : Nat) :
    zeroPage mem (t * 4096) = fun j => if t * 1024 ≤ j ∧ j < t * 1024 + 1024 then 0 else mem j := by
  have hword : t * 4096 / 4 = t * 1024 := by omega
  unfold zeroPage
  rw [hword, show pageSize / 4 = 1024 from rfl]

theorem dir_entry_zeroed (ht : t ≠ v.dirFrame) (hi : i < 1024) :
    dirEntry { v with pmm := p, mem := zeroPage v.mem (t * 4096) } i = dirEntry v i := by
  have hword : ¬ (t * 1024 ≤ v.dirFrame * 1024 + i ∧ v.dirFrame * 1024 + i < t * 1024 + 1024) := by omega
  rw [zero_page_eq]
  exact if_neg hword

theorem dir_entry_attached (ht : t ≠ v.dirFrame) (hk : k < 1024) :
    dirEntry (attached v p i t f) k = if k = i then t * 4096 ||| f ||| pagePresent else dirEntry v k := by
  unfold attached dirEntry
  rw [zero_page_eq]
  simp only [Function.update_apply]
  by_cases hki : k = i
  · rw [hki, if_pos rfl, if_pos rfl]
  · rw [if_neg (by omega), if_neg hki]
    exact if_neg (by omega)

/-- A word that is not the directory's. -/
theorem attached_word {u : Nat} (hu : u ≠ v.dirFrame) (hi : i < 1024) (hk : k < 1024) :
    (attached v p i t f).mem (u * 1024 + k) = if u = t then 0 else v.mem (u * 1024 + k) := by
  have hword : u * 1024 + k ≠ v.dirFrame * 1024 + i := by omega
  unfold attached
  rw [zero_page_eq]
  dsimp only
  rw [Function.update_of_ne hword]
  by_cases hut : u = t
  · rw [if_pos hut]
    exact if_pos (by omega)
  · rw [if_neg hut]
    exact if_neg (by omega)

/-- Entering the zeroed frame `t` in the directory. -/
theorem view_attach (v : Vmm) (p : Pmm) (hi : i < 1024) (ht : t < 1048576) (hf : f < 8) (hdir : t ≠ v.dirFrame) :
    view (attached v p i t f) = (view v).attach i t := by
  obtain ⟨he, hlow, hodd⟩ := entry_eq (a := t * 4096) (by omega) hf
  refine TwoLevel.ext ?_ ?_
  · funext j
    simp only [TwoLevel.attach, Function.update_apply]
    by_cases hj : j < 1024
    · rw [view_dir hj, dir_entry_attached hdir hj]
      by_cases hji : j = i
      · rw [if_pos hji, if_pos hji, he, if_pos (by omega)]
        congr 1
        omega
      · rw [if_neg hji, if_neg hji, view_dir hj]
    · rw [if_neg (by omega)]
      simp [view, hj]
  · funext u k
    simp only [TwoLevel.attach, Function.update_apply]
    by_cases hu : u = t
    · subst hu
      rw [if_pos rfl]
      by_cases hk : k < 1024
      · refine (view_cell (v := attached v p i u f) hdir hk).trans ?_
        rw [attached_word hdir hi hk, if_pos rfl]
        rfl
      · exact if_neg (fun h => hk h.2)
    · rw [if_neg hu]
      by_cases hk : u ≠ v.dirFrame ∧ k < 1024
      · rw [view_cell hk.1 hk.2]
        refine (view_cell (v := attached v p i t f) hk.1 hk.2).trans ?_
        rw [attached_word hk.1 hi hk.2, if_neg hu]
      · exact (if_neg hk).trans (if_neg hk).symm

/-- Addresses of one page are found alike. -/
theorem phys_same_page {a b : UInt32} (hpage : a.toNat / 4096 = b.toNat / 4096) {q : Nat}
    (h : physOf v a = some q) : physOf v b = some (q - a.toNat % 4096 + b.toNat % 4096) := by
  have hwalk : walk v b = walk v a := by
    have hpdi : b.toNat >>> 22 = a.toNat >>> 22 := by
      rw [Nat.shiftRight_eq_div_pow, Nat.shiftRight_eq_div_pow]
      omega
    have hpti : b.toNat >>> 12 = a.toNat >>> 12 := by
      rw [Nat.shiftRight_eq_div_pow, Nat.shiftRight_eq_div_pow]
      omega
    unfold walk
    rw [hpdi, hpti]
  unfold physOf translateAddr at h ⊢
  rw [hwalk]
  split
  · rename_i hpaging
    rw [if_pos hpaging] at h
    cases hentries : walk v a with
    | none =>
      rw [hentries] at h
      cases h
    | some e =>
      rw [hentries] at h
      obtain rfl := Option.some.inj h
      simp only [Option.map_some, Option.some.injEq]
      omega
  · rename_i hpaging
    rw [if_neg hpaging] at h
    obtain rfl := Option.some.inj h
    rw [Option.some.injEq]
    omega

end BaSic.Proofs.VmmTables
