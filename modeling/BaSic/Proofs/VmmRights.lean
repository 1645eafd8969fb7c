import BaSic.Proofs.VmmMap

namespace BaSic.Proofs.VmmRights
open Mm Lib PmmScan VmmTables VmmMap

/-- The bits a page's rights are made of. -/
def rightsMask : Nat := pageWrite ||| pageUser

/-- The rights the walk grants: both entries must have the bit. -/
def rights (v : Vmm) (virt : UInt32) : Option Nat := (walk v virt).map (fun e => e.1 &&& e.2 &&& rightsMask)

/-- Only the memory manager itself runs, in place, with flags among PRESENT, WRITE and USER. -/
def Alone (v : Vmm) : VmmOp → Prop
  | .map virt _ flags => flags.toNat < 8 ∧ InPlace v virt
  | .unmap virt => InPlace v virt
  | .rest _ _ => False

variable {v v₀ v₁ w : Vmm} {virt phys flags : UInt32} {a f : Nat}

theorem backed_step (h : Backed v) {op : VmmOp} (hop : Alone v op) (hrun : vmmStep v op = some w) : Backed w := by
  cases op with
  | map virt phys flags =>
    obtain ⟨hf, hin⟩ := hop
    obtain rfl := Option.some.inj ((map_placed h.mapped (h.fresh virt) hf hin).symm.trans hrun)
    exact h.set_entry hf _
  | unmap virt =>
    obtain rfl := Option.some.inj ((unmap_placed h.mapped (h.fresh virt) hop).symm.trans hrun)
    exact h.set_entry (by decide) _
  | rest pmm mem => exact hop.elim

theorem reachable_backed (h₀ : Ready v₀) (hinit : vmmInit v₀ = some v₁) {trace : List (VmmOp × Unit)}
    (h : Steps (Taken Alone) v₁ trace v) : Backed v :=
  h.invariant (I := Backed) (fun _ _ _ _ hv hc => backed_step hv hc.1 hc.2) (init_backed h₀ hinit)

/-- The rights bits of an entry are those of the flags put into it. -/
theorem entry_rights (ha : a % 4096 = 0) (hf : f &&& rightsMask = f) :
    (a ||| f ||| pagePresent) &&& rightsMask = f := by
  have hmask : ∀ x, x &&& rightsMask = x / 2 % 4 * 2 := fun x => and_field x 2 1
  have hzero : a &&& rightsMask = 0 := by
    rw [hmask]
    omega
  rw [Nat.and_or_distrib_right, Nat.and_or_distrib_right, hzero, hf, Nat.zero_or]
  exact Nat.or_zero f

/-- Of the rights asked for, an entry grants those it was made with. -/
theorem entry_and {g : Nat} (ha : a % 4096 = 0) (hf : f &&& rightsMask = f) (hg : g &&& rightsMask = g) :
    (a ||| f ||| pagePresent) &&& g = f &&& g :=
  calc (a ||| f ||| pagePresent) &&& g
      = (a ||| f ||| pagePresent) &&& (rightsMask &&& g) := by rw [Nat.and_comm rightsMask, hg]
    _ = f &&& g := by rw [← Nat.and_assoc, entry_rights ha hf]

theorem rights_lt (hf : f &&& rightsMask = f) : f < 8 := by
  have hlt : f &&& rightsMask ≤ rightsMask := Nat.and_le_right
  have hmask : rightsMask = 6 := rfl
  omega

/-- After a successful mapping the rights are what its flags and the directory entry
have in common. -/
theorem rights_of_map (h : Mapped v) (hfresh : FreshTable v virt) (hin : InPlace v virt)
    (hf : flags.toNat &&& rightsMask = flags.toNat) (hok : (placedTable v virt flags).1 ≠ 0) :
    ∃ w, vmmMap v virt phys flags = some w ∧
      rights w virt = some (dirEntry (placedTable v virt flags).2 (pdiOf virt) &&& flags.toNat) := by
  have hlt := rights_lt hf
  refine ⟨_, map_placed h hfresh hlt hin, ?_⟩
  obtain ⟨hp, htable, -⟩ := placed_table_entry hfresh hlt hok
  have hpage : (phys.toNat &&& pageMask) % 4096 = 0 := by
    rw [and_page_mask]
    omega
  obtain ⟨he, hlow, hodd⟩ := entry_eq hpage hlt
  have hpte : (phys.toNat &&& pageMask ||| flags.toNat ||| pagePresent) &&& pagePresent ≠ 0 := by
    rw [he, present_iff]
    omega
  have hdir := set_entry_dir h hfresh hlt (phys.toNat &&& pageMask ||| flags.toNat ||| pagePresent) (pdi_lt virt)
  have hword : (setEntry v virt flags (phys.toNat &&& pageMask ||| flags.toNat ||| pagePresent)).mem
      ((placedTable v virt flags).1 / 4 + ptiOf virt) = phys.toNat &&& pageMask ||| flags.toNat ||| pagePresent := by
    rw [set_entry_table hok]
    exact Function.update_self ..
  have hwalk : walk (setEntry v virt flags (phys.toNat &&& pageMask ||| flags.toNat ||| pagePresent)) virt =
      some (dirEntry (placedTable v virt flags).2 (pdiOf virt),
        phys.toNat &&& pageMask ||| flags.toNat ||| pagePresent) := by
    unfold walk
    rw [show virt.toNat >>> 22 = pdiOf virt from rfl,
      show (virt.toNat >>> 12) &&& 0x3FF = ptiOf virt from rfl]
    simp only [hdir, hp, ↓reduceIte, htable, hword, hpte]
  rw [rights, hwalk, Option.map_some, Nat.and_assoc, entry_rights hpage hf]

/-- In every state that calls in place lead to: a mapping in place that succeeds grants exactly
the rights asked for if and only if the directory entry was not there yet or includes them. -/
theorem rights_exact_iff (h₀ : Ready v₀) (hinit : vmmInit v₀ = some v₁) {trace : List (VmmOp × Unit)}
    (h : Steps (Taken Alone) v₁ trace v) (hin : InPlace v virt) (hf : flags.toNat &&& rightsMask = flags.toNat)
    (hok : tableOf v virt ≠ 0) : ∃ w, vmmMap v virt phys flags = some w ∧
      (rights w virt = some flags.toNat ↔ dirEntry v (pdiOf virt) &&& pagePresent = 0 ∨
        flags.toNat &&& dirEntry v (pdiOf virt) = flags.toNat) := by
  have hv := reachable_backed h₀ hinit h
  have hfresh := hv.fresh virt
  rw [← placed_table_fst v virt flags] at hok
  obtain ⟨w, hrun, hrights⟩ := rights_of_map hv.mapped hfresh hin hf hok
  refine ⟨w, hrun, ?_⟩
  rw [hrights, Option.some.injEq]
  obtain ⟨-, -, ⟨hp, hsame⟩ | ⟨hp, a, ha, hentries⟩⟩ := placed_table_entry hfresh (rights_lt hf) hok
  · rw [hsame, or_iff_right hp, Nat.and_comm]
  · rw [hentries _ (pdi_lt virt), if_pos rfl]
    refine iff_of_true ?_ (Or.inl hp)
    rw [entry_and ha hf hf, Nat.and_self]

theorem kernel_entry (h : KernelMapped v) : dirEntry v (pdiOf 0x1000) % 8 = 3 :=
  h.filled.entry (by decide) (by decide)

theorem kernel_table (h : KernelMapped v) (hpdi : pdiOf virt = 0) : tableOf v virt ≠ 0 := by
  rw [table_of_dir (hpdi ▸ h.first)]
  decide

theorem two_and (x : Nat) : 2 &&& x = x / 2 % 2 * 2 := (Nat.and_comm 2 x).trans (and_field x 1 1)

/-- A writable page in the first 8 MB gets its rights. -/
theorem rights_exact_iff_kernel :
    ∃ v₁ w, vmmInit twoTables = some v₁ ∧ vmmMap v₁ 0x1000 0x5000 2 = some w ∧ rights w 0x1000 = some 2 := by
  obtain ⟨v₁, hinit, hv₁⟩ := two_tables_started
  obtain ⟨w, hrun, hiff⟩ := @rights_exact_iff v₁ twoTables v₁ 0x1000 0x5000 2 two_tables_ready hinit [] (.nil _)
    (hv₁.in_place (by decide)) (by decide) (kernel_table hv₁ (by decide))
  refine ⟨v₁, w, hinit, hrun, hiff.mpr (Or.inr ?_)⟩
  have hentry := kernel_entry hv₁
  generalize dirEntry v₁ (pdiOf 0x1000) = pde at hentry ⊢
  have hbit : pde / 2 % 2 * 2 = 2 := by omega
  exact (two_and pde).trans hbit

/-- Where the directory entry is writable but not for users, a user page is not either. -/
theorem rights_without_user (h : Mapped v) (hfresh : FreshTable v virt) (hin : InPlace v virt)
    (hok : tableOf v virt ≠ 0) (hentry : dirEntry v (pdiOf virt) % 8 = 3) :
    ∃ w, vmmMap v virt phys 6 = some w ∧ rights w virt = some 2 := by
  have hmask : ∀ x, x &&& 6 = x / 2 % 4 * 2 := fun x => and_field x 2 1
  rw [← placed_table_fst v virt 6] at hok
  obtain ⟨w, hrun, hrights⟩ := @rights_of_map v virt phys 6 h hfresh hin (by decide) hok
  refine ⟨w, hrun, ?_⟩
  rw [hrights]
  obtain ⟨-, -, ⟨-, hsame⟩ | ⟨hp, -⟩⟩ := placed_table_entry hfresh (by decide) hok
  · rw [hsame]
    refine congrArg some ((hmask _).trans ?_)
    omega
  · have hodd := (not_congr (present_iff _)).mp (not_not.mpr hp)
    omega

/-- A user page in the first 8 MB is mapped, but no user access is granted. -/
theorem user_page_in_kernel_region :
    ∃ v₁ w, vmmInit twoTables = some v₁ ∧ tableOf v₁ 0x1000 ≠ 0 ∧ vmmMap v₁ 0x1000 0x5000 6 = some w ∧
      rights w 0x1000 = some 2 := by
  obtain ⟨v₁, hinit, hv₁⟩ := two_tables_started
  have hb := hv₁.filled.backed
  obtain ⟨w, hrun, hrights⟩ := @rights_without_user v₁ 0x1000 0x5000 hb.mapped (hb.fresh 0x1000)
    (hv₁.in_place (by decide)) (kernel_table hv₁ (by decide)) (kernel_entry hv₁)
  exact ⟨v₁, w, hinit, kernel_table hv₁ (by decide), hrun, hrights⟩

end BaSic.Proofs.VmmRights
