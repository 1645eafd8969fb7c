import BaSic.Proofs.FileOps

namespace BaSic.Proofs.FatInvariant
open Kernel Lib FatTable FatChains Directory FileData Volume FileOps

/-- A directory slot that holds neither a free nor a deleted entry. -/
def Used (e : Entry) : Prop := e 0 ≠ 0x00 ∧ e 0 ≠ 0xE5

instance (e : Entry) : Decidable (Used e) := inferInstanceAs (Decidable (_ ∧ _))

/-- A slot the lookups of the driver can hit: in use, and no volume label. -/
def Live (g : Geometry) (slots : Nat → Entry) (k : Nat) : Prop :=
  k < g.rootEntryCount.toNat ∧ Used (slots k) ∧ slots k 11 &&& 0x08 = 0

def DataCluster (g : Geometry) (c : Nat) : Prop := 2 ≤ c ∧ c ≤ g.totalClusters + 1

def EndMark (e : Nat) : Prop := 0xFF8 ≤ e

instance (g : Geometry) (slots : Nat → Entry) (k : Nat) : Decidable (Live g slots k) :=
  inferInstanceAs (Decidable (_ ∧ _ ∧ _))

/-- The chains that start at the entries of the root directory are acyclic, end
in an end mark and share no cluster; outside of them only `leaked` clusters are taken. -/
def Chains (g : Geometry) (next : Nat → Nat) (slots : Nat → Entry) (chain : Nat → List Nat)
    (leaked : Nat → Prop) : Prop :=
  ChainSystem 0 (DataCluster g) EndMark leaked next (Live g slots) (fun k => firstCluster (slots k)) chain

/-- A mounted volume in order: `chain k` lists the clusters of the file in slot `k`. -/
structure WellFormed (s : Fat12) (image : Nat → Sector) (chain : Nat → List Nat) (leaked : Nat → Prop) :
    Prop where
  mounted : Mounted s image
  fits : FatFits s.geo
  chains : Chains s.geo (fatEntry s.fat.data) (slotAt s.geo image) chain leaked

/-- The driver has a volume in order mounted. -/
def Usable (s : Fat12) : Prop := ∃ chain leaked, WellFormed s s.disk.ata.sectors chain leaked

variable {s s' : Fat12} {image image' : Nat → Sector} {chain : Nat → List Nat} {g : Geometry}
  {next : Nat → Nat} {slots slots' : Nat → Entry} {name : CString} {k : Nat} {leaked : Nat → Prop}

theorem WellFormed.usable (h : WellFormed s image chain leaked) : Usable s := by
  refine ⟨chain, leaked, ?_⟩
  rw [h.mounted.shows.sectors]
  exact h

theorem find_verdict_hit {e : Entry} : findVerdict name e = .hit ↔
    Used e ∧ e 11 &&& 0x08 = 0 ∧ namesMatch (entryName e) name = true := by
  unfold findVerdict Used
  split
  · simp [*]
  · split
    · rename_i h
      simp only [reduceCtorEq, false_iff]
      rintro ⟨⟨_, hne⟩, ha, _⟩
      exact h.elim hne (fun h => h ha)
    · rename_i h0 h
      rw [not_or, not_not] at h
      split <;> simp [*]

theorem find_verdict_next {e : Entry} : findVerdict name e = .next ↔
    e 0 ≠ 0x00 ∧ ¬ (Used e ∧ e 11 &&& 0x08 = 0 ∧ namesMatch (entryName e) name = true) := by
  rw [← find_verdict_hit]
  unfold findVerdict
  split
  · simp [*]
  · split
    · simp [*]
    · split <;> simp [*]

theorem alloc_verdict_eq {e : Entry} : allocVerdict e = if Used e then .next else .hit := by
  unfold allocVerdict
  by_cases h : Used e
  · rw [if_pos h, if_neg (not_or.mpr h)]
  · rw [if_neg h, if_pos (by_contra (fun hu => h (not_or.mp hu)))]

theorem alloc_verdict_hit {e : Entry} : allocVerdict e = .hit ↔ ¬ Used e := by
  rw [alloc_verdict_eq, ite_eq_right_iff]
  exact imp_congr_right (fun _ => iff_of_false Verdict.noConfusion id)

theorem alloc_verdict_next {e : Entry} : allocVerdict e = .next ↔ Used e := by
  rw [alloc_verdict_eq, ite_eq_left_iff]
  exact ⟨fun h => by_contra (fun hu => Verdict.noConfusion (h hu)), fun h hu => absurd h hu⟩

theorem lookup_live (h : lookup g image name = some k) : Live g (slotAt g image) k := by
  obtain ⟨⟨_, hk⟩, hv, _⟩ := first_hit_some.mp h
  obtain ⟨hu, hl, _⟩ := find_verdict_hit.mp hv
  exact ⟨by omega, hu, hl⟩

theorem free_slot_spec (h : freeSlot g image = some k) :
    k < g.rootEntryCount.toNat ∧ ¬ Used (slotAt g image k) ∧ ∀ i, i < k → Used (slotAt g image i) := by
  obtain ⟨⟨_, hk⟩, hv, hbefore⟩ := first_hit_some.mp h
  exact ⟨by omega, alloc_verdict_hit.mp hv,
    fun i hi => alloc_verdict_next.mp (hbefore i (Nat.zero_le _) hi)⟩

theorem in_chain_of_data (hg : FatFits g) {c : Nat} (h : DataCluster g c) : InChain c ∧ c ≤ lastCluster := by
  have ht := hg.total_le
  have hl : lastCluster = 681 := rfl
  obtain ⟨h0, h1⟩ := h
  exact ⟨⟨h0, by omega⟩, by omega⟩

theorem find_verdict_stop {e : Entry} : findVerdict name e = .stop ↔ e 0 = 0x00 := by
  unfold findVerdict
  split
  · simp [*]
  · split
    · simp [*]
    · split <;> simp [*]

theorem lookup_match (h : lookup g image name = some k) :
    namesMatch (entryName (slotAt g image k)) name = true :=
  (find_verdict_hit.mp (first_hit_some.mp h).2.1).2.2

/-- A lookup depends on the slots alone. -/
theorem lookup_congr (h : ∀ k, k < g.rootEntryCount.toNat → slotAt g image' k = slotAt g image k) :
    lookup g image' name = lookup g image name :=
  first_hit_congr (fun k _ hk => congrArg _ (h k (by omega)))

/-- The chain of a file, as the loops of the driver walk it. -/
structure FileAt (next : Nat → Nat) (e : Entry) (l : List Nat) : Prop where
  path : ∃ last, Path next (firstCluster e) l last ∧ ¬ InChain last
  inChain : ∀ c ∈ l, InChain c
  upper : ∀ c ∈ l, c ≤ lastCluster
  nodup : l.Nodup

theorem Chains.file_at (h : Chains g next slots chain leaked) (hg : FatFits g) (hk : Live g slots k) :
    FileAt next (slots k) (chain k) := by
  refine ⟨?_, fun c hc => (in_chain_of_data hg (h.nodes k hk c hc)).1,
    fun c hc => (in_chain_of_data hg (h.nodes k hk c hc)).2, h.nodup k hk⟩
  obtain ⟨e, hp, he⟩ := h.linked k hk
  refine ⟨e, hp, fun hin => ?_⟩
  rcases he with he | he
  · unfold EndMark at he
    omega
  · omega

/-- Whether a slot is live depends on its entry alone. -/
theorem live_congr (h : k < g.rootEntryCount.toNat → slots' k = slots k) :
    Live g slots' k ↔ Live g slots k := by
  unfold Live
  refine and_congr_right (fun hk => ?_)
  rw [h hk]

theorem used_dropped (e : Entry) : ¬ Used (dropped e) := by
  unfold Used dropped
  rw [Function.update_self]
  decide

/-- Deleting the file in slot `k`. -/
theorem Chains.drop (h : Chains g next slots chain leaked) (hk : Live g slots k)
    (hs : ∀ j, j < g.rootEntryCount.toNat → slots' j = if j = k then dropped (slots k) else slots j) :
    Chains g (clear 0 (chain k) next) slots' chain leaked := by
  have hother : ∀ j, j ≠ k → j < g.rootEntryCount.toNat → slots' j = slots j := by
    intro j hjk hj
    rw [hs j hj, if_neg hjk]
  have hlive : ∀ j, Live g slots' j ↔ j ≠ k ∧ Live g slots j := by
    intro j
    by_cases hjk : j = k
    · simp only [hjk, ne_eq, not_true_eq_false, false_and, iff_false]
      rintro ⟨hj, hu, _⟩
      rw [hs k hj, if_pos rfl] at hu
      exact used_dropped _ hu
    · rw [live_congr (hother j hjk)]
      exact (and_iff_right hjk).symm
  have hrel : ChainSystem 0 (DataCluster g) EndMark leaked (clear 0 (chain k) next)
      (fun j => j ≠ k ∧ Live g slots j) (fun j => firstCluster (slots j)) chain :=
    ChainSystem.release h hk (fun _ => Iff.rfl) (fun _ _ => rfl)
  refine hrel.congr hlive (fun j hj => ?_)
  rw [hother j hj.1 hj.2.1]

/-- Storing a file with the chain `m` in the free slot `k`. -/
theorem Chains.add {next' : Nat → Nat} {m : List Nat} {e : Entry} (h : Chains g next slots chain leaked)
    (hk : k < g.rootEntryCount.toNat) (hfree : ¬ Used (slots k))
    (hs : ∀ j, j < g.rootEntryCount.toNat → slots' j = if j = k then e else slots j)
    (hu : Used e) (hp : e 11 &&& 0x08 = 0) (hf : firstCluster e = m.headD 0)
    (hm : ∀ c ∈ m, DataCluster g c ∧ next c = 0) (hb : Built next' m) (hne : m ≠ [])
    (hsame : ∀ c, c ∉ m → next' c = next c) :
    Chains g next' slots' (Function.update chain k m) leaked := by
  have hself : slots' k = e := by
    rw [hs k hk, if_pos rfl]
  have hother : ∀ j, j ≠ k → j < g.rootEntryCount.toNat → slots' j = slots j := by
    intro j hjk hj
    rw [hs j hj, if_neg hjk]
  have hlive : ∀ j, Live g slots' j ↔ j = k ∨ Live g slots j := by
    intro j
    by_cases hjk : j = k
    · subst hjk
      simp only [true_or, iff_true]
      refine ⟨hk, ?_⟩
      rw [hself]
      exact ⟨hu, hp⟩
    · rw [live_congr (hother j hjk)]
      exact (or_iff_right hjk).symm
  have hatt : ChainSystem 0 (DataCluster g) EndMark leaked next' (fun j => j = k ∨ Live g slots j)
      (fun j => if j = k then m.headD 0 else firstCluster (slots j)) (Function.update chain k m) :=
    ChainSystem.attach h (fun hx => hfree hx.2.1) (fun _ => Iff.rfl) (fun j hj => if_neg hj) hm hb.nodup
      ⟨0xFFF, by rw [if_pos rfl]; exact hb.path hne, Or.inl (by unfold EndMark; omega)⟩
      (fun x hx => hb.next_ne hx) hsame
  refine hatt.congr hlive (fun j hj => ?_)
  by_cases hjk : j = k
  · rw [if_pos hjk, hjk, hself, hf]
  · rw [if_neg hjk, hother j hjk (hj.resolve_left hjk).1]

/-- Nothing the invariant looks at has changed. -/
theorem WellFormed.same (h : WellFormed s image chain leaked) (hg : s'.geo = s.geo) (hm : Mounted s' image')
    (hf : s'.fat.data = s.fat.data)
    (hs : ∀ k, k < s.geo.rootEntryCount.toNat → slotAt s.geo image' k = slotAt s.geo image k) :
    WellFormed s' image' chain leaked := by
  refine ⟨hm, by rw [hg]; exact h.fits, ?_⟩
  rw [hg, hf]
  exact ChainSystem.congr h.chains (fun j => live_congr (hs j)) (fun j hj => by rw [hs j hj.1])

end BaSic.Proofs.FatInvariant
