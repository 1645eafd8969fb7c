import BaSic.Proofs.FatChains
import BaSic.Kernel.Fat12Files

namespace BaSic.Proofs.FatBounds
open Kernel Lib FatTable FatChains

variable {α β : Type} {f : FatCache} {g : Geometry} {a x c count : Nat} {l : List Nat}

/-- No index is outside its array. -/
def InBounds (r : Except Fault α) : Prop := ∀ i, r ≠ .error (.outOfBounds i)

theorem in_bounds_ok (r : α) : InBounds (.ok r) := fun i h => by cases h

theorem in_bounds_of_ok {r : Except Fault α} {v : α} (h : r = .ok v) : InBounds r := h ▸ in_bounds_ok v

theorem not_in_bounds {r : Except Fault α} (h : ∃ i, r = .error (.outOfBounds i)) : ¬ InBounds r := by
  obtain ⟨i, hi⟩ := h
  exact fun hr => hr i hi

theorem in_bounds_bind {r : Except Fault α} {k : α → Except Fault β} :
    InBounds (r >>= k) ↔ InBounds r ∧ ∀ v, r = .ok v → InBounds (k v) := by
  cases r with
  | error e =>
    refine ⟨fun h => ⟨fun i hi => h i (by rw [Except.error.inj hi]; rfl), fun v hv => by cases hv⟩, fun h i hi => ?_⟩
    exact h.1 i (by rw [Except.error.inj hi])
  | ok v =>
    refine ⟨fun h => ⟨in_bounds_ok v, fun w hw => ?_⟩, fun h => h.2 v rfl⟩
    rw [← Except.ok.inj hw]
    exact h

/-- All clusters met from the first one on have their entries in `fat_data`. -/
def Inside (f : FatCache) (first : Nat) : Prop := ∀ x, Reach (fatEntry f.data) InChain first x → x ≤ lastCluster

theorem Inside.next (h : Inside f a) (ha : InChain a) : Inside f (fatEntry f.data a) :=
  fun x hx => h x (hx.tail ha)

/-- A chain that leads out of `fat_data` is followed there. -/
theorem free_chain_out (fuel : Nat) (hfuel : entriesUsed (fatEntry f.data) < fuel)
    (hx : Reach (fatEntry f.data) InChain a x) (hout : lastCluster < x) :
    ∃ i, freeChainFrom fuel f a = .error (.outOfBounds i) := by
  induction fuel generalizing f a with
  | zero => exact absurd hfuel (Nat.not_lt_zero _)
  | succ fuel ih =>
    have hin := hx.start_live
    rw [freeChainFrom, if_pos hin]
    by_cases hle : a ≤ lastCluster
    · obtain ⟨f₁, hset, -, hentry⟩ := fat12_set_eq (f := f) hle 0
      rw [Nat.zero_mod] at hentry
      have hother : ∀ y, y ≠ a → fatEntry f₁.data y = fatEntry f.data y := by
        intro y hy
        rw [hentry, Function.update_of_ne hy]
      rw [fat12_get_eq hle, ok_bind, hset, ok_bind]
      rcases hx.head_cut hother with rfl | hrest
      · omega
      · have hne : fatEntry f.data a ≠ 0 := by
          intro h0
          have hlive := hrest.start_live
          rw [h0] at hlive
          omega
        have hused := entries_used_update hle hne
        rw [← hentry] at hused
        exact ih (by omega) hrest
    · obtain ⟨i, hi⟩ := fat12_get_out (f := f) (Nat.lt_of_not_le hle)
      rw [hi]
      exact ⟨i, rfl⟩

theorem free_chain_in_bounds : InBounds (freeChain f a) ↔ Inside f a := by
  constructor
  · intro h x hx
    by_contra hout
    have hused := entries_used_le (fatEntry f.data)
    have hfuel : chainFuel = 4096 := rfl
    exact not_in_bounds (free_chain_out chainFuel (by omega) hx (Nat.lt_of_not_le hout)) h
  · intro h
    obtain ⟨f', hrun, -⟩ := free_chain_reached h
    rw [hrun]
    exact in_bounds_ok f'

theorem built_inside (h : Built (fatEntry f.data) l) (hne : l ≠ []) : Inside f (l.headD 0) :=
  fun x hx => h.upper x (((h.path hne).reach_iff h.in_chain (by decide)).mp hx)

/-- The clusters with an entry in `fat_data` that are free. -/
def innerFree (next : Nat → Nat) : List Nat := freeList next 2 (lastCluster - 1)

/-- The allocator stops at the first free cluster. -/
theorem alloc_from_first {k : Nat} (hk : c + k ≤ lastCluster + 1) (hle : k ≤ count)
    (hfree : freeList (fatEntry f.data) c k ≠ []) :
    allocFrom f count c = .ok ((freeList (fatEntry f.data) c k).headD 0) := by
  induction k generalizing c count with
  | zero => exact absurd rfl hfree
  | succ k ih =>
    obtain ⟨count, rfl⟩ := Nat.exists_eq_add_of_le' (show 1 ≤ count by omega)
    rw [allocFrom, fat12_get_eq (by omega), ok_bind]
    unfold freeList at hfree ⊢
    rw [List.range'_succ] at hfree ⊢
    by_cases hz : fatEntry f.data c = 0
    · rw [if_pos hz, List.filter_cons_of_pos (by simpa using hz)]
      rfl
    · rw [List.filter_cons_of_neg (by simpa using hz)] at hfree ⊢
      rw [if_neg hz]
      exact ih (by omega) (by omega) hfree

/-- Where none is free it tries the cluster after the last one. -/
theorem alloc_from_out {k : Nat} (hk : c + k = lastCluster + 1) (hlt : k < count)
    (hfree : freeList (fatEntry f.data) c k = []) : ∃ i, allocFrom f count c = .error (.outOfBounds i) := by
  induction k generalizing c count with
  | zero =>
    obtain ⟨count, rfl⟩ := Nat.exists_eq_add_of_le' (show 1 ≤ count by omega)
    obtain ⟨i, hi⟩ := fat12_get_out (f := f) (show lastCluster < c by omega)
    rw [allocFrom, hi]
    exact ⟨i, rfl⟩
  | succ k ih =>
    obtain ⟨count, rfl⟩ := Nat.exists_eq_add_of_le' (show 1 ≤ count by omega)
    rw [allocFrom, fat12_get_eq (by omega), ok_bind]
    unfold freeList at hfree
    rw [List.range'_succ] at hfree
    by_cases hz : fatEntry f.data c = 0
    · rw [List.filter_cons_of_pos (by simpa using hz)] at hfree
      cases hfree
    · rw [List.filter_cons_of_neg (by simpa using hz)] at hfree
      rw [if_neg hz]
      exact ih (by omega) (by omega) hfree

/-- On a volume with more clusters than `fat_data` has entries, a round of the allocation loop
takes a free cluster inside, if there is one. -/
theorem alloc_chain_takes (hlimit : lastCluster + 1 < clusterLimit g) (h : Built (fatEntry f.data) l)
    (hsome : innerFree (fatEntry f.data) ≠ []) (count : Nat) : ∃ c f', allocChain g (count + 1) f (l.headD 0)
      (l.getLastD 0) = allocChain g count f' ((l ++ [c]).headD 0) ((l ++ [c]).getLastD 0) ∧
      Built (fatEntry f'.data) (l ++ [c]) ∧
        (innerFree (fatEntry f.data)).length = (innerFree (fatEntry f'.data)).length + 1 := by
  have hlast : lastCluster = 681 := rfl
  have halloc : fat12AllocCluster g f = .ok ((innerFree (fatEntry f.data)).headD 0) :=
    alloc_from_first (by omega) (by omega) hsome
  rcases alloc_chain_succ (by omega) halloc h count with ⟨hnil, -⟩ | ⟨c, rest, f', hfree, hstep, -, hb, hrest, -⟩
  · exact absurd hnil hsome
  · refine ⟨c, f', hstep, hb, ?_⟩
    rw [innerFree, hfree, innerFree, hrest]
    rfl

/-- The loop stays inside as long as there are free clusters inside. -/
theorem alloc_chain_room (hlimit : lastCluster + 1 < clusterLimit g) (h : Built (fatEntry f.data) l)
    (hroom : count ≤ (innerFree (fatEntry f.data)).length) :
    ∃ m f', allocChain g count f (l.headD 0) (l.getLastD 0) = .ok (some (m.headD 0), f') ∧
      Built (fatEntry f'.data) m ∧ m.length = l.length + count := by
  induction count generalizing f l with
  | zero => exact ⟨l, f, rfl, h, rfl⟩
  | succ count ih =>
    have hsome : innerFree (fatEntry f.data) ≠ [] := List.ne_nil_of_length_pos (by omega)
    obtain ⟨c, f₁, hstep, hb, hlen⟩ := alloc_chain_takes hlimit h hsome count
    obtain ⟨m, f', hrun, hbm, hm⟩ := ih hb (by omega)
    refine ⟨m, f', hstep.trans hrun, hbm, ?_⟩
    rw [hm, List.length_append]
    exact Nat.add_right_comm l.length 1 count

theorem alloc_chain_out (hlimit : lastCluster + 1 < clusterLimit g) (h : Built (fatEntry f.data) l)
    (hroom : (innerFree (fatEntry f.data)).length < count) :
    ∃ i, allocChain g count f (l.headD 0) (l.getLastD 0) = .error (.outOfBounds i) := by
  have hlast : lastCluster = 681 := rfl
  induction count generalizing f l with
  | zero => exact absurd hroom (Nat.not_lt_zero _)
  | succ count ih =>
    by_cases hsome : innerFree (fatEntry f.data) = []
    · have hmore : lastCluster - 1 < clusterLimit g - 2 := by omega
      obtain ⟨i, hi⟩ := alloc_from_out (by omega) hmore hsome
      rw [allocChain, fat12AllocCluster, hi]
      exact ⟨i, rfl⟩
    · obtain ⟨c, f₁, hstep, hb, hlen⟩ := alloc_chain_takes hlimit h hsome count
      obtain ⟨i, hi⟩ := ih hb (by omega)
      exact ⟨i, hstep.trans hi⟩

/-- There are entries for all clusters of the volume, or for as many free ones as are needed. -/
def HasRoom (g : Geometry) (f : FatCache) (count : Nat) : Prop :=
  clusterLimit g ≤ lastCluster + 1 ∨ count ≤ (innerFree (fatEntry f.data)).length

/-- The two ways the allocation loop can end within bounds. -/
theorem alloc_chain_cases (hcount : 0 < count) (hroom : HasRoom g f count) :
    (∃ f', allocChain g count f 0 0 = .ok (none, f')) ∨
      ∃ first f', allocChain g count f 0 0 = .ok (some first, f') ∧ Inside f' first := by
  by_cases hlimit : clusterLimit g ≤ lastCluster + 1
  · rcases alloc_chain_eq hlimit hcount f with ⟨-, f', hrun, -⟩ | ⟨hle, m, f', hm, hrun, -, hb, -⟩
    · exact Or.inl ⟨f', hrun⟩
    · have hne : m ≠ [] := by
        refine List.ne_nil_of_length_pos ?_
        rw [hm, List.length_take]
        omega
      exact Or.inr ⟨m.headD 0, f', hrun, built_inside hb hne⟩
  · obtain ⟨m, f', hrun, hb, hm⟩ := alloc_chain_room (Nat.lt_of_not_le hlimit)
      (built_nil (fatEntry f.data)) (hroom.resolve_left hlimit)
    have hne : m ≠ [] := by
      refine List.ne_nil_of_length_pos ?_
      rw [hm]
      exact Nat.lt_add_left _ hcount
    exact Or.inr ⟨m.headD 0, f', hrun, built_inside hb hne⟩

theorem alloc_chain_no_room (hroom : ¬ HasRoom g f count) : ¬ InBounds (allocChain g count f 0 0) := by
  unfold HasRoom at hroom
  rw [not_or, Nat.not_le, Nat.not_le] at hroom
  exact not_in_bounds (alloc_chain_out hroom.1 (built_nil (fatEntry f.data)) hroom.2)

end BaSic.Proofs.FatBounds
