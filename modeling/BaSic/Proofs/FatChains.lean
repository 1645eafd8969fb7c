import BaSic.Proofs.FatTable
import BaSic.Lib.ChainSystem

namespace BaSic.Proofs.FatChains
open Kernel Lib FatTable

variable {f : FatCache} {a e : Nat} {l : List Nat} {next next' : Nat → Nat}

/-- How many entries of the table are in use; freeing a chain counts this down. -/
def entriesUsed (next : Nat → Nat) : Nat :=
  ((Finset.range (lastCluster + 1)).filter (fun c => next c ≠ 0)).card

theorem entries_used_le (next : Nat → Nat) : entriesUsed next ≤ 682 := by
  have h := Finset.card_filter_le (Finset.range (lastCluster + 1)) (fun c => next c ≠ 0)
  rw [Finset.card_range] at h
  exact h

theorem entries_used_update {c : Nat} (hc : c ≤ lastCluster) (hn : next c ≠ 0) :
    entriesUsed (Function.update next c 0) < entriesUsed next := by
  apply Finset.card_lt_card
  rw [Finset.ssubset_iff_of_subset]
  · refine ⟨c, ?_, ?_⟩
    · exact Finset.mem_filter.mpr ⟨Finset.mem_range.mpr (by omega), hn⟩
    · simp
  · intro x hx
    obtain ⟨hr, hne⟩ := Finset.mem_filter.mp hx
    refine Finset.mem_filter.mpr ⟨hr, ?_⟩
    rw [Function.update_apply] at hne
    split at hne
    · exact absurd rfl hne
    · exact hne

/-- Freeing a chain zeroes exactly the entries met on it, cyclic chains included. -/
theorem free_chain_from_eq (fuel : Nat) (hr : ∀ x, Reach (fatEntry f.data) InChain a x → x ≤ lastCluster)
    (hfuel : InChain a → entriesUsed (fatEntry f.data) < fuel) :
    ∃ f', freeChainFrom fuel f a = .ok f' ∧ (InChain a → f'.dirty = true) ∧ (¬ InChain a → f' = f) ∧
      ∀ x, (Reach (fatEntry f.data) InChain a x → fatEntry f'.data x = 0) ∧
        (¬ Reach (fatEntry f.data) InChain a x → fatEntry f'.data x = fatEntry f.data x) := by
  by_cases hin : InChain a
  · induction fuel generalizing f a with
    | zero => exact absurd (hfuel hin) (Nat.not_lt_zero _)
    | succ fuel ih =>
      have hle := hr a (.start hin)
      have hget := fat12_get_eq (f := f) hle
      obtain ⟨f₁, hset, hdirty, hentry⟩ := fat12_set_eq (f := f) hle 0
      rw [Nat.zero_mod] at hentry
      have hother : ∀ y, y ≠ a → fatEntry f₁.data y = fatEntry f.data y := by
        intro y hy
        rw [hentry, Function.update_of_ne hy]
      have hcut : ∀ y, InChain (fatEntry f₁.data y) → fatEntry f₁.data y = fatEntry f.data y := by
        intro y hy
        refine hother y (fun hya => ?_)
        rw [hya, hentry, Function.update_self] at hy
        omega
      have hstep : freeChainFrom (fuel + 1) f a = freeChainFrom fuel f₁ (fatEntry f.data a) := by
        rw [freeChainFrom, if_pos hin]
        simp only [hget, hset, bind, Except.bind]
      -- the entries met from `a` are `a` and those met from its successor
      have hreach : ∀ y, Reach (fatEntry f.data) InChain a y ↔
          y = a ∨ Reach (fatEntry f₁.data) InChain (fatEntry f.data a) y := by
        intro y
        constructor
        · exact fun h => h.head_cut hother
        · intro h
          rcases h with rfl | h
          · exact .start hin
          · exact (h.of_cut hcut).tail hin
      have hsplit : ∃ f', freeChainFrom fuel f₁ (fatEntry f.data a) = .ok f' ∧ f'.dirty = true ∧
          ∀ x, (Reach (fatEntry f₁.data) InChain (fatEntry f.data a) x → fatEntry f'.data x = 0) ∧
            (¬ Reach (fatEntry f₁.data) InChain (fatEntry f.data a) x →
              fatEntry f'.data x = fatEntry f₁.data x) := by
        by_cases hnext : InChain (fatEntry f.data a)
        · have hne : fatEntry f.data a ≠ 0 := by omega
          have hlt := entries_used_update hle hne
          rw [← hentry] at hlt
          have hused := hfuel hin
          obtain ⟨f', hrun, hd, -, hx⟩ := ih (f := f₁) (a := fatEntry f.data a)
            (fun y hy => hr y ((hreach y).mpr (Or.inr hy))) (fun _ => by omega) hnext
          exact ⟨f', hrun, hd hnext, hx⟩
        · refine ⟨f₁, ?_, hdirty, fun x => ⟨fun h => absurd h.start_live hnext, fun _ => rfl⟩⟩
          unfold freeChainFrom
          exact if_neg hnext
      obtain ⟨f', hrun, hd, hx⟩ := hsplit
      refine ⟨f', hstep.trans hrun, fun _ => hd, fun h => absurd hin h, fun x => ⟨fun h => ?_, fun h => ?_⟩⟩
      · by_cases hy : Reach (fatEntry f₁.data) InChain (fatEntry f.data a) x
        · exact (hx x).1 hy
        · rcases (hreach x).mp h with rfl | h
          · rw [(hx x).2 hy, hentry, Function.update_self]
          · exact absurd h hy
      · rw [hreach, not_or] at h
        rw [(hx x).2 h.2, hother x h.1]
  · refine ⟨f, ?_, fun h => absurd h hin, fun _ => rfl, fun x => ⟨fun h => absurd h.start_live hin, fun _ => rfl⟩⟩
    unfold freeChainFrom
    exact if_neg hin

theorem free_chain_reached (hr : ∀ x, Reach (fatEntry f.data) InChain a x → x ≤ lastCluster) :
    ∃ f', freeChain f a = .ok f' ∧ (InChain a → f'.dirty = true) ∧ (¬ InChain a → f' = f) ∧
      ∀ x, (Reach (fatEntry f.data) InChain a x → fatEntry f'.data x = 0) ∧
        (¬ Reach (fatEntry f.data) InChain a x → fatEntry f'.data x = fatEntry f.data x) := by
  have hused := entries_used_le (fatEntry f.data)
  have hfuel : chainFuel = 4096 := rfl
  exact free_chain_from_eq chainFuel hr (fun _ => by omega)

/-- Freeing a chain of any shape ends, with exactly the entries cleared that are met on a walk
over the table as it was. -/
theorem free_chain_clears (hr : ∀ x, Reach (fatEntry f.data) InChain a x → x ≤ lastCluster) :
    ∃ l e f', Walk (fatEntry f.data) InChain a l e ∧ freeChain f a = .ok f' ∧
      fatEntry f'.data = clear 0 l (fatEntry f.data) := by
  obtain ⟨f', hrun, -, -, hx⟩ := free_chain_reached hr
  obtain ⟨l, e, hwalk⟩ := exists_walk (Finset.range (lastCluster + 1))
    (fun x h => Finset.mem_range.mpr (Nat.lt_succ_of_le (hr x h)))
  refine ⟨l, e, f', hwalk, hrun, ?_⟩
  funext x
  unfold clear
  split
  · exact (hx x).1 (hwalk.reach_iff.mpr ‹_›)
  · exact (hx x).2 (fun h => ‹x ∉ l› (hwalk.reach_iff.mp h))

/-- Cluster 2 leads to 3 and 3 back to 2. -/
def ringFat : FatCache := ⟨fun i => if i.val = 3 then 3 else if i.val = 4 then 0x20 else 0, false⟩

theorem ring_walk : Walk (fatEntry ringFat.data) InChain 2 [2, 3] 2 where
  path := ⟨rfl, by decide, path_nil.mpr (by decide)⟩
  alive := by decide
  nodup := by decide
  stop := Or.inr (by decide)

theorem free_chain_clears_ring : ∃ l e f', Walk (fatEntry ringFat.data) InChain 2 l e ∧ freeChain ringFat 2 = .ok f' ∧
    fatEntry f'.data = clear 0 l (fatEntry ringFat.data) :=
  free_chain_clears (fun x hx => by
    have hmem := ring_walk.reach_iff.mp hx
    have hle : ∀ y ∈ [2, 3], y ≤ lastCluster := by decide
    exact hle x hmem)

theorem head_in_chain (hp : Path (fatEntry f.data) a l e) (hl : ∀ x ∈ l, InChain x) (he : ¬ InChain e) :
    InChain a ↔ l ≠ [] := by
  cases l with
  | nil =>
    cases hp
    exact ⟨fun h => absurd h he, fun h => absurd rfl h⟩
  | cons x l =>
    obtain ⟨rfl, _⟩ := hp
    exact ⟨fun _ => List.cons_ne_nil _ _, fun _ => hl _ List.mem_cons_self⟩

/-- Freeing a chain that ends: the listed entries become 0. -/
theorem free_chain_path (hp : Path (fatEntry f.data) a l e) (hl : ∀ x ∈ l, InChain x)
    (hle : ∀ x ∈ l, x ≤ lastCluster) (he : ¬ InChain e) :
    ∃ f', freeChain f a = .ok f' ∧ (l ≠ [] → f'.dirty = true) ∧ (l = [] → f' = f) ∧
      fatEntry f'.data = clear 0 l (fatEntry f.data) := by
  have hreach : ∀ x, Reach (fatEntry f.data) InChain a x ↔ x ∈ l := fun x => hp.reach_iff hl he
  have hin := head_in_chain hp hl he
  obtain ⟨f', hrun, hd, hsame, hx⟩ := free_chain_reached (f := f) (a := a) (fun x h => hle x ((hreach x).mp h))
  refine ⟨f', hrun, fun h => hd (hin.mpr h), fun h => hsame (fun hi => hin.mp hi h), ?_⟩
  funext x
  unfold clear
  split
  · exact (hx x).1 ((hreach x).mpr ‹_›)
  · exact (hx x).2 (fun h => ‹x ∉ l› ((hreach x).mp h))

/-- The free clusters among the `count` from `c` on, in order. -/
def freeList (next : Nat → Nat) (c count : Nat) : List Nat :=
  (List.range' c count).filter (fun x => next x = 0)

/-- The clusters `fat12_alloc_cluster` can still hand out, first one first. -/
def freeClusters (next : Nat → Nat) (g : Geometry) : List Nat :=
  freeList next 2 (clusterLimit g - 2)

theorem mem_free_list {c count x : Nat} :
    x ∈ freeList next c count ↔ (c ≤ x ∧ x < c + count) ∧ next x = 0 := by
  simp [freeList, List.mem_range'_1]

theorem free_list_nodup (next : Nat → Nat) (c count : Nat) : (freeList next c count).Nodup :=
  List.Nodup.filter _ List.nodup_range'

/-- Taking the first free cluster leaves the rest. -/
theorem free_list_take {c count x : Nat} {rest : List Nat} (h : freeList next c count = x :: rest)
    (hn : ∀ y, next' y = 0 ↔ next y = 0 ∧ y ≠ x) : freeList next' c count = rest := by
  have hnd := free_list_nodup next c count
  rw [h] at hnd
  have hfilter : freeList next' c count = (freeList next c count).filter (fun y => y ≠ x) := by
    unfold freeList
    rw [List.filter_filter]
    refine List.filter_congr (fun y _ => ?_)
    rw [Bool.eq_iff_iff]
    simp only [decide_eq_true_eq, Bool.and_eq_true, hn]
    exact And.comm
  rw [hfilter, h, List.filter_cons_of_neg (by simp)]
  refine List.filter_eq_self.mpr (fun y hy => ?_)
  have hne : y ≠ x := by
    rintro rfl
    exact (List.nodup_cons.mp hnd).1 hy
  simpa using hne

theorem alloc_from_eq (count c : Nat) (h : c + count ≤ lastCluster + 1) :
    allocFrom f count c = .ok ((freeList (fatEntry f.data) c count).headD 0) := by
  induction count generalizing c with
  | zero => rfl
  | succ count ih =>
    rw [allocFrom, fat12_get_eq (by omega)]
    simp only [bind, Except.bind]
    unfold freeList
    rw [List.range'_succ]
    by_cases hz : fatEntry f.data c = 0
    · rw [if_pos hz, List.filter_cons_of_pos (by simpa using hz)]
      rfl
    · rw [if_neg hz, List.filter_cons_of_neg (by simpa using hz)]
      exact ih (c + 1) (by omega)

theorem alloc_cluster_eq {g : Geometry} (hg : clusterLimit g ≤ lastCluster + 1) :
    fat12AllocCluster g f = .ok ((freeClusters (fatEntry f.data) g).headD 0) := by
  refine alloc_from_eq _ _ ?_
  have hl : lastCluster = 681 := rfl
  omega

/-- `l` is a chain from its first cluster to the end mark 0xFFF. -/
structure Built (next : Nat → Nat) (l : List Nat) : Prop where
  nodup : l.Nodup
  lower : ∀ x ∈ l, 2 ≤ x
  upper : ∀ x ∈ l, x ≤ lastCluster
  path : l ≠ [] → Path next (l.headD 0) l 0xFFF

theorem built_nil (next : Nat → Nat) : Built next [] :=
  ⟨List.nodup_nil, fun _ h => absurd h List.not_mem_nil, fun _ h => absurd h List.not_mem_nil,
    fun h => absurd rfl h⟩

theorem Built.next_ne (h : Built next l) {x : Nat} (hx : x ∈ l) : next x ≠ 0 := by
  have hne := List.ne_nil_of_mem hx
  rcases (h.path hne).next_mem hx with hm | he
  · have hlow := h.lower _ hm
    omega
  · omega

theorem Built.in_chain (h : Built next l) : ∀ x ∈ l, InChain x := by
  intro x hx
  have hlow := h.lower x hx
  have hup := h.upper x hx
  have hl : lastCluster = 681 := rfl
  exact ⟨hlow, by omega⟩

theorem built_single (hc : 2 ≤ a) (hle : a ≤ lastCluster) (ha : next a = 0xFFF) : Built next [a] :=
  ⟨List.nodup_singleton a, by simpa using hc, by simpa using hle, fun _ => ⟨rfl, ha⟩⟩

/-- The tail end of the chain is relinked to a new last cluster. -/
theorem Built.snoc {prev c : Nat} (h : Built next (l ++ [prev])) (hc : 2 ≤ c)
    (hle : c ≤ lastCluster) (hfree : next c = 0)
    (hn : next' = Function.update (Function.update next c 0xFFF) prev c) :
    Built next' (l ++ [prev] ++ [c]) := by
  have hnew : c ∉ l ++ [prev] := fun hm => h.next_ne hm hfree
  have hlast : prev ∉ l := by
    intro hm
    have hnd := List.nodup_append.mp h.nodup
    exact hnd.2.2 prev hm prev (by simp) rfl
  have hne : prev ≠ c := by
    intro he
    exact hnew (by simp [he])
  refine ⟨?_, ?_, ?_, fun _ => ?_⟩
  · rw [List.nodup_append]
    refine ⟨h.nodup, List.nodup_singleton c, fun x hx y hy hxy => ?_⟩
    rw [List.mem_singleton.mp hy] at hxy
    exact hnew (hxy ▸ hx)
  · intro x hx
    rcases List.mem_append.mp hx with hx | hx
    · exact h.lower x hx
    · rw [List.mem_singleton.mp hx]
      exact hc
  · intro x hx
    rcases List.mem_append.mp hx with hx | hx
    · exact h.upper x hx
    · rw [List.mem_singleton.mp hx]
      exact hle
  · have hhead : (l ++ [prev] ++ [c]).headD 0 = (l ++ [prev]).headD 0 := by
      cases l <;> rfl
    obtain ⟨hp, _⟩ := path_snoc.mp (h.path (by simp))
    rw [hhead, path_snoc, path_snoc]
    refine ⟨⟨hp.congr (fun x hx => ?_), ?_⟩, ?_⟩
    · have hxp : x ≠ prev := fun he => hlast (he ▸ hx)
      have hxc : x ≠ c := fun he => hnew (by simp [← he, hx])
      rw [hn, Function.update_of_ne hxp, Function.update_of_ne hxc]
    · rw [hn, Function.update_self]
    · rw [hn, Function.update_of_ne hne.symm, Function.update_self]

/-- A chain that could be freed as it stands. -/
theorem Built.free (h : Built (fatEntry f.data) l) (hne : l ≠ []) :
    ∃ f', freeChain f (l.headD 0) = .ok f' ∧ f'.dirty = true ∧
      fatEntry f'.data = clear 0 l (fatEntry f.data) := by
  obtain ⟨f', hrun, hd, -, he⟩ := free_chain_path (h.path hne) h.in_chain h.upper (by decide)
  exact ⟨f', hrun, hd hne, he⟩

/-- With no cluster left the chain built so far is freed again. -/
theorem alloc_chain_full {g : Geometry} (halloc : fat12AllocCluster g f = .ok 0) (h : Built (fatEntry f.data) l)
    (count : Nat) : ∃ f', allocChain g (count + 1) f (l.headD 0) (l.getLastD 0) = .ok (none, f') ∧
      fatEntry f'.data = clear 0 l (fatEntry f.data) := by
  rw [allocChain, halloc, ok_bind, if_pos rfl]
  by_cases hl : l = []
  · subst hl
    exact ⟨f, rfl, (clear_nil _).symm⟩
  · obtain ⟨f', hrun, -, he⟩ := h.free hl
    have hhead : l.headD 0 ≠ 0 := by
      cases l with
      | nil => exact absurd rfl hl
      | cons x l =>
        have hx := h.lower x List.mem_cons_self
        rw [List.headD_cons]
        omega
    rw [if_pos hhead, hrun, ok_bind]
    exact ⟨f', rfl, he⟩

/-- An entry that is set is not free any more, and the others are as free as they were. -/
theorem zero_of_update {next : Nat → Nat} {c v : Nat} (hv : v ≠ 0) (y : Nat) :
    Function.update next c v y = 0 ↔ next y = 0 ∧ y ≠ c := by
  by_cases hy : y = c
  · simp [hy, hv]
  · simp [hy]

/-- The same when the entry of a cluster in use is then made to point to it. -/
theorem zero_of_linked {next : Nat → Nat} {c v prev : Nat} (hc : c ≠ 0) (hv : v ≠ 0) (hprev : next prev ≠ 0) (y : Nat) :
    Function.update (Function.update next c v) prev c y = 0 ↔ next y = 0 ∧ y ≠ c := by
  rw [zero_of_update hc, zero_of_update hv]
  constructor
  · intro h
    exact h.1
  · intro h
    refine ⟨h, ?_⟩
    rintro rfl
    exact hprev h.1

/-- One round of the allocation loop, where the allocator hands out the first free cluster
among `k`. -/
theorem alloc_chain_succ {g : Geometry} {k : Nat} (hk : 2 + k ≤ lastCluster + 1)
    (halloc : fat12AllocCluster g f = .ok ((freeList (fatEntry f.data) 2 k).headD 0))
    (h : Built (fatEntry f.data) l) (count : Nat) :
    (freeList (fatEntry f.data) 2 k = [] ∧
      ∃ f', allocChain g (count + 1) f (l.headD 0) (l.getLastD 0) = .ok (none, f') ∧
        fatEntry f'.data = clear 0 l (fatEntry f.data)) ∨
    (∃ c rest f₁, freeList (fatEntry f.data) 2 k = c :: rest ∧
      allocChain g (count + 1) f (l.headD 0) (l.getLastD 0) =
        allocChain g count f₁ ((l ++ [c]).headD 0) ((l ++ [c]).getLastD 0) ∧
      f₁.dirty = true ∧ Built (fatEntry f₁.data) (l ++ [c]) ∧
      freeList (fatEntry f₁.data) 2 k = rest ∧
      ∀ x, x ∉ l ++ [c] → fatEntry f₁.data x = fatEntry f.data x) := by
  have hlast : lastCluster = 681 := rfl
  cases hfree : freeList (fatEntry f.data) 2 k with
  | nil =>
    left
    rw [hfree, List.headD_nil] at halloc
    exact ⟨rfl, alloc_chain_full halloc h count⟩
  | cons c rest =>
    right
    have hmem : c ∈ freeList (fatEntry f.data) 2 k := by simp [hfree]
    obtain ⟨⟨hc, hlim⟩, hzero⟩ := mem_free_list.mp hmem
    have hle : c ≤ lastCluster := by omega
    obtain ⟨f₁, hset, hd, he⟩ := fat12_set_eq (f := f) hle 0xFFF
    have hval : (0xFFF : Nat) % 4096 = 0xFFF := rfl
    rw [hval] at he
    rw [allocChain, halloc, ok_bind, hfree, List.headD_cons, if_neg (by omega), hset, ok_bind]
    have hrest : ∀ f₂ : FatCache, (∀ y, fatEntry f₂.data y = 0 ↔ fatEntry f.data y = 0 ∧ y ≠ c) →
        freeList (fatEntry f₂.data) 2 k = rest := fun f₂ hn => free_list_take hfree hn
    rcases List.eq_nil_or_concat l with rfl | ⟨l, prev, rfl⟩
    · refine ⟨c, rest, f₁, rfl, if_neg (by simp), hd, ?_, hrest f₁ (fun y => ?_), fun x hx => ?_⟩
      · exact built_single hc hle (by rw [he, Function.update_self])
      · rw [he]
        exact zero_of_update (by decide) y
      · rw [he, Function.update_of_ne (by simpa using hx)]
    · rw [List.concat_eq_append] at h ⊢
      have hprev : prev ∈ l ++ [prev] := by simp
      have hlow := h.lower prev hprev
      obtain ⟨f₂, hset₂, hd₂, he₂⟩ := fat12_set_eq (f := f₁) (h.upper prev hprev) c
      rw [he, Nat.mod_eq_of_lt (by omega)] at he₂
      have hlastD : (l ++ [prev]).getLastD 0 = prev := by simp
      have hhead : (l ++ [prev] ++ [c]).headD 0 = (l ++ [prev]).headD 0 := by
        cases l <;> rfl
      rw [hlastD, if_pos (by omega), hset₂, ok_bind]
      refine ⟨c, rest, f₂, rfl, by rw [hhead]; simp, hd₂, h.snoc hc hle hzero he₂, hrest f₂ (fun y => ?_),
        fun x hx => ?_⟩
      · rw [he₂]
        exact zero_of_linked (by omega) (by decide) (h.next_ne hprev) y
      · have hxp : x ≠ prev := fun hxp => hx (by simp [hxp])
        have hxc : x ≠ c := fun hxc => hx (by simp [hxc])
        rw [he₂, Function.update_of_ne hxp, Function.update_of_ne hxc]

/-- The allocation loop takes the first `count` free clusters in order and links
them into a chain, or leaves the table as it was when there are too few. -/
theorem alloc_chain_from {g : Geometry} (hg : clusterLimit g ≤ lastCluster + 1) (count : Nat)
    (h : Built (fatEntry f.data) l) :
    ((freeClusters (fatEntry f.data) g).length < count ∧
      ∃ f', allocChain g count f (l.headD 0) (l.getLastD 0) = .ok (none, f') ∧
        fatEntry f'.data = clear 0 l (fatEntry f.data)) ∨
    (count ≤ (freeClusters (fatEntry f.data) g).length ∧ ∃ m f',
      m = l ++ (freeClusters (fatEntry f.data) g).take count ∧
      allocChain g count f (l.headD 0) (l.getLastD 0) = .ok (some (m.headD 0), f') ∧
      (0 < count → f'.dirty = true) ∧ Built (fatEntry f'.data) m ∧
      ∀ x, x ∉ m → fatEntry f'.data x = fatEntry f.data x) := by
  have hk : 2 + (clusterLimit g - 2) ≤ lastCluster + 1 := by
    have hl : lastCluster = 681 := rfl
    omega
  unfold freeClusters
  induction count generalizing f l with
  | zero =>
    right
    exact ⟨Nat.zero_le _, l, f, by simp, rfl, fun h0 => absurd h0 (Nat.lt_irrefl _), h,
      fun _ _ => rfl⟩
  | succ count ih =>
    rcases alloc_chain_succ hk (alloc_cluster_eq hg) h count with
      ⟨hnil, hfail⟩ | ⟨c, rest, f₁, hfree, hstep, hd, hb, hrest, hsame⟩
    · left
      rw [hnil]
      exact ⟨Nat.succ_pos _, hfail⟩
    · rw [hstep, hfree, List.length_cons]
      rcases ih hb with ⟨hlt, f', hrun, he⟩ | ⟨hle, m, f', hm, hrun, hd', hbm, hsame'⟩
      · left
        rw [hrest] at hlt
        refine ⟨by omega, f', hrun, ?_⟩
        -- the cluster taken in this round was free before, and is free again
        have hc : fatEntry f.data c = 0 := (mem_free_list.mp (hfree ▸ List.mem_cons_self)).2
        rw [he]
        exact clear_undoes (by simpa using hc) hsame
      · right
        rw [hrest] at hle hm
        refine ⟨by omega, m, f', ?_, hrun, fun _ => ?_, hbm, fun x hx => ?_⟩
        · rw [hm, List.take_succ_cons]
          simp
        · by_cases hz : count = 0
          · subst hz
            rw [allocChain] at hrun
            rw [← (Prod.mk.inj (Except.ok.inj hrun)).2]
            exact hd
          · exact hd' (by omega)
        · rw [hsame' x hx, hsame x]
          intro hmem
          rw [hm] at hx
          exact hx (List.mem_append_left _ hmem)

theorem alloc_chain_eq {g : Geometry} (hg : clusterLimit g ≤ lastCluster + 1) {count : Nat}
    (hcount : 0 < count) (f : FatCache) :
    ((freeClusters (fatEntry f.data) g).length < count ∧
      ∃ f', allocChain g count f 0 0 = .ok (none, f') ∧ f'.data = f.data) ∨
    (count ≤ (freeClusters (fatEntry f.data) g).length ∧ ∃ m f',
      m = (freeClusters (fatEntry f.data) g).take count ∧
      allocChain g count f 0 0 = .ok (some (m.headD 0), f') ∧
      f'.dirty = true ∧ Built (fatEntry f'.data) m ∧
      ∀ x, x ∉ m → fatEntry f'.data x = fatEntry f.data x) := by
  rcases alloc_chain_from hg count (built_nil (fatEntry f.data)) with h | h
  · obtain ⟨hlt, f', hrun, he⟩ := h
    rw [clear_nil] at he
    exact Or.inl ⟨hlt, f', hrun, fat_data_ext he⟩
  · obtain ⟨hle, m, f', hm, hrun, hd, hb, hsame⟩ := h
    exact Or.inr ⟨hle, m, f', hm, hrun, hd hcount, hb, hsame⟩

end BaSic.Proofs.FatChains
