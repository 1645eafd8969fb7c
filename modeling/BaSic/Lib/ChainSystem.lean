import BaSic.Lib.Links

namespace BaSic.Lib

/-- The links with those of the nodes in `l` set to `free`. -/
def clear {α : Type*} [DecidableEq α] (free : α) (l : List α) (next : α → α) : α → α :=
  fun x => if x ∈ l then free else next x

/-- Several owners keep their nodes in chains over one array of links: every
chain ends in an end mark, no node is shared, and a node whose link is not
`free` belongs to somebody or is one of the `leaked` ones. An owner of nothing
has `free` for its head. -/
structure ChainSystem {α ι : Type*} (free : α) (node ends leaked : α → Prop) (next : α → α)
    (owner : ι → Prop) (head : ι → α) (chain : ι → List α) : Prop where
  linked : ∀ i, owner i → ∃ e, Path next (head i) (chain i) e ∧ (ends e ∨ e = free ∧ chain i = [])
  nodes : ∀ i, owner i → ∀ x ∈ chain i, node x
  nodup : ∀ i, owner i → (chain i).Nodup
  apart : ∀ i j, owner i → owner j → i ≠ j → (chain i).Disjoint (chain j)
  kept : ∀ i, owner i → ∀ x ∈ chain i, ¬ leaked x
  owned : ∀ x, node x → (next x ≠ free ↔ leaked x ∨ ∃ i, owner i ∧ x ∈ chain i)

variable {α ι : Type*} {free : α} {node ends leaked : α → Prop} {next next' : α → α}
  {owner owner' : ι → Prop} {head head' : ι → α} {chain : ι → List α} {l m : List α} {i : ι}

theorem ChainSystem.owned_by (h : ChainSystem free node ends leaked next owner head chain)
    (hi : owner i) {x : α} (hx : x ∈ chain i) : next x ≠ free :=
  (h.owned x (h.nodes i hi x hx)).mpr (Or.inr ⟨i, hi, hx⟩)

section Clear

variable [DecidableEq α]

@[simp] theorem clear_nil (next : α → α) : clear free [] next = next := by
  funext x
  exact if_neg List.not_mem_nil

theorem clear_mem {x : α} (h : x ∈ l) : clear free l next x = free := if_pos h

theorem clear_not_mem {x : α} (h : x ∉ l) : clear free l next x = next x := if_neg h

/-- Clearing nodes that were free before undoes what was done to them. -/
theorem clear_undoes (hfree : ∀ x ∈ m, next x = free) (hsame : ∀ x, x ∉ l ++ m → next' x = next x) :
    clear free (l ++ m) next' = clear free l next := by
  funext x
  by_cases hl : x ∈ l
  · rw [clear_mem hl, clear_mem (List.mem_append_left _ hl)]
  · rw [clear_not_mem hl]
    by_cases hm : x ∈ m
    · rw [clear_mem (List.mem_append_right _ hm), hfree x hm]
    · have hout : x ∉ l ++ m := fun hx => (List.mem_append.mp hx).elim hl hm
      rw [clear_not_mem hout, hsame x hout]

/-- One owner gives up its chain. -/
theorem ChainSystem.release (h : ChainSystem free node ends leaked next owner head chain) (hi : owner i)
    (ho : ∀ j, owner' j ↔ j ≠ i ∧ owner j) (hh : ∀ j, j ≠ i → head' j = head j) :
    ChainSystem free node ends leaked (clear free (chain i) next) owner' head' chain := by
  refine ⟨fun j hj => ?_, fun j hj => ?_, fun j hj => ?_, fun j k hj hk => ?_, fun j hj => ?_,
    fun x hx => ?_⟩
  · obtain ⟨hji, hj⟩ := (ho j).mp hj
    obtain ⟨e, hp, he⟩ := h.linked j hj
    refine ⟨e, ?_, he⟩
    rw [hh j hji]
    exact hp.congr (fun x hx => clear_not_mem (h.apart j i hj hi hji hx))
  · exact h.nodes j ((ho j).mp hj).2
  · exact h.nodup j ((ho j).mp hj).2
  · exact h.apart j k ((ho j).mp hj).2 ((ho k).mp hk).2
  · exact h.kept j ((ho j).mp hj).2
  · constructor
    · intro hne
      have hout : x ∉ chain i := fun hm => hne (clear_mem hm)
      rw [clear_not_mem hout] at hne
      rcases (h.owned x hx).mp hne with hleak | ⟨j, hj, hm⟩
      · exact Or.inl hleak
      · refine Or.inr ⟨j, (ho j).mpr ⟨?_, hj⟩, hm⟩
        intro hji
        exact hout (hji ▸ hm)
    · rintro (hleak | ⟨j, hj, hm⟩)
      · rw [clear_not_mem (fun hm => h.kept i hi x hm hleak)]
        exact (h.owned x hx).mpr (Or.inl hleak)
      · obtain ⟨hji, hj⟩ := (ho j).mp hj
        rw [clear_not_mem (h.apart j i hj hi hji hm)]
        exact h.owned_by hj hm

end Clear

/-- A new owner takes nodes that were free. -/
theorem ChainSystem.attach [DecidableEq ι] (h : ChainSystem free node ends leaked next owner head chain)
    (hi : ¬ owner i) (ho : ∀ j, owner' j ↔ j = i ∨ owner j) (hh : ∀ j, j ≠ i → head' j = head j)
    (hfree : ∀ x ∈ m, node x ∧ next x = free) (hnd : m.Nodup)
    (hm : ∃ e, Path next' (head' i) m e ∧ (ends e ∨ e = free ∧ m = []))
    (hne : ∀ x ∈ m, next' x ≠ free) (hsame : ∀ x, x ∉ m → next' x = next x) :
    ChainSystem free node ends leaked next' owner' head' (Function.update chain i m) := by
  have hother : ∀ j, owner j → j ≠ i := fun j hj hji => hi (hji ▸ hj)
  have hapart : ∀ j, owner j → ∀ x ∈ chain j, x ∉ m :=
    fun j hj x hx hxm => h.owned_by hj hx (hfree x hxm).2
  have hstay : ∀ x, node x → leaked x → x ∉ m :=
    fun x hx hleak hxm => (h.owned x hx).mpr (Or.inl hleak) (hfree x hxm).2
  refine ⟨fun j hj => ?_, fun j hj => ?_, fun j hj => ?_, fun j k hj hk hjk => ?_, fun j hj => ?_,
    fun x hx => ?_⟩
  · by_cases hji : j = i
    · subst hji
      rw [Function.update_self]
      exact hm
    · have hj := ((ho j).mp hj).resolve_left hji
      obtain ⟨e, hp, he⟩ := h.linked j hj
      rw [Function.update_of_ne hji, hh j hji]
      exact ⟨e, hp.congr (fun x hx => hsame x (hapart j hj x hx)), he⟩
  · by_cases hji : j = i
    · subst hji
      rw [Function.update_self]
      exact fun x hx => (hfree x hx).1
    · rw [Function.update_of_ne hji]
      exact h.nodes j (((ho j).mp hj).resolve_left hji)
  · by_cases hji : j = i
    · subst hji
      rw [Function.update_self]
      exact hnd
    · rw [Function.update_of_ne hji]
      exact h.nodup j (((ho j).mp hj).resolve_left hji)
  · by_cases hji : j = i
    · subst hji
      have hk := ((ho k).mp hk).resolve_left (Ne.symm hjk)
      rw [Function.update_self, Function.update_of_ne (Ne.symm hjk)]
      exact fun x hx hx' => hapart k hk x hx' hx
    · have hj := ((ho j).mp hj).resolve_left hji
      rw [Function.update_of_ne hji]
      by_cases hki : k = i
      · subst hki
        rw [Function.update_self]
        exact fun x hx hx' => hapart j hj x hx hx'
      · rw [Function.update_of_ne hki]
        exact h.apart j k hj (((ho k).mp hk).resolve_left hki) hjk
  · by_cases hji : j = i
    · subst hji
      rw [Function.update_self]
      exact fun x hx hleak => hstay x (hfree x hx).1 hleak hx
    · rw [Function.update_of_ne hji]
      exact h.kept j (((ho j).mp hj).resolve_left hji)
  · constructor
    · intro hx'
      by_cases hxm : x ∈ m
      · exact Or.inr ⟨i, (ho i).mpr (Or.inl rfl), by rwa [Function.update_self]⟩
      · rw [hsame x hxm] at hx'
        rcases (h.owned x hx).mp hx' with hleak | ⟨j, hj, hxj⟩
        · exact Or.inl hleak
        · exact Or.inr ⟨j, (ho j).mpr (Or.inr hj), by rwa [Function.update_of_ne (hother j hj)]⟩
    · rintro (hleak | ⟨j, hj, hxj⟩)
      · rw [hsame x (hstay x hx hleak)]
        exact (h.owned x hx).mpr (Or.inl hleak)
      by_cases hji : j = i
      · subst hji
        rw [Function.update_self] at hxj
        exact hne x hxj
      · have hj := ((ho j).mp hj).resolve_left hji
        rw [Function.update_of_ne hji] at hxj
        rw [hsame x (hapart j hj x hxj)]
        exact h.owned_by hj hxj

/-- Free nodes are taken and belong to nobody. -/
theorem ChainSystem.leak (h : ChainSystem free node ends leaked next owner head chain)
    (hfree : ∀ x ∈ m, node x ∧ next x = free) (hne : ∀ x ∈ m, next' x ≠ free)
    (hsame : ∀ x, x ∉ m → next' x = next x) :
    ChainSystem free node ends (fun x => leaked x ∨ x ∈ m) next' owner head chain := by
  have hapart : ∀ j, owner j → ∀ x ∈ chain j, x ∉ m :=
    fun j hj x hx hxm => h.owned_by hj hx (hfree x hxm).2
  refine ⟨fun j hj => ?_, h.nodes, h.nodup, h.apart, fun j hj x hx hl => ?_, fun x hx => ?_⟩
  · obtain ⟨e, hp, he⟩ := h.linked j hj
    exact ⟨e, hp.congr (fun x hx => hsame x (hapart j hj x hx)), he⟩
  · exact hl.elim (h.kept j hj x hx) (hapart j hj x hx)
  · by_cases hxm : x ∈ m
    · exact iff_of_true (hne x hxm) (Or.inl (Or.inr hxm))
    · rw [hsame x hxm, h.owned x hx]
      simp only [hxm, or_false]

/-- The same system under another way of writing its owners. -/
theorem ChainSystem.congr (h : ChainSystem free node ends leaked next owner head chain)
    (ho : ∀ j, owner' j ↔ owner j) (hh : ∀ j, owner j → head' j = head j) :
    ChainSystem free node ends leaked next owner' head' chain := by
  refine ⟨fun j hj => ?_, fun j hj => h.nodes j ((ho j).mp hj), fun j hj => h.nodup j ((ho j).mp hj),
    fun j k hj hk => h.apart j k ((ho j).mp hj) ((ho k).mp hk), fun j hj => h.kept j ((ho j).mp hj),
    fun x hx => ?_⟩
  · rw [hh j ((ho j).mp hj)]
    exact h.linked j ((ho j).mp hj)
  · rw [h.owned x hx]
    simp only [ho]

end BaSic.Lib
