import Mathlib

namespace BaSic.Lib

/-- Slots that are free or have a key and a value. -/
abbrev SlotTable (n : Nat) (κ ν : Type*) := Fin n → Option (κ × ν)

variable {n : Nat} {κ ν : Type*}

def SlotTable.freeSlot (t : SlotTable n κ ν) : Option (Fin n) := Fin.find? (fun i => (t i).isNone)

def SlotTable.write (t : SlotTable n κ ν) (i : Fin n) (k : κ) (v : ν) : SlotTable n κ ν :=
  Function.update t i (some (k, v))

/-- No slot is free before one in use. -/
def SlotTable.Packed (t : SlotTable n κ ν) : Prop := ∀ i j, j < i → (t i).isSome = true → (t j).isSome = true

variable {t : SlotTable n κ ν} {i j : Fin n} {k k' : κ} {v : ν}

theorem SlotTable.free_slot_some (h : t.freeSlot = some i) : t i = none :=
  Option.isNone_iff_eq_none.mp (Fin.find?_eq_some_iff.mp h).1

theorem SlotTable.free_slot_none : t.freeSlot = none ↔ ∀ i, (t i).isSome = true := by
  unfold freeSlot
  rw [Fin.find?_eq_none_iff]
  refine forall_congr' (fun i => ?_)
  cases t i with
  | none => simp
  | some e => simp

@[simp] theorem SlotTable.write_self : t.write i k v i = some (k, v) := Function.update_self ..

theorem SlotTable.write_ne (h : j ≠ i) : t.write i k v j = t j := Function.update_of_ne h ..

/-- Entries that show what the slots have still do so after both are written. -/
theorem SlotTable.write_shown {ε : Type*} {R : ε → Option (κ × ν) → Prop} {entries : Fin n → ε} {e : ε}
    (h : ∀ j, R (entries j) (t j)) (he : R e (some (k, v))) (j : Fin n) :
    R (Function.update entries i e j) (t.write i k v j) := by
  by_cases hji : j = i
  · rw [hji, Function.update_self, write_self]
    exact he
  · rw [Function.update_of_ne hji, write_ne hji]
    exact h j

/-- Taking the first free slot leaves no slot free before one in use. -/
theorem SlotTable.Packed.insert (h : t.Packed) (hi : t.freeSlot = some i) (k : κ) (v : ν) : (t.write i k v).Packed := by
  have hbefore : ∀ j, j < i → (t j).isSome = true := by
    intro j hj
    have hused := (Fin.find?_eq_some_iff.mp hi).2 j hj
    rw [← Option.not_isNone, hused]
    rfl
  intro a b hba ha
  by_cases hb : b = i
  · rw [hb, write_self]
    rfl
  · rw [write_ne hb]
    by_cases hai : a = i
    · exact hbefore b (hai ▸ hba)
    · rw [write_ne hai] at ha
      exact h a b hba ha

theorem SlotTable.Packed.rewrite (h : t.Packed) (hi : (t i).isSome = true) (k : κ) (v : ν) : (t.write i k v).Packed := by
  have hused : ∀ j, (t.write i k v j).isSome = (t j).isSome := by
    intro j
    by_cases hj : j = i
    · rw [hj, write_self, hi]
      rfl
    · rw [write_ne hj]
  intro a b hba ha
  rw [hused] at ha ⊢
  exact h a b hba ha

variable [DecidableEq κ]

/-- The first slot of the key. -/
def SlotTable.slotOf (t : SlotTable n κ ν) (k : κ) : Option (Fin n) := Fin.find? (fun i => (t i).any (·.1 = k))

def SlotTable.lookup (t : SlotTable n κ ν) (k : κ) : Option ν :=
  (t.slotOf k).bind (fun i => (t i).map Prod.snd)

/-- All slots of the key are freed. -/
def SlotTable.remove (t : SlotTable n κ ν) (k : κ) : SlotTable n κ ν :=
  fun i => (t i).filter (fun e => e.1 ≠ k)

/-- No key has two slots. -/
def SlotTable.Apart (t : SlotTable n κ ν) : Prop :=
  ∀ i j k, (t i).any (·.1 = k) = true → (t j).any (·.1 = k) = true → i = j

theorem SlotTable.slot_of_some : t.slotOf k = some i ↔
    (t i).any (·.1 = k) = true ∧ ∀ j, j < i → (t j).any (·.1 = k) = false := Fin.find?_eq_some_iff

theorem SlotTable.slot_of_none : t.slotOf k = none ↔ ∀ i, (t i).any (·.1 = k) = false := Fin.find?_eq_none_iff

theorem any_key {e : Option (κ × ν)} (h : e.any (·.1 = k) = true) : ∃ v, e = some (k, v) := by
  cases e with
  | none => cases h
  | some e =>
    obtain ⟨k', v⟩ := e
    obtain rfl : k' = k := by simpa using h
    exact ⟨v, rfl⟩

theorem SlotTable.lookup_none : t.lookup k = none ↔ t.slotOf k = none := by
  unfold lookup
  cases h : t.slotOf k with
  | none => exact iff_of_true rfl rfl
  | some i =>
    obtain ⟨v, hv⟩ := any_key (slot_of_some.mp h).1
    rw [Option.bind_some, hv]
    exact iff_of_false (fun h => by cases h) (fun h => by cases h)

/-- Tables that agree on the slots of a key look it up alike. -/
theorem SlotTable.lookup_congr {u : SlotTable n κ ν}
    (h : ∀ i, (t i).any (·.1 = k) = true ∨ (u i).any (·.1 = k) = true → t i = u i) : t.lookup k = u.lookup k := by
  have hany : ∀ i, (t i).any (·.1 = k) = (u i).any (·.1 = k) := by
    intro i
    by_cases hi : (t i).any (·.1 = k) = true ∨ (u i).any (·.1 = k) = true
    · rw [h i hi]
    · rw [not_or, Bool.not_eq_true, Bool.not_eq_true] at hi
      rw [hi.1, hi.2]
  have hslot : t.slotOf k = u.slotOf k := congrArg Fin.find? (funext hany)
  unfold lookup
  rw [hslot]
  cases hi : u.slotOf k with
  | none => rfl
  | some i => rw [Option.bind_some, Option.bind_some, h i (Or.inr (slot_of_some.mp hi).1)]

/-- A slot written for one key does not matter to another, unless the slot was its. -/
theorem SlotTable.lookup_write_ne (hi : (t i).any (·.1 = k') = false) (hk : k' ≠ k) :
    (t.write i k v).lookup k' = t.lookup k' := by
  refine lookup_congr (fun j hj => ?_)
  by_cases hji : j = i
  · subst hji
    rw [write_self, hi] at hj
    simp [hk.symm] at hj
  · exact write_ne hji

/-- A value written over the one of the first slot of the key. -/
theorem SlotTable.lookup_write_same (hi : t.slotOf k = some i) : (t.write i k v).lookup k = some v := by
  have hslot : (t.write i k v).slotOf k = some i := by
    refine slot_of_some.mpr ⟨by simp, fun j hj => ?_⟩
    rw [write_ne (ne_of_lt hj)]
    exact (slot_of_some.mp hi).2 j hj
  unfold lookup
  rw [hslot, Option.bind_some, write_self]
  rfl

/-- A key that had no slot is found where it is written. -/
theorem SlotTable.lookup_write_new (hk : t.slotOf k = none) : (t.write i k v).lookup k = some v := by
  have hslot : (t.write i k v).slotOf k = some i := by
    refine slot_of_some.mpr ⟨by simp, fun j hj => ?_⟩
    rw [write_ne (ne_of_lt hj)]
    exact slot_of_none.mp hk j
  unfold lookup
  rw [hslot, Option.bind_some, write_self]
  rfl

theorem SlotTable.remove_apply (t : SlotTable n κ ν) (k : κ) (i : Fin n) :
    t.remove k i = if (t i).any (·.1 = k) = true then none else t i := by
  unfold remove
  cases t i with
  | none => simp
  | some e =>
    by_cases he : e.1 = k
    · simp [he]
    · simp [he]

theorem SlotTable.lookup_remove_self : (t.remove k).lookup k = none := by
  refine lookup_none.mpr (slot_of_none.mpr (fun i => ?_))
  rw [remove_apply]
  split_ifs with hi
  · rfl
  · exact Bool.eq_false_iff.mpr hi

theorem SlotTable.lookup_remove_ne (hk : k' ≠ k) : (t.remove k).lookup k' = t.lookup k' := by
  refine lookup_congr (fun i hi => ?_)
  rw [remove_apply] at hi ⊢
  split_ifs at hi ⊢ with hik
  · obtain ⟨v, hv⟩ := any_key hik
    rw [hv] at hi
    simp [hk.symm] at hi
  · rfl

theorem SlotTable.Apart.remove (h : t.Apart) : (t.remove k).Apart := by
  have hsub : ∀ i k', (t.remove k i).any (·.1 = k') = true → (t i).any (·.1 = k') = true := by
    intro i k' hi
    rw [remove_apply] at hi
    split_ifs at hi
    · cases hi
    · exact hi
  exact fun i j k' hi hj => h i j k' (hsub i k' hi) (hsub j k' hj)

/-- A key may be written to the slot it has, or to any slot while it has none. -/
theorem SlotTable.Apart.write (h : t.Apart) (hi : ∀ j, (t j).any (·.1 = k) = true → j = i) : (t.write i k v).Apart := by
  have hslot : ∀ j k', (t.write i k v j).any (·.1 = k') = true →
      j = i ∧ k' = k ∨ j ≠ i ∧ (t j).any (·.1 = k') = true := by
    intro j k' hj
    by_cases hji : j = i
    · subst hji
      rw [write_self] at hj
      exact Or.inl ⟨rfl, (of_decide_eq_true hj).symm⟩
    · rw [write_ne hji] at hj
      exact Or.inr ⟨hji, hj⟩
  intro j j' k' hj hj'
  rcases hslot j k' hj with ⟨hji, rfl⟩ | ⟨hji, hold⟩
  · rcases hslot j' k' hj' with ⟨hji', -⟩ | ⟨-, hold'⟩
    · exact hji.trans hji'.symm
    · exact hji.trans (hi j' hold').symm
  · rcases hslot j' k' hj' with ⟨-, rfl⟩ | ⟨-, hold'⟩
    · exact absurd (hi j hold) hji
    · exact h j j' k' hold hold'

theorem SlotTable.Apart.rewrite (h : t.Apart) (hi : t.slotOf k = some i) : (t.write i k v).Apart :=
  h.write (fun j hj => h j i k hj (slot_of_some.mp hi).1)

theorem SlotTable.Apart.insert (h : t.Apart) (hk : t.slotOf k = none) : (t.write i k v).Apart :=
  h.write (fun j hj => by
    rw [slot_of_none.mp hk j] at hj
    cases hj)

/-- A value stored for a key in its slot, or else in the first free one, if there is one. -/
def SlotTable.store (t : SlotTable n κ ν) (k : κ) (v : ν) : SlotTable n κ ν :=
  match t.slotOf k with
  | some i => t.write i k v
  | none =>
    match t.freeSlot with
    | some i => t.write i k v
    | none => t

/-- The key has a slot, or one is free. -/
def SlotTable.RoomFor (t : SlotTable n κ ν) (k : κ) : Prop := t.lookup k ≠ none ∨ t.freeSlot ≠ none

/-- A store writes a slot of the key or a free one, or there is no room and it does nothing. -/
theorem SlotTable.store_cases (t : SlotTable n κ ν) (k : κ) (v : ν) :
    (∃ i, (t.slotOf k = some i ∨ t.slotOf k = none ∧ t.freeSlot = some i) ∧ t.store k v = t.write i k v) ∨
      t.slotOf k = none ∧ t.freeSlot = none ∧ t.store k v = t := by
  unfold store
  cases hk : t.slotOf k with
  | some i => exact Or.inl ⟨i, Or.inl rfl, rfl⟩
  | none =>
    cases hfree : t.freeSlot with
    | some i => exact Or.inl ⟨i, Or.inr ⟨rfl, rfl⟩, rfl⟩
    | none => exact Or.inr ⟨rfl, rfl, rfl⟩

theorem SlotTable.Apart.store (h : t.Apart) (k : κ) (v : ν) : (t.store k v).Apart := by
  rcases t.store_cases k v with ⟨i, hi | ⟨hk, -⟩, hstore⟩ | ⟨-, -, hstore⟩
  · rw [hstore]
    exact h.rewrite hi
  · rw [hstore]
    exact h.insert hk
  · rw [hstore]
    exact h

/-- What has been stored is found exactly when there was room. -/
theorem SlotTable.lookup_store_iff : (t.store k v).lookup k = some v ↔ t.RoomFor k := by
  unfold RoomFor
  rw [ne_eq, lookup_none]
  rcases t.store_cases k v with ⟨i, hi | ⟨hk, hi⟩, hstore⟩ | ⟨hk, hfree, hstore⟩
  · rw [hstore, lookup_write_same hi, hi]
    simp
  · rw [hstore, lookup_write_new hk, hi]
    simp
  · rw [hstore, lookup_none.mpr hk, hk, hfree]
    simp

theorem SlotTable.lookup_store_ne (hk : k' ≠ k) : (t.store k v).lookup k' = t.lookup k' := by
  rcases t.store_cases k v with ⟨i, hi | ⟨-, hi⟩, hstore⟩ | ⟨-, -, hstore⟩
  · obtain ⟨v', hv'⟩ := any_key (slot_of_some.mp hi).1
    rw [hstore, lookup_write_ne (by simp [hv', hk.symm]) hk]
  · rw [hstore, lookup_write_ne (by simp [free_slot_some hi]) hk]
  · rw [hstore]

/-- Where there is room a store does what it does to a map. -/
theorem SlotTable.lookup_store (h : t.RoomFor k) : (t.store k v).lookup = Function.update t.lookup k (some v) := by
  funext k'
  by_cases hk : k' = k
  · rw [hk, Function.update_self]
    exact lookup_store_iff.mpr h
  · rw [Function.update_of_ne hk, lookup_store_ne hk]

/-- A key keeps its slot whatever is stored. -/
theorem SlotTable.lookup_store_some (h : t.lookup k' ≠ none) : (t.store k v).lookup k' ≠ none := by
  by_cases hk : k' = k
  · subst hk
    rw [lookup_store_iff.mpr (Or.inl h)]
    exact Option.some_ne_none v
  · rwa [lookup_store_ne hk]

/-- In a full table a key without a slot stays without one. -/
theorem SlotTable.no_room_store (h : ¬ t.RoomFor k') : ¬ (t.store k v).RoomFor k' := by
  rw [RoomFor, not_or, not_not, not_not] at h
  obtain ⟨hnone, hfull⟩ := h
  have hused := free_slot_none.mp hfull
  rcases t.store_cases k v with ⟨i, hi | ⟨-, hi⟩, hstore⟩ | ⟨-, -, hstore⟩
  · have hne : k' ≠ k := by
      rintro rfl
      rw [lookup_none, hi] at hnone
      cases hnone
    rw [RoomFor, lookup_store_ne hne, hnone, hstore, not_or, not_not, not_not]
    refine ⟨rfl, free_slot_none.mpr (fun j => ?_)⟩
    by_cases hji : j = i
    · rw [hji, write_self]
      rfl
    · rw [write_ne hji]
      exact hused j
  · rw [hfull] at hi
    cases hi
  · rw [hstore, RoomFor, hnone, hfull]
    simp

/-- Where no key has two slots, a slot in use and its key determine each other. -/
theorem SlotTable.Apart.card_keys (h : t.Apart) :
    {k | t.lookup k ≠ none}.ncard = {i | (t i).isSome = true}.ncard := by
  have himage : some '' {k | t.lookup k ≠ none} = (fun i => (t i).map Prod.fst) '' {i | (t i).isSome = true} := by
    ext e
    constructor
    · rintro ⟨k, hk, rfl⟩
      have hslot : t.slotOf k ≠ none := fun hnone => hk (lookup_none.mpr hnone)
      obtain ⟨i, hi⟩ := Option.ne_none_iff_exists'.mp hslot
      obtain ⟨v, hv⟩ := any_key (slot_of_some.mp hi).1
      refine ⟨i, Option.isSome_iff_exists.mpr ⟨_, hv⟩, ?_⟩
      dsimp only
      rw [hv]
      rfl
    · rintro ⟨i, hi, rfl⟩
      obtain ⟨⟨k, v⟩, hv⟩ := Option.isSome_iff_exists.mp hi
      refine ⟨k, fun hnone => ?_, by dsimp only; rw [hv]; rfl⟩
      have hfree := slot_of_none.mp (lookup_none.mp hnone) i
      rw [hv] at hfree
      simp at hfree
  have hinj : Set.InjOn (fun i => (t i).map Prod.fst) {i | (t i).isSome = true} := by
    intro i hi j hj hij
    obtain ⟨⟨k, v⟩, hv⟩ := Option.isSome_iff_exists.mp hi
    obtain ⟨⟨k', v'⟩, hv'⟩ := Option.isSome_iff_exists.mp hj
    dsimp only at hij
    rw [hv, hv'] at hij
    obtain rfl : k = k' := Option.some.inj hij
    exact h i j k (by simp [hv]) (by simp [hv'])
  rw [← Set.ncard_image_of_injective _ (Option.some_injective κ), himage, hinj.ncard_image]

theorem card_slots : (Set.univ : Set (Fin n)).ncard = n := by
  rw [Set.ncard_univ, Nat.card_eq_fintype_card, Fintype.card_fin]

theorem SlotTable.Apart.card_le (h : t.Apart) : {k | t.lookup k ≠ none}.ncard ≤ n :=
  h.card_keys.trans_le ((Set.ncard_le_ncard (Set.subset_univ _)).trans_eq card_slots)

/-- All slots are in use exactly when there are as many keys as slots. -/
theorem SlotTable.Apart.full_iff (h : t.Apart) : t.freeSlot = none ↔ {k | t.lookup k ≠ none}.ncard = n := by
  rw [free_slot_none, h.card_keys]
  constructor
  · intro hall
    exact (congrArg Set.ncard (Set.eq_univ_of_forall hall)).trans card_slots
  · intro hn i
    have hset := Set.eq_of_subset_of_ncard_le (Set.subset_univ {i | (t i).isSome = true}) (by rw [card_slots, hn])
    exact hset.ge (Set.mem_univ i)

/-- There is no room for a new key only when there are as many others as slots. -/
theorem SlotTable.Apart.no_room_iff (h : t.Apart) :
    ¬ t.RoomFor k ↔ t.lookup k = none ∧ {k | t.lookup k ≠ none}.ncard = n := by
  rw [RoomFor, not_or, not_not, not_not, h.full_iff]

/-- A key that is found stays where it is when a slot further on is written for it. -/
theorem SlotTable.Packed.lookup_insert (h : t.Packed) (hi : t.freeSlot = some i) (hk : t.slotOf k = some j) :
    (t.write i k v).lookup k = t.lookup k := by
  obtain ⟨hj, hfirst⟩ := slot_of_some.mp hk
  have hfree := free_slot_some hi
  have hlt : j < i := by
    rcases lt_trichotomy j i with hlt | heq | hgt
    · exact hlt
    · rw [heq, hfree] at hj
      cases hj
    · obtain ⟨v', hv'⟩ := any_key hj
      have hused := h j i hgt (Option.isSome_iff_exists.mpr ⟨_, hv'⟩)
      rw [hfree] at hused
      cases hused
  have hslot : (t.write i k v).slotOf k = some j := by
    refine slot_of_some.mpr ⟨?_, fun a ha => ?_⟩
    · rw [write_ne (ne_of_lt hlt)]
      exact hj
    · rw [write_ne (ne_of_lt (ha.trans hlt))]
      exact hfirst a ha
  unfold lookup
  rw [hslot, hk, Option.bind_some, Option.bind_some, write_ne (ne_of_lt hlt)]

end BaSic.Lib
