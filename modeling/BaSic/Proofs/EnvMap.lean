import BaSic.Kernel.Env
import BaSic.Lib.SlotTable
import BaSic.Lib.Steps

namespace BaSic.Proofs.EnvMap
open Kernel Lib

inductive EnvOp where
  | set (key val : CStr)
  | unset (key : CStr)

def EnvOp.key : EnvOp → CStr
  | .set key _ => key
  | .unset key => key

/-- `env_set` and `env_unset`, with what the former returned. -/
def envStep (t : EnvTable) : EnvOp → Option Int × EnvTable
  | .set key val => (some (envSet t key val).1, (envSet t key val).2)
  | .unset key => (none, envUnset t key)

/-- What the table stands for: the value of each key that has one. -/
abbrev EnvValues := List UInt8 → Option (List UInt8)

/-- The keys that have a value. -/
def EnvValues.keys (m : EnvValues) : Set (List UInt8) := {k | m k ≠ none}

/-- A map of at most 32 keys, to values of at most 63 characters. -/
noncomputable def mapStep (m : EnvValues) : EnvOp → Option Int × EnvValues
  | .set key val =>
    if m key.chars = none ∧ m.keys.ncard = envMaxVars then (some 0, m)
    else (some 1, Function.update m key.chars (some (val.chars.take (envValMax - 1))))
  | .unset key => (none, Function.update m key.chars none)

/-- An entry in use has the key and the value, an entry that is not in use none. -/
def Shows (e : EnvEntry) : Option (List UInt8 × List UInt8) → Prop
  | none => e.used = false
  | some (k, v) => e.used = true ∧ HoldsFrom e.key 0 k ∧ 0 ∉ k ∧ HoldsFrom e.val 0 v ∧ 0 ∉ v ∧ v.length < envValMax

/-- The slots as the table has them. -/
def Refines (t : EnvTable) (u : SlotTable envMaxVars (List UInt8) (List UInt8)) : Prop := ∀ i, Shows (t i) (u i)

variable {t : EnvTable} {u : SlotTable envMaxVars (List UInt8) (List UInt8)} {key val : CStr} {i : Fin envMaxVars}
  {e : EnvEntry} {o : Option (List UInt8 × List UInt8)}

theorem shows_matches (h : Shows e o) (key : CStr) : envMatches key e = o.any (·.1 = key.chars) := by
  unfold envMatches
  cases o with
  | none =>
    have hused : e.used = false := h
    rw [hused]
    rfl
  | some kv =>
    obtain ⟨hused, hkey, hnul, -⟩ := h
    rw [hused, Bool.true_and, strcmp_holds hkey hnul key]
    rfl

theorem shows_free (h : Shows e o) : (!e.used) = o.isNone := by
  cases o with
  | none =>
    have hused : e.used = false := h
    rw [hused]
    rfl
  | some kv =>
    rw [h.1]
    rfl

theorem Refines.find (h : Refines t u) (key : CStr) :
    Fin.find? (fun i => envMatches key (t i)) = u.slotOf key.chars :=
  congrArg Fin.find? (funext (fun i => shows_matches (h i) key))

theorem Refines.find_free (h : Refines t u) : Fin.find? (fun i => !(t i).used) = u.freeSlot :=
  congrArg Fin.find? (funext (fun i => shows_free (h i)))

theorem Refines.get (h : Refines t u) (key : CStr) : envGet t key = u.lookup key.chars := by
  unfold envGet SlotTable.lookup
  rw [h.find]
  cases hi : u.slotOf key.chars with
  | none => rfl
  | some i =>
    obtain ⟨v, hv⟩ := any_key (SlotTable.slot_of_some.mp hi).1
    have hshows := h i
    rw [hv] at hshows
    obtain ⟨-, -, -, hval, hnul, hlen⟩ := hshows
    rw [Option.map_some, Option.bind_some, hv, text_of_holds hval hnul hlen]
    rfl

theorem Refines.write (h : Refines t u) {k v : List UInt8} (hshows : Shows e (some (k, v))) :
    Refines (Function.update t i e) (u.write i k v) := SlotTable.write_shown h hshows

theorem take_short (s : List UInt8) : (s.take (envValMax - 1)).length < envValMax := by
  rw [List.length_take]
  exact Nat.lt_of_le_of_lt (Nat.min_le_left _ _) (by decide)

/-- What `env_set` does to the slots: it stores the value, or fails for want of room. -/
theorem set_cases (h : Refines t u) (hkey : key.chars.length ≤ envKeyMax - 1) (val : CStr) :
    (u.RoomFor key.chars ∧ (envSet t key val).1 = 1 ∧
        Refines (envSet t key val).2 (u.store key.chars (val.chars.take (envValMax - 1)))) ∨
      ¬ u.RoomFor key.chars ∧ envSet t key val = (0, t) := by
  unfold envSet SlotTable.RoomFor SlotTable.store
  rw [h.find, h.find_free, ne_eq, SlotTable.lookup_none]
  cases hi : u.slotOf key.chars with
  | some i =>
    obtain ⟨v, hv⟩ := any_key (SlotTable.slot_of_some.mp hi).1
    have hshows := h i
    rw [hv] at hshows
    exact Or.inl ⟨Or.inl (fun hc => by cases hc), rfl,
      h.write ⟨hshows.1, hshows.2.1, key.noNul, copy_cut_holds .., take_no_nul val _, take_short _⟩⟩
  | none =>
    cases hfree : u.freeSlot with
    | some i =>
      have hcopy := copy_cut_holds (t i).key key (envKeyMax - 1)
      rw [List.take_of_length_le hkey] at hcopy
      exact Or.inl ⟨Or.inr (fun hc => by cases hc), rfl,
        h.write ⟨rfl, hcopy, key.noNul, copy_cut_holds .., take_no_nul val _, take_short _⟩⟩
    | none => exact Or.inr ⟨by simp, rfl⟩

theorem Refines.unset (h : Refines t u) (key : CStr) : Refines (envUnset t key) (u.remove key.chars) := by
  intro i
  unfold envUnset
  rw [SlotTable.remove_apply, shows_matches (h i)]
  split_ifs
  · rfl
  · exact h i

/-- The table has slots with the contents of the map, no two of one key. -/
def Implements (t : EnvTable) (m : EnvValues) : Prop := ∃ u, Refines t u ∧ u.Apart ∧ ∀ k, m k = u.lookup k

variable {m : EnvValues}

theorem Implements.get (h : Implements t m) (key : CStr) : envGet t key = m key.chars := by
  obtain ⟨u, hrefines, -, hm⟩ := h
  rw [hrefines.get, hm]

theorem clear_implements : Implements envClear (fun _ => none) := by
  refine ⟨fun _ => none, fun _ => rfl, fun i j k hi => (by cases hi), fun k => ?_⟩
  exact (SlotTable.lookup_none.mpr (SlotTable.slot_of_none.mpr (fun _ => rfl))).symm

/-- Where the map has all keys it may have, and the key is not one of them, there is no room. -/
theorem no_room_iff (hapart : u.Apart) (hm : ∀ k, m k = u.lookup k) :
    m key.chars = none ∧ m.keys.ncard = envMaxVars ↔ ¬ u.RoomFor key.chars := by
  obtain rfl : m = u.lookup := funext hm
  exact hapart.no_room_iff.symm

theorem set_step (h : Implements t m) (hkey : key.chars.length ≤ envKeyMax - 1) (val : CStr) :
    (envStep t (.set key val)).1 = (mapStep m (.set key val)).1 ∧
      Implements (envStep t (.set key val)).2 (mapStep m (.set key val)).2 := by
  obtain ⟨u, hrefines, hapart, hm⟩ := h
  unfold envStep mapStep
  dsimp only
  have hfull : m key.chars = none ∧ m.keys.ncard = envMaxVars ↔ ¬ u.RoomFor key.chars := no_room_iff hapart hm
  rcases set_cases hrefines hkey val with ⟨hroom, hret, hnext⟩ | ⟨hroom, hsame⟩
  · rw [if_neg (fun hc => hfull.mp hc hroom), hret]
    refine ⟨rfl, _, hnext, hapart.store _ _, fun k => ?_⟩
    rw [SlotTable.lookup_store hroom, funext hm]
  · rw [if_pos (hfull.mpr hroom), hsame]
    exact ⟨rfl, u, hrefines, hapart, hm⟩

theorem unset_step (h : Implements t m) (key : CStr) :
    Implements (envUnset t key) (Function.update m key.chars none) := by
  obtain ⟨u, hrefines, hapart, hm⟩ := h
  refine ⟨_, hrefines.unset key, hapart.remove, fun k => ?_⟩
  by_cases hk : k = key.chars
  · rw [hk, Function.update_self, SlotTable.lookup_remove_self]
  · rw [Function.update_of_ne hk, SlotTable.lookup_remove_ne hk, hm]

/-- Table and map answer alike and stay together. -/
theorem env_step (h : Implements t m) (op : EnvOp) (hkey : op.key.chars.length ≤ envKeyMax - 1) :
    (envStep t op).1 = (mapStep m op).1 ∧ Implements (envStep t op).2 (mapStep m op).2 := by
  cases op with
  | set key val => exact set_step h hkey val
  | unset key => exact ⟨rfl, unset_step h key⟩

theorem Implements.apart (h : Implements t m) {i j : Fin envMaxVars} (hi : envMatches key (t i) = true)
    (hj : envMatches key (t j) = true) : i = j := by
  obtain ⟨u, hrefines, hapart, -⟩ := h
  rw [shows_matches (hrefines i)] at hi
  rw [shows_matches (hrefines j)] at hj
  exact hapart i j _ hi hj

theorem Implements.card_le (h : Implements t m) : m.keys.ncard ≤ envMaxVars := by
  obtain ⟨u, -, hapart, hm⟩ := h
  obtain rfl : m = u.lookup := funext hm
  exact hapart.card_le

/-- Only a new key in a full table is refused, and then the table stays as it is. -/
theorem Implements.refuses (h : Implements t m) (hkey : key.chars.length ≤ envKeyMax - 1) (val : CStr) :
    ((envSet t key val).1 = 0 ↔ m key.chars = none ∧ m.keys.ncard = envMaxVars) ∧
      ((envSet t key val).1 = 0 → (envSet t key val).2 = t) := by
  obtain ⟨u, hrefines, hapart, hm⟩ := h
  rw [no_room_iff hapart hm]
  rcases set_cases hrefines hkey val with ⟨hroom, hret, -⟩ | ⟨hroom, hsame⟩
  · rw [hret]
    exact ⟨iff_of_false (by decide) (not_not.mpr hroom), fun h => by cases h⟩
  · rw [hsame]
    exact ⟨iff_of_true rfl hroom, fun _ => rfl⟩

/-- After any calls with keys that fit, the table is the map that the same calls make: it
answers alike, has no key twice, and refuses exactly a new key when it has 32 others. -/
theorem env_is_map (ops : List EnvOp) (hkeys : ∀ op ∈ ops, op.key.chars.length ≤ envKeyMax - 1) :
    let t := (run envStep envClear ops).2
    let m := (run mapStep (fun _ => none) ops).2
    (run envStep envClear ops).1 = (run mapStep (fun _ => none) ops).1 ∧ (∀ key, envGet t key = m key.chars) ∧
      m.keys.ncard ≤ envMaxVars ∧
        (∀ i j key, envMatches key (t i) = true → envMatches key (t j) = true → i = j) ∧
          ∀ key val : CStr, key.chars.length ≤ envKeyMax - 1 →
            ((envSet t key val).1 = 0 ↔ m key.chars = none ∧ m.keys.ncard = envMaxVars) ∧
              ((envSet t key val).1 = 0 → (envSet t key val).2 = t) := by
  obtain ⟨hsame, himpl⟩ := run_simulates_on (S := Implements) (fun _ _ op hkey h => env_step h op hkey) hkeys
    clear_implements
  exact ⟨hsame, himpl.get, himpl.card_le, fun _ _ _ => himpl.apart, fun _ val hkey => himpl.refuses hkey val⟩

/-- `OS` is set, set again and unset. -/
def osThreeTimes : List EnvOp :=
  [.set ⟨[79, 83], by decide⟩ ⟨[98], by decide⟩, .set ⟨[79, 83], by decide⟩ ⟨[99], by decide⟩,
    .unset ⟨[79, 83], by decide⟩]

theorem env_is_map_os :
    let t := (run envStep envClear osThreeTimes).2
    let m := (run mapStep (fun _ => none) osThreeTimes).2
    (run envStep envClear osThreeTimes).1 = (run mapStep (fun _ => none) osThreeTimes).1 ∧
      (∀ key, envGet t key = m key.chars) ∧ m.keys.ncard ≤ envMaxVars ∧
        (∀ i j key, envMatches key (t i) = true → envMatches key (t j) = true → i = j) ∧
          ∀ key val : CStr, key.chars.length ≤ envKeyMax - 1 →
            ((envSet t key val).1 = 0 ↔ m key.chars = none ∧ m.keys.ncard = envMaxVars) ∧
              ((envSet t key val).1 = 0 → (envSet t key val).2 = t) :=
  env_is_map osThreeTimes (by
    intro op hop
    simp only [osThreeTimes, List.mem_cons, List.not_mem_nil, or_false] at hop
    rcases hop with rfl | rfl | rfl
    all_goals decide)

end BaSic.Proofs.EnvMap
