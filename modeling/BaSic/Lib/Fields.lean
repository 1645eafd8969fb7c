import Mathlib

namespace BaSic.Lib.Fields

variable {α : Type*} {fields : List (List α)} {k : Nat}

/-- Where the field `k` begins when the fields lie one behind the other. -/
def offset (fields : List (List α)) (k : Nat) : Nat := (fields.take k).flatten.length

/-- The entries from `start` on, of which there are `len`. -/
def slice (xs : List α) (start len : Nat) : List α := (xs.drop start).take len

theorem slice_middle (before middle after : List α) :
    slice (before ++ middle ++ after) before.length middle.length = middle := by
  simp [slice, List.append_assoc]

theorem flatten_split (fields : List (List α)) (k : Nat) :
    fields.flatten = (fields.take k).flatten ++ (fields.drop k).flatten := by
  rw [← List.flatten_append, List.take_append_drop]

/-- A field between those before and those behind it. -/
theorem flatten_field (hk : k < fields.length) :
    fields.flatten = (fields.take k).flatten ++ fields[k] ++ (fields.drop (k + 1)).flatten := by
  rw [flatten_split fields k, List.drop_eq_getElem_cons hk, List.flatten_cons, List.append_assoc]

/-- Another value of a field leaves the other fields where they are. -/
theorem flatten_set (hk : k < fields.length) (field : List α) :
    (fields.set k field).flatten = (fields.take k).flatten ++ field ++ (fields.drop (k + 1)).flatten := by
  have hlen : k < (fields.set k field).length := by simpa using hk
  rw [flatten_field hlen, List.getElem_set_self, List.take_set_of_le (Nat.le_refl k),
    List.drop_set_of_lt (Nat.lt_succ_self k)]

/-- Fields that follow one another are a slice of the whole. -/
theorem slice_fields {start len : Nat} {xs : List α} (k j : Nat) (hfields : ((fields.drop k).take j).flatten = xs)
    (hstart : offset fields k = start) (hlen : xs.length = len) : slice fields.flatten start len = xs := by
  have hsplit : fields.flatten =
      (fields.take k).flatten ++ ((fields.drop k).take j).flatten ++ ((fields.drop k).drop j).flatten := by
    rw [flatten_split fields k, flatten_split (fields.drop k) j, List.append_assoc]
  rw [hsplit, hfields, ← hstart, ← hlen]
  exact slice_middle _ _ _

end BaSic.Lib.Fields
