import Mathlib

namespace BaSic.Lib

/-- A directory of tables: an index pair is looked up in the table its first half names. -/
@[ext] structure TwoLevel (ι τ κ α : Type*) where
  dir : ι → Option τ
  cell : τ → κ → Option α

namespace TwoLevel

variable {ι τ κ α : Type*}

def lookup (m : TwoLevel ι τ κ α) (i : ι) (k : κ) : Option α := (m.dir i).bind (fun t => m.cell t k)

/-- No table is entered in the directory twice. -/
def Separate (m : TwoLevel ι τ κ α) : Prop := ∀ i j t, m.dir i = some t → m.dir j = some t → i = j

/-- Writing one cell of a table. -/
def store [DecidableEq τ] [DecidableEq κ] (m : TwoLevel ι τ κ α) (t : τ) (k : κ) (a : Option α) : TwoLevel ι τ κ α :=
  { m with cell := Function.update m.cell t (Function.update (m.cell t) k a) }

/-- Entering an empty table in the directory. -/
def attach [DecidableEq ι] [DecidableEq τ] (m : TwoLevel ι τ κ α) (i : ι) (t : τ) : TwoLevel ι τ κ α where
  dir := Function.update m.dir i (some t)
  cell := Function.update m.cell t (fun _ => none)

variable [DecidableEq τ] {m : TwoLevel ι τ κ α} {i j : ι} {t : τ} {k l : κ} {a : Option α}

theorem lookup_store_self [DecidableEq κ] (hi : m.dir i = some t) : (m.store t k a).lookup i k = a := by
  simp [lookup, store, hi]

/-- A store through one index leaves what every other index finds. -/
theorem lookup_store_other [DecidableEq κ] (h : m.Separate) (hi : m.dir i = some t) (hne : j ≠ i ∨ l ≠ k) :
    (m.store t k a).lookup j l = m.lookup j l := by
  unfold lookup store
  cases hj : m.dir j with
  | none => rfl
  | some u =>
    simp only [Option.bind_some]
    by_cases hu : u = t
    · subst hu
      have hij := h j i u hj hi
      have hl : l ≠ k := hne.resolve_left (not_not.mpr hij)
      rw [Function.update_self, Function.update_of_ne hl]
    · rw [Function.update_of_ne hu]

/-- A fresh empty table in an empty place changes nothing that is found. -/
theorem lookup_attach [DecidableEq ι] (hi : m.dir i = none) (ht : ∀ j, m.dir j ≠ some t) (j : ι) (k : κ) :
    (m.attach i t).lookup j k = m.lookup j k := by
  unfold lookup attach
  simp only
  by_cases hj : j = i
  · subst hj
    simp [hi]
  · rw [Function.update_of_ne hj]
    cases hd : m.dir j with
    | none => rfl
    | some u =>
      have hu : u ≠ t := fun he => ht j (he ▸ hd)
      simp only [Option.bind_some, Function.update_of_ne hu]

theorem Separate.attach [DecidableEq ι] (h : m.Separate) (ht : ∀ j, m.dir j ≠ some t) : (m.attach i t).Separate := by
  intro x y u hx hy
  simp only [TwoLevel.attach, Function.update_apply] at hx hy
  split at hx <;> split at hy
  · rename_i hxi hyi
    rw [hxi, hyi]
  · cases hx
    exact absurd hy (ht y)
  · cases hy
    exact absurd hx (ht x)
  · exact h x y u hx hy

end TwoLevel

end BaSic.Lib
