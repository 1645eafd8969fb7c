import Mathlib

namespace BaSic.Lib

/-- Following `next` from `a` visits exactly the listed nodes and arrives at `b`. -/
def Path {α : Type*} (next : α → α) : α → List α → α → Prop
  | a, [], b => a = b
  | a, x :: l, b => a = x ∧ Path next (next x) l b

/-- Nodes met by following `next` from `a` as long as the node at hand is live. -/
inductive Reach {α : Type*} (next : α → α) (live : α → Prop) (a : α) : α → Prop where
  | start (h : live a) : Reach next live a a
  | step {x : α} (h : Reach next live a x) (hl : live (next x)) : Reach next live a (next x)

variable {α : Type*} {next next' : α → α} {live : α → Prop} {a b c x : α} {l m : List α}

@[simp] theorem path_nil : Path next a [] b ↔ a = b := Iff.rfl

@[simp] theorem path_cons : Path next a (x :: l) b ↔ a = x ∧ Path next (next x) l b := Iff.rfl

theorem path_append : Path next a (l ++ m) b ↔ ∃ c, Path next a l c ∧ Path next c m b := by
  induction l generalizing a with
  | nil => simp
  | cons x l ih => simp [ih, and_assoc]

theorem path_snoc : Path next a (l ++ [x]) b ↔ Path next a l x ∧ next x = b := by
  rw [path_append]
  simp

/-- A path only looks at the links of the nodes on it. -/
theorem Path.congr (h : Path next a l b) (hn : ∀ x ∈ l, next' x = next x) :
    Path next' a l b := by
  induction l generalizing a with
  | nil => exact h
  | cons x l ih =>
    obtain ⟨rfl, ht⟩ := h
    refine ⟨rfl, ?_⟩
    rw [hn a (by simp)]
    exact ih ht (fun y hy => hn y (by simp [hy]))

theorem Path.start_unique (h : Path next a l b) (h' : Path next' c l b) : c = a := by
  cases l with
  | nil => exact h'.trans h.symm
  | cons x l => exact h'.1.trans h.1.symm

/-- The links of the nodes on a path are determined by the nodes and the end. -/
theorem Path.links_unique (h : Path next a l b) (h' : Path next' c l b) : ∀ x ∈ l, next' x = next x := by
  induction l generalizing a c with
  | nil => exact fun x hx => absurd hx List.not_mem_nil
  | cons y l ih =>
    intro x hx
    rcases List.mem_cons.mp hx with rfl | hx
    · exact h.2.start_unique h'.2
    · exact ih h.2 h'.2 x hx

/-- A node on a path is followed by another one, or by the end. -/
theorem Path.next_mem (h : Path next a l b) (hx : x ∈ l) : next x ∈ l ∨ next x = b := by
  induction l generalizing a with
  | nil => simp at hx
  | cons y l ih =>
    obtain ⟨rfl, ht⟩ := h
    rcases List.mem_cons.mp hx with rfl | hx
    · cases l with
      | nil => exact Or.inr ht
      | cons z l =>
        obtain ⟨hz, _⟩ := ht
        exact Or.inl (by simp [hz])
    · rcases ih ht hx with hm | hb
      · exact Or.inl (List.mem_cons_of_mem _ hm)
      · exact Or.inr hb

/-- Two paths from one node over live nodes to dead ends are the same path. -/
theorem Path.unique (h : Path next a l b) (h' : Path next a m c)
    (hl : ∀ x ∈ l, live x) (hm : ∀ x ∈ m, live x) (hb : ¬ live b) (hc : ¬ live c) :
    l = m ∧ b = c := by
  induction l generalizing a m with
  | nil =>
    cases h
    cases m with
    | nil => exact ⟨rfl, h'⟩
    | cons y m =>
      obtain ⟨rfl, _⟩ := h'
      exact absurd (hm _ (by simp)) hb
  | cons x l ih =>
    obtain ⟨rfl, ht⟩ := h
    cases m with
    | nil =>
      cases h'
      exact absurd (hl _ (by simp)) hc
    | cons y m =>
      obtain ⟨rfl, ht'⟩ := h'
      obtain ⟨he, hbc⟩ := ih ht ht' (fun y hy => hl y (by simp [hy])) (fun y hy => hm y (by simp [hy]))
      exact ⟨by rw [he], hbc⟩

theorem Reach.start_live (h : Reach next live a x) : live a := by
  induction h with
  | start h => exact h
  | step _ _ ih => exact ih

theorem Reach.tail (h : Reach next live (next a) x) (ha : live a) : Reach next live a x := by
  induction h with
  | start h => exact .step (.start ha) h
  | step _ hl ih => exact .step ih hl

theorem Path.reach_of_mem (h : Path next a l b) (hl : ∀ x ∈ l, live x) (hx : x ∈ l) : Reach next live a x := by
  induction l generalizing a with
  | nil => simp at hx
  | cons y l ih =>
    obtain ⟨rfl, ht⟩ := h
    have ha : live a := hl a (by simp)
    rcases List.mem_cons.mp hx with rfl | hx
    · exact .start ha
    · exact (ih ht (fun z hz => hl z (by simp [hz])) hx).tail ha

/-- Over a path to a dead end or back to itself, the nodes met are the nodes listed. -/
theorem Path.reach_iff_of_stop (h : Path next a l b) (hl : ∀ x ∈ l, live x) (hb : ¬ live b ∨ b ∈ l) :
    Reach next live a x ↔ x ∈ l := by
  constructor
  · intro hr
    induction hr with
    | start ha =>
      cases l with
      | nil =>
        cases h
        exact absurd ha (hb.resolve_right List.not_mem_nil)
      | cons y l =>
        obtain ⟨rfl, _⟩ := h
        exact List.mem_cons_self
    | @step y _ hy ih =>
      rcases h.next_mem ih with hmem | hend
      · exact hmem
      · rw [hend] at hy ⊢
        exact hb.resolve_left (not_not_intro hy)
  · exact fun hx => h.reach_of_mem hl hx

/-- Over a path to a dead end, the nodes met are the nodes listed. -/
theorem Path.reach_iff (h : Path next a l b) (hl : ∀ x ∈ l, live x) (hb : ¬ live b) :
    Reach next live a x ↔ x ∈ l := h.reach_iff_of_stop hl (Or.inl hb)

/-- A path from `a` over live nodes, none of them twice, up to the first that is dead or met again. -/
structure Walk {α : Type*} (next : α → α) (live : α → Prop) (a : α) (l : List α) (b : α) : Prop where
  path : Path next a l b
  alive : ∀ x ∈ l, live x
  nodup : l.Nodup
  stop : ¬ live b ∨ b ∈ l

theorem Walk.reach_iff (h : Walk next live a l b) : Reach next live a x ↔ x ∈ l :=
  h.path.reach_iff_of_stop h.alive h.stop

/-- As long as it has not stopped, the walk goes on for one node more. -/
theorem walk_or_longer (next : α → α) (live : α → Prop) (a : α) (n : Nat) : (∃ l b, Walk next live a l b) ∨
    ∃ l b, l.length = n ∧ Path next a l b ∧ (∀ x ∈ l ++ [b], live x) ∧ (l ++ [b]).Nodup := by
  induction n with
  | zero =>
    by_cases ha : live a
    · exact Or.inr ⟨[], a, rfl, rfl, by simpa using ha, by simp⟩
    · exact Or.inl ⟨[], a, rfl, by simp, List.nodup_nil, Or.inl ha⟩
  | succ n ih =>
    rcases ih with hwalk | ⟨l, b, hlen, hpath, hlive, hnodup⟩
    · exact Or.inl hwalk
    · have hnext : Path next a (l ++ [b]) (next b) := path_snoc.mpr ⟨hpath, rfl⟩
      by_cases hstop : ¬ live (next b) ∨ next b ∈ l ++ [b]
      · exact Or.inl ⟨_, _, hnext, hlive, hnodup, hstop⟩
      · push Not at hstop
        obtain ⟨hgoes, hnew⟩ := hstop
        refine Or.inr ⟨_, _, by simp [hlen], hnext, ?_, ?_⟩
        · intro x hx
          rcases List.mem_append.mp hx with hx | hx
          · exact hlive x hx
          · rw [List.mem_singleton.mp hx]
            exact hgoes
        · exact List.nodup_append_comm.mp (List.nodup_cons.mpr ⟨hnew, hnodup⟩)

/-- Among finitely many nodes every walk stops. -/
theorem exists_walk [DecidableEq α] (s : Finset α) (hs : ∀ x, Reach next live a x → x ∈ s) :
    ∃ l b, Walk next live a l b := by
  rcases walk_or_longer next live a s.card with hwalk | ⟨l, b, hlen, hpath, hlive, hnodup⟩
  · exact hwalk
  · have hnext : Path next a (l ++ [b]) (next b) := path_snoc.mpr ⟨hpath, rfl⟩
    have hle : (l ++ [b]).length ≤ s.card := by
      rw [← List.toFinset_card_of_nodup hnodup]
      exact Finset.card_le_card (fun x hx => hs x (hnext.reach_of_mem hlive (List.mem_toFinset.mp hx)))
    rw [List.length_append, hlen, List.length_singleton] at hle
    omega

/-- Nodes met stay the same set when links are changed to dead ends only. -/
theorem Reach.of_cut (h : Reach next' live a x)
    (hn : ∀ y, live (next' y) → next' y = next y) : Reach next live a x := by
  induction h with
  | start h => exact .start h
  | @step y _ hl ih =>
    have he := hn y hl
    rw [he] at hl ⊢
    exact .step ih hl

/-- Cutting the first link leaves the rest of the walk in place: what was met
from `a` is `a` itself or is met from its successor. -/
theorem Reach.head_cut (h : Reach next live a x) (hn : ∀ y, y ≠ a → next' y = next y) :
    x = a ∨ Reach next' live (next a) x := by
  induction h with
  | start _ => exact Or.inl rfl
  | @step y _ hl ih =>
    by_cases hy : y = a
    · subst hy
      exact Or.inr (.start hl)
    · rcases ih with rfl | ih
      · exact absurd rfl hy
      · right
        rw [← hn y hy] at hl ⊢
        exact .step ih hl

end BaSic.Lib
