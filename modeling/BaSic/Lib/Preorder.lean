import BaSic.Lib.Forest

namespace BaSic.Lib

variable {α : Type*} {t : Forest α} {width k : Nat} {a b c d n : α} {route : List α}

/-- The nodes on the way down from one node to another, that one among them. -/
inductive Forest.Route (t : Forest α) : α → List α → α → Prop where
  | child {d c : α} (hc : c ∈ t.kids d) : Route t d [c] c
  | down {d c n : α} {route : List α} (hc : c ∈ t.kids d) (rest : Route t c route n) : Route t d (c :: route) n

/-- All ways down from a node, each node before those below it, as far down as the number says. -/
def Forest.routes (t : Forest α) : Nat → α → List (List α × α)
  | 0, _ => []
  | k + 1, d => (t.kids d).flatMap (fun c => ([c], c) :: (t.routes k c).map (fun e => (c :: e.1, e.2)))

theorem Forest.mem_routes {e : List α × α} (he : e ∈ t.routes k d) : t.Route d e.1 e.2 := by
  induction k generalizing d e with
  | zero => cases he
  | succ k ih =>
    obtain ⟨c, hc, hmem⟩ := List.mem_flatMap.mp he
    rcases List.mem_cons.mp hmem with rfl | hmem
    · exact .child hc
    · obtain ⟨e', he', rfl⟩ := List.mem_map.mp hmem
      exact .down hc (ih he')

theorem Forest.routes_succ (t : Forest α) (k : Nat) (d : α) : (t.routes (k + 1) d).map Prod.snd =
    (t.kids d).flatMap (fun c => c :: (t.routes k c).map Prod.snd) := by
  simp only [Forest.routes, List.map_flatMap, List.map_cons, List.map_map]
  rfl

theorem Forest.Route.leads_below (h : t.Route d route n) : Relation.TransGen t.Child d n := by
  induction h with
  | child hc => exact Relation.TransGen.single hc
  | down hc _ ih => exact Relation.TransGen.head hc ih

/-- Two nodes above the same one are above each other. -/
theorem Forest.Linked.above_total (h : t.Linked width) (ha : t.Reach a) (hb : t.Reach b)
    (han : Relation.ReflTransGen t.Child a n) (hbn : Relation.ReflTransGen t.Child b n) :
    Relation.ReflTransGen t.Child a b ∨ Relation.ReflTransGen t.Child b a := by
  induction han with
  | refl => exact Or.inr hbn
  | @tail m n ham hmn ih =>
    rcases Relation.ReflTransGen.cases_tail hbn with rfl | ⟨m', hbm', hm'n⟩
    · exact Or.inl (ham.tail hmn)
    · have hm : t.Reach m := ha.trans ham
      have hm' : t.Reach m' := hb.trans hbm'
      obtain rfl : m' = m := Option.some.inj ((h.parent m' n hm' hm'n).symm.trans (h.parent m n hm hmn))
      exact ih hbm'

/-- No node is below two children of another. -/
theorem Forest.Linked.apart (h : t.Linked width) (hd : t.Reach d) (ha : a ∈ t.kids d) (hb : b ∈ t.kids d)
    (han : Relation.ReflTransGen t.Child a n) (hbn : Relation.ReflTransGen t.Child b n) : a = b := by
  have hbelow : ∀ {a b : α}, a ∈ t.kids d → b ∈ t.kids d → Relation.ReflTransGen t.Child a b → a = b := by
    intro a b ha hb hab
    rcases Relation.ReflTransGen.cases_tail hab with rfl | ⟨m, ham, hmb⟩
    · rfl
    · have hm : t.Reach m := (hd.child ha).trans ham
      obtain rfl : m = d := Option.some.inj ((h.parent m b hm hmb).symm.trans (h.parent d b hd hb))
      exact absurd (Relation.TransGen.head' ha ham) (h.acyclic hd)
  rcases h.above_total (hd.child ha) (hd.child hb) han hbn with hab | hba
  · exact hbelow ha hb hab
  · exact (hbelow hb ha hba).symm

/-- No node is come to twice. -/
theorem Forest.Linked.routes_nodup (h : t.Linked width) (hd : t.Reach d) (k : Nat) :
    ((t.routes k d).map Prod.snd).Nodup := by
  have hbelow : ∀ {k : Nat} {c n : α}, n ∈ c :: (t.routes k c).map Prod.snd → Relation.ReflTransGen t.Child c n := by
    intro k c n hn
    rcases List.mem_cons.mp hn with rfl | hn
    · exact Relation.ReflTransGen.refl
    · obtain ⟨e, he, rfl⟩ := List.mem_map.mp hn
      exact (Forest.mem_routes he).leads_below.to_reflTransGen
  induction k generalizing d with
  | zero => exact List.nodup_nil
  | succ k ih =>
    rw [Forest.routes_succ, List.nodup_flatMap]
    constructor
    · intro c hc
      refine List.nodup_cons.mpr ⟨fun hmem => ?_, ih (hd.child hc)⟩
      obtain ⟨e, he, hec⟩ := List.mem_map.mp hmem
      have hcycle := (Forest.mem_routes he).leads_below
      rw [hec] at hcycle
      exact h.acyclic (hd.child hc) hcycle
    · refine (h.nodup d hd).imp_of_mem (fun {a b} ha hb hne => ?_)
      intro n hna hnb
      exact hne (h.apart hd ha hb (hbelow hna) (hbelow hnb))

section Depth
open Classical

/-- How many nodes of a set are below one. -/
noncomputable def Forest.belowCount (t : Forest α) (S : Finset α) (d : α) : Nat :=
  (S.filter (fun n => Relation.TransGen t.Child d n)).card

theorem Forest.below_count_le (t : Forest α) (S : Finset α) (d : α) : t.belowCount S d ≤ S.card :=
  Finset.card_filter_le _ _

/-- Fewer nodes are below a child. -/
theorem Forest.Linked.below_count_lt (h : t.Linked width) {S : Finset α} (hS : ∀ n, t.Reach n → n ∈ S) (hd : t.Reach d)
    (hc : c ∈ t.kids d) : t.belowCount S c < t.belowCount S d := by
  refine Finset.card_lt_card (Finset.ssubset_iff_subset_ne.mpr ⟨fun n hn => ?_, fun heq => ?_⟩)
  · rw [Finset.mem_filter] at hn ⊢
    exact ⟨hn.1, Relation.TransGen.head hc hn.2⟩
  · have hmem : c ∈ S.filter (fun n => Relation.TransGen t.Child d n) :=
      Finset.mem_filter.mpr ⟨hS c (hd.child hc), Relation.TransGen.single hc⟩
    rw [← heq, Finset.mem_filter] at hmem
    exact h.acyclic (hd.child hc) hmem.2

/-- The ways down come to every node below, if they go as far down as there are nodes. -/
theorem Forest.Linked.routes_all (h : t.Linked width) {S : Finset α} (hS : ∀ n, t.Reach n → n ∈ S) (hd : t.Reach d)
    (hk : t.belowCount S d ≤ k) : n ∈ (t.routes k d).map Prod.snd ↔ Relation.TransGen t.Child d n := by
  constructor
  · intro hn
    obtain ⟨e, he, rfl⟩ := List.mem_map.mp hn
    exact (Forest.mem_routes he).leads_below
  · intro hn
    induction k generalizing d with
    | zero =>
      obtain ⟨c, hc, -⟩ := Relation.TransGen.head'_iff.mp hn
      have hless := h.below_count_lt hS hd hc
      omega
    | succ k ih =>
      obtain ⟨c, hc, hcn⟩ := Relation.TransGen.head'_iff.mp hn
      have hless := h.below_count_lt hS hd hc
      rw [Forest.routes_succ, List.mem_flatMap]
      refine ⟨c, hc, ?_⟩
      rcases Relation.reflTransGen_iff_eq_or_transGen.mp hcn with rfl | hbelow
      · exact List.mem_cons_self
      · exact List.mem_cons_of_mem _ (ih (hd.child hc) (by omega) hbelow)

end Depth

end BaSic.Lib
