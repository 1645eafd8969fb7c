import Mathlib

namespace BaSic.Lib

/-- Nodes that list their children and name their parents, and the node at the top. -/
structure Forest (α : Type*) where
  root : α
  kids : α → List α
  up : α → Option α

variable {α : Type*} {t u : Forest α} {width : Nat} {p d m n c : α}

def Forest.Child (t : Forest α) (d c : α) : Prop := c ∈ t.kids d

def Forest.Reach (t : Forest α) (n : α) : Prop := Relation.ReflTransGen t.Child t.root n

/-- What the top reaches is a tree: there is no cycle, each node is listed by one node and
once, names that one as its parent, and lists at most `width` others. -/
structure Forest.IsTree (t : Forest α) (width : Nat) : Prop where
  acyclic : ∀ n, t.Reach n → ¬ Relation.TransGen t.Child n n
  once : ∀ d d' c, t.Reach d → t.Reach d' → c ∈ t.kids d → c ∈ t.kids d' → d = d'
  nodup : ∀ d, t.Reach d → (t.kids d).Nodup
  parent : ∀ d c, t.Reach d → c ∈ t.kids d → t.up c = some d
  fits : ∀ d, t.Reach d → (t.kids d).length ≤ width

/-- The part of a tree that can be seen at each node by itself. -/
structure Forest.Linked (t : Forest α) (width : Nat) : Prop where
  top : t.up t.root = none
  nodup : ∀ d, t.Reach d → (t.kids d).Nodup
  parent : ∀ d c, t.Reach d → c ∈ t.kids d → t.up c = some d
  fits : ∀ d, t.Reach d → (t.kids d).length ≤ width

theorem Forest.reach_root (t : Forest α) : t.Reach t.root := Relation.ReflTransGen.refl

theorem Forest.Reach.child (h : t.Reach d) (hc : c ∈ t.kids d) : t.Reach c := Relation.ReflTransGen.tail h hc

/-- What contains the top and the children of its members contains all within reach. -/
theorem Forest.Reach.mem {S : Set α} (h : t.Reach n) (hroot : t.root ∈ S)
    (hclosed : ∀ d ∈ S, ∀ c ∈ t.kids d, c ∈ S) : n ∈ S := by
  induction h with
  | refl => exact hroot
  | tail _ hc ih => exact hclosed _ ih _ hc

theorem Forest.Linked.not_root (h : t.Linked width) (hd : t.Reach d) (hc : c ∈ t.kids d) : c ≠ t.root := by
  rintro rfl
  have hup := h.parent d _ hd hc
  rw [h.top] at hup
  cases hup

/-- Going up from a node on a cycle stays on the cycle, but ends at the root. -/
theorem Forest.Linked.acyclic (h : t.Linked width) (hn : t.Reach n) : ¬ Relation.TransGen t.Child n n := by
  induction hn with
  | refl =>
    intro hcycle
    obtain ⟨d, hd, hc⟩ := Relation.TransGen.tail'_iff.mp hcycle
    exact h.not_root hd hc rfl
  | tail hm hc ih =>
    rename_i m n
    intro hcycle
    obtain ⟨d, hd, hcd⟩ := Relation.TransGen.tail'_iff.mp hcycle
    have hreach : t.Reach d := (Forest.Reach.child hm hc).trans hd
    have hdm : d = m := Option.some.inj ((h.parent d n hreach hcd).symm.trans (h.parent m n hm hc))
    subst hdm
    exact ih (Relation.TransGen.head' hc hd)

theorem Forest.Linked.is_tree (h : t.Linked width) : t.IsTree width := by
  refine ⟨fun n hn => h.acyclic hn, fun d d' c hd hd' hc hc' => ?_, h.nodup, h.parent, h.fits⟩
  exact Option.some.inj ((h.parent d c hd hc).symm.trans (h.parent d' c hd' hc'))

/-- Nothing the top reaches has changed. -/
structure Forest.Same (t u : Forest α) : Prop where
  root : u.root = t.root
  kids : ∀ d, t.Reach d → u.kids d = t.kids d
  up : ∀ c, t.Reach c → u.up c = t.up c

theorem Forest.Same.reach_iff (h : t.Same u) : u.Reach n ↔ t.Reach n := by
  constructor
  · intro hn
    induction hn with
    | refl =>
      rw [h.root]
      exact t.reach_root
    | tail _ hc ih =>
      unfold Forest.Child at hc
      rw [h.kids _ ih] at hc
      exact ih.child hc
  · intro hn
    induction hn with
    | refl =>
      rw [← h.root]
      exact u.reach_root
    | tail hm hc ih =>
      refine ih.child ?_
      rw [h.kids _ hm]
      exact hc

theorem Forest.Linked.same (h : t.Linked width) (hs : t.Same u) : u.Linked width := by
  refine ⟨?_, fun d hd => ?_, fun d c hd hc => ?_, fun d hd => ?_⟩
  · rw [hs.root, hs.up _ t.reach_root]
    exact h.top
  · have hd := hs.reach_iff.mp hd
    rw [hs.kids d hd]
    exact h.nodup d hd
  · have hd := hs.reach_iff.mp hd
    rw [hs.kids d hd] at hc
    rw [hs.up c (hd.child hc)]
    exact h.parent d c hd hc
  · have hd := hs.reach_iff.mp hd
    rw [hs.kids d hd]
    exact h.fits d hd

/-- A new node without children is added at the end of the children of `p`. -/
structure Forest.Link (t u : Forest α) (p n : α) : Prop where
  root : u.root = t.root
  at_parent : u.kids p = t.kids p ++ [n]
  at_node : u.kids n = []
  kids : ∀ d, d ≠ p → d ≠ n → u.kids d = t.kids d
  up_node : u.up n = some p
  up : ∀ c, c ≠ n → u.up c = t.up c

theorem Forest.Link.reach_iff (h : t.Link u p n) (hp : t.Reach p) (hn : ¬ t.Reach n) :
    u.Reach m ↔ t.Reach m ∨ m = n := by
  have hne : ∀ d, t.Reach d → d ≠ n := fun d hd hdn => hn (hdn ▸ hd)
  have hold : ∀ d, t.Reach d → u.Reach d := by
    intro d hd
    induction hd with
    | refl =>
      rw [← h.root]
      exact u.reach_root
    | tail hm hc ih =>
      rename_i d c
      refine ih.child ?_
      by_cases hdp : d = p
      · rw [hdp, h.at_parent]
        exact List.mem_append_left _ (hdp ▸ hc)
      · rw [h.kids d hdp (hne d hm)]
        exact hc
  constructor
  · intro hm
    induction hm with
    | refl =>
      rw [h.root]
      exact Or.inl t.reach_root
    | tail hx hc ih =>
      rename_i d c
      unfold Forest.Child at hc
      rcases ih with hd | rfl
      · by_cases hdp : d = p
        · rw [hdp, h.at_parent] at hc
          rcases List.mem_append.mp hc with hc | hc
          · exact Or.inl (hp.child hc)
          · exact Or.inr (List.mem_singleton.mp hc)
        · rw [h.kids d hdp (hne d hd)] at hc
          exact Or.inl (hd.child hc)
      · rw [h.at_node] at hc
        cases hc
  · rintro (hm | rfl)
    · exact hold m hm
    · refine (hold p hp).child ?_
      rw [h.at_parent]
      exact List.mem_append_right _ (List.mem_singleton_self _)

theorem Forest.Linked.link (h : t.Linked width) (hl : t.Link u p n) (hp : t.Reach p) (hn : ¬ t.Reach n)
    (hroom : (t.kids p).length < width) : u.Linked width := by
  have hne : ∀ d, t.Reach d → d ≠ n := fun d hd hdn => hn (hdn ▸ hd)
  have hfresh : n ∉ t.kids p := fun hc => hn (hp.child hc)
  have hkids : ∀ d, u.Reach d → d ≠ p → u.kids d = t.kids d ∧ t.Reach d ∨ u.kids d = [] := by
    intro d hd hdp
    rcases (hl.reach_iff hp hn).mp hd with hd | rfl
    · exact Or.inl ⟨hl.kids d hdp (hne d hd), hd⟩
    · exact Or.inr hl.at_node
  refine ⟨?_, fun d hd => ?_, fun d c hd hc => ?_, fun d hd => ?_⟩
  · rw [hl.root, hl.up _ (hne _ t.reach_root)]
    exact h.top
  · by_cases hdp : d = p
    · rw [hdp, hl.at_parent]
      exact List.Nodup.append (h.nodup p hp) (List.nodup_singleton n) (List.disjoint_singleton.mpr hfresh)
    · rcases hkids d hd hdp with ⟨hk, hd⟩ | hk
      · rw [hk]
        exact h.nodup d hd
      · rw [hk]
        exact List.nodup_nil
  · by_cases hdp : d = p
    · rw [hdp, hl.at_parent] at hc
      rcases List.mem_append.mp hc with hc | hc
      · rw [hl.up c (hne c (hp.child hc)), hdp]
        exact h.parent p c hp hc
      · rw [List.mem_singleton.mp hc, hl.up_node, hdp]
    · rcases hkids d hd hdp with ⟨hk, hd⟩ | hk
      · rw [hk] at hc
        rw [hl.up c (hne c (hd.child hc))]
        exact h.parent d c hd hc
      · rw [hk] at hc
        cases hc
  · by_cases hdp : d = p
    · rw [hdp, hl.at_parent, List.length_append]
      exact hroom
    · rcases hkids d hd hdp with ⟨hk, hd⟩ | hk
      · rw [hk]
        exact h.fits d hd
      · rw [hk]
        exact Nat.zero_le _

variable [DecidableEq α]

/-- A child of `p` is taken out of the list; its own children do not matter any more. -/
structure Forest.Cut (t u : Forest α) (p n : α) : Prop where
  root : u.root = t.root
  at_parent : u.kids p = (t.kids p).erase n
  kids : ∀ d, d ≠ p → d ≠ n → u.kids d = t.kids d
  up : ∀ c, c ≠ n → u.up c = t.up c

theorem Forest.Cut.reach (hu : t.Cut u p n) (h : t.Linked width) (hp : t.Reach p) (hn : n ∈ t.kids p)
    (hm : u.Reach m) : t.Reach m ∧ m ≠ n := by
  induction hm with
  | refl =>
    rw [hu.root]
    exact ⟨t.reach_root, (h.not_root hp hn).symm⟩
  | tail hx hc ih =>
    rename_i d c
    obtain ⟨hd, hdn⟩ := ih
    unfold Forest.Child at hc
    by_cases hdp : d = p
    · rw [hdp, hu.at_parent] at hc
      obtain ⟨hcn, hc⟩ := (h.nodup p hp).mem_erase_iff.mp hc
      exact ⟨hp.child hc, hcn⟩
    · rw [hu.kids d hdp hdn] at hc
      refine ⟨hd.child hc, ?_⟩
      rintro rfl
      exact hdp (Option.some.inj ((h.parent d c hd hc).symm.trans (h.parent p c hp hn)))

theorem Forest.Linked.cut (h : t.Linked width) (hu : t.Cut u p n) (hp : t.Reach p) (hn : n ∈ t.kids p) :
    u.Linked width := by
  have hsub : ∀ d, u.Reach d → (u.kids d).Sublist (t.kids d) := by
    intro d hd
    by_cases hdp : d = p
    · rw [hdp, hu.at_parent]
      exact List.erase_sublist
    · rw [hu.kids d hdp (hu.reach h hp hn hd).2]
  refine ⟨?_, fun d hd => ?_, fun d c hd hc => ?_, fun d hd => ?_⟩
  · rw [hu.root, hu.up _ (h.not_root hp hn).symm]
    exact h.top
  · exact (h.nodup d (hu.reach h hp hn hd).1).sublist (hsub d hd)
  · rw [hu.up c (hu.reach h hp hn (hd.child hc)).2]
    exact h.parent d c (hu.reach h hp hn hd).1 ((hsub d hd).subset hc)
  · exact (hsub d hd).length_le.trans (h.fits d (hu.reach h hp hn hd).1)

/-- All but a node without children stays within reach. -/
theorem Forest.Cut.keeps (hu : t.Cut u p n) (hleaf : t.kids n = []) (hm : t.Reach m) (hmn : m ≠ n) : u.Reach m := by
  induction hm with
  | refl =>
    rw [← hu.root]
    exact u.reach_root
  | tail hx hc ih =>
    rename_i d c
    unfold Forest.Child at hc
    have hdn : d ≠ n := by
      rintro rfl
      rw [hleaf] at hc
      cases hc
    refine (ih hdn).child ?_
    by_cases hdp : d = p
    · rw [hdp, hu.at_parent]
      exact (List.mem_erase_of_ne hmn).mpr (hdp ▸ hc)
    · rw [hu.kids d hdp hdn]
      exact hc

/-- The children of the node taken out are lost with it. -/
theorem Forest.Cut.loses (hu : t.Cut u p n) (h : t.Linked width) (hp : t.Reach p) (hn : n ∈ t.kids p)
    (hc : c ∈ t.kids n) : ¬ u.Reach c := by
  intro hreach
  have hcroot := h.not_root (hp.child hn) hc
  rcases Relation.ReflTransGen.cases_tail hreach with heq | ⟨d, hd, hdc⟩
  · rw [hu.root] at heq
    exact hcroot heq
  · obtain ⟨htd, hdn⟩ := hu.reach h hp hn hd
    have hmem : c ∈ t.kids d := by
      unfold Forest.Child at hdc
      by_cases hdp : d = p
      · rw [hdp, hu.at_parent] at hdc
        rw [hdp]
        exact List.mem_of_mem_erase hdc
      · rw [hu.kids d hdp hdn] at hdc
        exact hdc
    exact hdn (Option.some.inj ((h.parent d c htd hmem).symm.trans (h.parent n c (hp.child hn) hc)))

/-- A child `n` of `p` becomes the last child of `d`. -/
structure Forest.Move (t u : Forest α) (p n d : α) : Prop where
  root : u.root = t.root
  at_parent : u.kids p = (t.kids p).erase n
  at_target : u.kids d = t.kids d ++ [n]
  kids : ∀ m, m ≠ p → m ≠ d → u.kids m = t.kids m
  up_node : u.up n = some d
  up : ∀ c, c ≠ n → u.up c = t.up c

/-- Moving a node below another child of its parent keeps all within reach. -/
theorem Forest.Move.reach_iff (hu : t.Move u p n d) (h : t.Linked width) (hp : t.Reach p) (hn : n ∈ t.kids p)
    (hd : d ∈ t.kids p) (hdn : d ≠ n) : u.Reach m ↔ t.Reach m := by
  have hbelow : ¬ Relation.ReflTransGen t.Child n p :=
    fun hnp => h.acyclic hp (Relation.TransGen.head' hn hnp)
  -- what is not below the node moved is reached as before
  have habove : ∀ m, t.Reach m → u.Reach m ∨ Relation.ReflTransGen t.Child n m := by
    intro m hm
    induction hm with
    | refl =>
      rw [← hu.root]
      exact Or.inl u.reach_root
    | tail hx hc ih =>
      rename_i x c
      rcases ih with ih | ih
      · by_cases hcn : c = n
        · exact Or.inr (hcn ▸ Relation.ReflTransGen.refl)
        · refine Or.inl (ih.child ?_)
          by_cases hxp : x = p
          · rw [hxp, hu.at_parent]
            exact (List.mem_erase_of_ne hcn).mpr (hxp ▸ hc)
          · by_cases hxd : x = d
            · rw [hxd, hu.at_target]
              exact List.mem_append_left _ (hxd ▸ hc)
            · rw [hu.kids x hxp hxd]
              exact hc
      · exact Or.inr (ih.tail hc)
  have hup : u.Reach p := (habove p hp).resolve_right hbelow
  have hud : u.Reach d := by
    refine hup.child ?_
    rw [hu.at_parent]
    exact (List.mem_erase_of_ne hdn).mpr hd
  have hun : u.Reach n := by
    refine hud.child ?_
    rw [hu.at_target]
    exact List.mem_append_right _ (List.mem_singleton_self _)
  have hunder : ∀ m, Relation.ReflTransGen t.Child n m → u.Reach m := by
    intro m hm
    induction hm with
    | refl => exact hun
    | tail hx hc ih =>
      rename_i x c
      have hxp : x ≠ p := fun hxp => hbelow (hxp ▸ hx)
      refine ih.child ?_
      by_cases hxd : x = d
      · rw [hxd, hu.at_target]
        exact List.mem_append_left _ (hxd ▸ hc)
      · rw [hu.kids x hxp hxd]
        exact hc
  constructor
  · intro hm
    induction hm with
    | refl =>
      rw [hu.root]
      exact t.reach_root
    | tail hx hc ih =>
      rename_i x c
      unfold Forest.Child at hc
      by_cases hxd : x = d
      · rw [hxd, hu.at_target] at hc
        rcases List.mem_append.mp hc with hc | hc
        · exact (hp.child hd).child hc
        · rw [List.mem_singleton.mp hc]
          exact hp.child hn
      · by_cases hxp : x = p
        · rw [hxp, hu.at_parent] at hc
          exact hp.child (List.mem_of_mem_erase hc)
        · rw [hu.kids x hxp hxd] at hc
          exact ih.child hc
  · intro hm
    exact (habove m hm).elim id (hunder m)

theorem Forest.Linked.move (h : t.Linked width) (hu : t.Move u p n d) (hp : t.Reach p) (hn : n ∈ t.kids p)
    (hd : d ∈ t.kids p) (hdn : d ≠ n) (hroom : (t.kids d).length < width) : u.Linked width := by
  have hreach : ∀ m, u.Reach m → t.Reach m := fun m hm => (hu.reach_iff h hp hn hd hdn).mp hm
  have htd := hp.child hd
  have hpd : p ≠ d := by
    rintro rfl
    exact h.acyclic hp (Relation.TransGen.single hd)
  have hfresh : n ∉ t.kids d := fun hc =>
    hpd (Option.some.inj ((h.parent p n hp hn).symm.trans (h.parent d n htd hc)))
  -- apart from `d`, lists have only lost the node
  have hsub : ∀ m, m ≠ d → (u.kids m).Sublist (t.kids m) ∧ (t.Reach m → n ∉ u.kids m) := by
    intro m hmd
    by_cases hmp : m = p
    · rw [hmp, hu.at_parent]
      exact ⟨List.erase_sublist, fun _ => (h.nodup p hp).not_mem_erase⟩
    · rw [hu.kids m hmp hmd]
      refine ⟨List.Sublist.refl _, fun hm hc => hmp ?_⟩
      exact Option.some.inj ((h.parent m n hm hc).symm.trans (h.parent p n hp hn))
  refine ⟨?_, fun m hm => ?_, fun m c hm hc => ?_, fun m hm => ?_⟩
  · rw [hu.root, hu.up _ (h.not_root hp hn).symm]
    exact h.top
  · by_cases hmd : m = d
    · rw [hmd, hu.at_target]
      exact List.Nodup.append (h.nodup d htd) (List.nodup_singleton n) (List.disjoint_singleton.mpr hfresh)
    · exact (h.nodup m (hreach m hm)).sublist (hsub m hmd).1
  · by_cases hmd : m = d
    · rw [hmd, hu.at_target] at hc
      rcases List.mem_append.mp hc with hc | hc
      · have hcn : c ≠ n := fun hcn => hfresh (hcn ▸ hc)
        rw [hu.up c hcn, hmd]
        exact h.parent d c htd hc
      · rw [List.mem_singleton.mp hc, hu.up_node, hmd]
    · have hcn : c ≠ n := fun hcn => (hsub m hmd).2 (hreach m hm) (hcn ▸ hc)
      rw [hu.up c hcn]
      exact h.parent m c (hreach m hm) ((hsub m hmd).1.subset hc)
  · by_cases hmd : m = d
    · rw [hmd, hu.at_target, List.length_append]
      exact hroom
    · exact (hsub m hmd).1.length_le.trans (h.fits m (hreach m hm))

section Labels

variable {α β : Type*} {t u : Forest α} {l k : α → β} {width : Nat} {p d n : α}

/-- No node within reach lists two others of one label. -/
def Forest.Twinless (t : Forest α) (l : α → β) : Prop := ∀ d, t.Reach d → ((t.kids d).map l).Nodup

theorem Forest.Reach.map_kids (hd : t.Reach d) (hl : ∀ m, t.Reach m → k m = l m) : (t.kids d).map k = (t.kids d).map l :=
  List.map_congr_left (fun _ hc => hl _ (hd.child hc))

/-- A node added at the end of a list keeps the labels apart exactly when its own is new there. -/
theorem Forest.Twinless.added_iff (ht : t.Twinless l) (hl : ∀ m, t.Reach m → k m = l m) (hd : t.Reach d)
    {cs : List α} (hcs : cs = t.kids d ++ [n]) : (cs.map k).Nodup ↔ k n ∉ (t.kids d).map l := by
  rw [hcs, List.map_append, hd.map_kids hl, List.map_singleton, List.nodup_append_comm, List.singleton_append,
    List.nodup_cons]
  exact and_iff_left (ht d hd)

theorem Forest.Twinless.sublist (ht : t.Twinless l) (hl : ∀ m, t.Reach m → k m = l m) (hd : t.Reach d)
    {cs : List α} (hcs : cs.Sublist (t.kids d)) : (cs.map k).Nodup := by
  have hmap := hcs.map k
  rw [hd.map_kids hl] at hmap
  exact (ht d hd).sublist hmap

theorem Forest.Same.twinless_iff (h : t.Same u) (hl : ∀ m, t.Reach m → k m = l m) : u.Twinless k ↔ t.Twinless l := by
  refine forall_congr' (fun d => ?_)
  rw [h.reach_iff]
  refine imp_congr_right (fun hd => ?_)
  rw [h.kids d hd, hd.map_kids hl]

/-- A new node keeps the labels apart exactly when its own is new where it is added. -/
theorem Forest.Link.twinless_iff (h : t.Link u p n) (hp : t.Reach p) (hn : ¬ t.Reach n)
    (hl : ∀ m, t.Reach m → k m = l m) (ht : t.Twinless l) : u.Twinless k ↔ k n ∉ (t.kids p).map l := by
  have hadded := ht.added_iff hl hp h.at_parent
  constructor
  · exact fun hu => hadded.mp (hu p ((h.reach_iff hp hn).mpr (Or.inl hp)))
  · intro hnew d hd
    by_cases hdp : d = p
    · rw [hdp]
      exact hadded.mpr hnew
    · rcases (h.reach_iff hp hn).mp hd with hd | rfl
      · have hdn : d ≠ n := fun hdn => hn (hdn ▸ hd)
        rw [h.kids d hdp hdn, hd.map_kids hl]
        exact ht d hd
      · rw [h.at_node]
        exact List.nodup_nil

/-- Another label for a child of `p` keeps the labels apart exactly when no other child has it. -/
theorem Forest.Linked.relabel_iff (h : t.Linked width) (hp : t.Reach p) (hn : n ∈ t.kids p)
    (hk : ∀ m, m ≠ n → k m = l m) (ht : t.Twinless l) :
    t.Twinless k ↔ ∀ c ∈ t.kids p, c ≠ n → l c ≠ k n := by
  constructor
  · intro hu c hc hcn heq
    exact hcn ((List.nodup_map_iff_inj_on (h.nodup p hp)).mp (hu p hp) c hc n hn ((hk c hcn).trans heq))
  · intro hnew d hd
    have hold := (List.nodup_map_iff_inj_on (h.nodup d hd)).mp (ht d hd)
    refine (List.nodup_map_iff_inj_on (h.nodup d hd)).mpr (fun a ha b hb hab => ?_)
    by_cases han : a = n
    · by_cases hbn : b = n
      · exact han.trans hbn.symm
      · have hdp : d = p := Option.some.inj ((h.parent d n hd (han ▸ ha)).symm.trans (h.parent p n hp hn))
        rw [han, hk b hbn] at hab
        exact absurd hab.symm (hnew b (hdp ▸ hb) hbn)
    · by_cases hbn : b = n
      · have hdp : d = p := Option.some.inj ((h.parent d n hd (hbn ▸ hb)).symm.trans (h.parent p n hp hn))
        rw [hbn, hk a han] at hab
        exact absurd hab (hnew a (hdp ▸ ha) han)
      · rw [hk a han, hk b hbn] at hab
        exact hold a ha b hb hab

variable [DecidableEq α]

theorem Forest.Cut.twinless (hu : t.Cut u p n) (h : t.Linked width) (hp : t.Reach p) (hn : n ∈ t.kids p)
    (hl : ∀ m, t.Reach m → k m = l m) (ht : t.Twinless l) : u.Twinless k := by
  intro d hd
  obtain ⟨htd, hdn⟩ := hu.reach h hp hn hd
  refine ht.sublist hl htd ?_
  by_cases hdp : d = p
  · rw [hdp, hu.at_parent]
    exact List.erase_sublist
  · rw [hu.kids d hdp hdn]

/-- A move keeps the labels apart exactly when the label is new where the node goes. -/
theorem Forest.Move.twinless_iff (hu : t.Move u p n d) (h : t.Linked width) (hp : t.Reach p) (hn : n ∈ t.kids p)
    (hd : d ∈ t.kids p) (hdn : d ≠ n) (hl : ∀ m, t.Reach m → k m = l m) (ht : t.Twinless l) :
    u.Twinless k ↔ l n ∉ (t.kids d).map l := by
  have htd := hp.child hd
  have hadded := ht.added_iff hl htd hu.at_target
  rw [hl n (hp.child hn)] at hadded
  constructor
  · exact fun hall => hadded.mp (hall d ((hu.reach_iff h hp hn hd hdn).mpr htd))
  · intro hnew m hm
    have htm := (hu.reach_iff h hp hn hd hdn).mp hm
    by_cases hmd : m = d
    · rw [hmd]
      exact hadded.mpr hnew
    · refine ht.sublist hl htm ?_
      by_cases hmp : m = p
      · rw [hmp, hu.at_parent]
        exact List.erase_sublist
      · rw [hu.kids m hmp hmd]

end Labels

end BaSic.Lib
