import BaSic.CString
import BaSic.Lib.FirstHit
import BaSic.Proofs.EditorKeys

namespace BaSic.Proofs.EditorFind
open Kernel Lib Proofs.EditorText Proofs.EditorKeys

variable {s : Editor} {i c : Int} {q : List UInt8}

/-- The query stands in row `p.1` from column `p.2` on. -/
def Occurs (s : Editor) (q : List UInt8) (p : Int × Int) : Prop :=
  (0 ≤ p.1 ∧ p.1 < s.numLines ∧ 0 ≤ p.2) ∧ q <+: ((textOf s).lines.getD p.1.toNat []).drop p.2.toNat

theorem line_at (h₀ : 0 ≤ i) (h₁ : i < s.numLines) : (textOf s).lines.getD i.toNat [] = rowText s i.toNat :=
  tabulate_getD (by omega) []

theorem row_drop (h₀ : 0 ≤ i) (hc : 0 ≤ c) (hlen : c < s.lineLen i) :
    (rowText s i.toNat).drop c.toNat = s.buf i c :: (rowText s i.toNat).drop (c + 1).toNat := by
  have hrow : ((i.toNat : Nat) : Int) = i := Int.toNat_of_nonneg h₀
  have hcol : ((c.toNat : Nat) : Int) = c := Int.toNat_of_nonneg hc
  have hnext : (c + 1).toNat = c.toNat + 1 := by omega
  have hget : (rowText s i.toNat)[c.toNat]? = some (s.buf i c) := by
    simp only [rowText, tabulate_get?, hrow, hcol]
    exact if_pos (by omega)
  obtain ⟨hin, hchar⟩ := List.getElem?_eq_some_iff.mp hget
  rw [hnext, List.drop_eq_getElem_cons hin, hchar]

/-- `strncmp` finds the query where it stands. -/
theorem starts_at_eq (hi : 0 ≤ i ∧ i < 128) (hlen : s.lineLen i ≤ 80) (hnul : 0 ∉ q) (hc : 0 ≤ c)
    (hq : c + q.length ≤ s.lineLen i) :
    startsAt s i c q = .ok (decide (q <+: (rowText s i.toNat).drop c.toNat)) := by
  induction q generalizing c with
  | nil => simp [startsAt]
  | cons a q ih =>
    simp only [List.length_cons, List.mem_cons, not_or] at hq hnul
    rw [row_drop hi.1 hc (by omega)]
    simp only [startsAt, char_at_ok hi.1 hi.2 hc (by omega), ok_bind, List.cons_prefix_cons]
    by_cases hsame : s.buf i c = a
    · rw [if_pos ⟨hsame ▸ Ne.symm hnul.1, hsame⟩, ih hnul.2 (by omega) (by omega)]
      simp [hsame]
    · rw [if_neg (fun hboth => hsame hboth.2)]
      simp [hsame, Ne.symm hsame]

/-- The query stands in row `i` at one of `k` columns. -/
theorem find_from_first (hi : 0 ≤ i ∧ i < 128) (hlen : s.lineLen i ≤ 80) (hnul : 0 ∉ q) {k : Nat} (hc : 0 ≤ c)
    (hk : c + k + q.length ≤ s.lineLen i + 1 ∨ k = 0) : ∃ found, findFrom s q i c k = .ok found ∧
      IsFirst (fun j => (c ≤ j ∧ j < c + k) ∧ q <+: (rowText s i.toNat).drop j.toNat) found := by
  induction k generalizing c with
  | zero =>
    refine ⟨none, rfl, fun j hj => ?_⟩
    omega
  | succ k ih =>
    simp only [findFrom, starts_at_eq hi hlen hnul hc (by omega), ok_bind, decide_eq_true_eq]
    by_cases hhere : q <+: (rowText s i.toNat).drop c.toNat
    · rw [if_pos hhere]
      exact ⟨_, rfl, ⟨by omega, hhere⟩, fun j hj => hj.1.1⟩
    · obtain ⟨found, hfound, hfirst⟩ := ih (c := c + 1) (by omega) (by omega)
      rw [if_neg hhere]
      refine ⟨found, hfound, hfirst.congr (fun j => ?_)⟩
      constructor
      · rintro ⟨hj, hq⟩
        have hne : j ≠ c := fun heq => hhere (heq ▸ hq)
        exact ⟨by omega, hq⟩
      · rintro ⟨hj, hq⟩
        exact ⟨by omega, hq⟩

/-- The query does not go beyond the end of its line. -/
theorem Occurs.inside {p : Int × Int} (h : Occurs s q p) (hq : q ≠ []) : p.2 + q.length ≤ s.lineLen p.1 := by
  obtain ⟨⟨h₀, h₁, h₂⟩, hfront⟩ := h
  have hle := hfront.length_le
  have hpos := List.length_pos_iff.mpr hq
  rw [line_at h₀ h₁, List.length_drop, length_row_text, Int.toNat_of_nonneg h₀] at hle
  omega

/-- Places in reading order: by row, then by column. -/
abbrev Place := Int ×ₗ Int

def cursor (s : Editor) : Place := toLex (s.cy, s.cx)

/-- A search of row `i` from column `c` up to `last`. -/
theorem find_line_first (h : Bounds s) (hi : 0 ≤ i ∧ i < s.numLines) (hnul : 0 ∉ q) (hc : 0 ≤ c)
    {last : Int} (hlast : last ≤ s.lineLen i) :
    ∃ found, findFrom s q i c (last - q.length - c + 1).toNat = .ok found ∧
      IsFirst (fun p : Place => Occurs s q (ofLex p) ∧ (ofLex p).1 = i ∧ c ≤ (ofLex p).2 ∧
        (ofLex p).2 + q.length ≤ last) (found.map (fun j => toLex (i, j))) := by
  have hlines := h.lines
  have hlen := h.lens i hi.1 hi.2
  obtain ⟨found, hfound, hfirst⟩ := find_from_first (s := s) (q := q) (i := i) (c := c)
    (k := (last - q.length - c + 1).toNat) (by omega) hlen.2 hnul hc (by omega)
  have hmono : Monotone (fun j : Int => toLex (i, j)) := fun a b hab => by simpa [Prod.Lex.toLex_le_toLex] using hab
  refine ⟨found, hfound, (hfirst.map hmono).congr (fun p => ?_)⟩
  obtain ⟨r, j, rfl⟩ : ∃ r j, p = toLex (r, j) := ⟨_, _, rfl⟩
  simp only [ofLex_toLex]
  constructor
  · rintro ⟨⟨-, hfront⟩, rfl, hcol⟩
    rw [line_at hi.1 hi.2] at hfront
    exact ⟨j, ⟨by omega, hfront⟩, rfl⟩
  · rintro ⟨a, ⟨ha, hfront⟩, heq⟩
    obtain ⟨rfl, rfl⟩ := Prod.mk.inj (toLex.injective heq)
    refine ⟨⟨⟨hi.1, hi.2, by dsimp only; omega⟩, ?_⟩, rfl, by omega⟩
    rwa [line_at hi.1 hi.2]

theorem cursor_lt (r j : Int) : cursor s < toLex (r, j) ↔ s.cy < r ∨ s.cy = r ∧ s.cx < j := Prod.Lex.toLex_lt_toLex

theorem le_cursor (r j : Int) : toLex (r, j) ≤ cursor s ↔ r < s.cy ∨ r = s.cy ∧ j ≤ s.cx := Prod.Lex.toLex_le_toLex

/-- A search of one row, then of the rows below it. -/
theorem IsFirst.below {P Q R : Place → Prop} {found : Option Int} {rest : Option (Int × Int)}
    (h : IsFirst P (found.map (fun j => toLex (i, j)))) (h' : IsFirst Q (rest.map toLex))
    (hrow : ∀ p, P p → (ofLex p).1 = i) (hbelow : ∀ p, Q p → i < (ofLex p).1) (hR : ∀ p, R p ↔ P p ∨ Q p) :
    IsFirst R (((found.map (fun j => (i, j))).or rest).map toLex) := by
  have hmap : ((found.map (fun j => (i, j))).or rest).map toLex =
      (found.map (fun j => toLex (i, j))).or (rest.map toLex) := by
    cases found with
    | none => rfl
    | some j => rfl
  rw [hmap]
  refine (h.or h' (fun a b ha hb => le_of_lt ?_)).congr hR
  obtain ⟨r, j, rfl⟩ : ∃ r j, a = toLex (r, j) := ⟨_, _, rfl⟩
  obtain ⟨r', j', rfl⟩ : ∃ r j, b = toLex (r, j) := ⟨_, _, rfl⟩
  have hr := hrow _ ha
  have hr' := hbelow _ hb
  exact Prod.Lex.toLex_lt_toLex.mpr (Or.inl (by simp only [ofLex_toLex] at hr hr'; omega))

/-- One more row in front of the rows searched, of which the columns from `c` up to `last` count. -/
theorem IsFirst.next_row {A : Place → Prop} {found : Option Int} {rest : Option (Int × Int)} {c last : Int} {k : Nat}
    (hrow : ∀ j, Occurs s q (i, j) → (A (toLex (i, j)) ↔ c ≤ j ∧ j + q.length ≤ last))
    (h : IsFirst (fun p : Place => Occurs s q (ofLex p) ∧ (ofLex p).1 = i ∧ c ≤ (ofLex p).2 ∧
      (ofLex p).2 + q.length ≤ last) (found.map (fun j => toLex (i, j))))
    (h' : IsFirst (fun p : Place => Occurs s q (ofLex p) ∧ A p ∧ i + 1 ≤ (ofLex p).1 ∧ (ofLex p).1 < i + 1 + k)
      (rest.map toLex)) :
    IsFirst (fun p : Place => Occurs s q (ofLex p) ∧ A p ∧ i ≤ (ofLex p).1 ∧ (ofLex p).1 < i + (k + 1 : Nat))
      (((found.map (fun j => (i, j))).or rest).map toLex) := by
  refine IsFirst.below h h' (fun p hp => hp.2.1) (fun p hp => by omega) (fun p => ?_)
  obtain ⟨r, j, rfl⟩ : ∃ r j, p = toLex (r, j) := ⟨_, _, rfl⟩
  simp only [ofLex_toLex, ← and_or_left]
  refine and_congr_right (fun hocc => ?_)
  by_cases hr : r = i
  · subst hr
    have hcols := hrow j hocc
    constructor
    · exact fun hp => Or.inl ⟨rfl, hcols.mp hp.1⟩
    · rintro (hp | hp)
      · exact ⟨hcols.mpr hp.2, by omega⟩
      · omega
  · constructor
    · exact fun hp => Or.inr ⟨hp.1, by omega⟩
    · rintro (hp | hp)
      · exact absurd hp.1 hr
      · exact ⟨hp.1, by omega⟩

/-- The first loop of `ed_find` from line `i` on. -/
theorem find_forward_first (h : Bounds s) (hnul : 0 ∉ q) (hq : q ≠ []) {k : Nat} (hi : s.cy ≤ i)
    (hk : i + k ≤ s.numLines) : ∃ found, findForward s q i k = .ok found ∧
      IsFirst (fun p : Place => Occurs s q (ofLex p) ∧ cursor s < p ∧ i ≤ (ofLex p).1 ∧ (ofLex p).1 < i + k)
        (found.map toLex) := by
  have hlines := h.lines
  have hrow := h.row
  have hcol := h.col
  induction k generalizing i with
  | zero =>
    refine ⟨none, rfl, fun p hp => ?_⟩
    omega
  | succ k ih =>
    obtain ⟨found, hfound, hfirst⟩ := find_line_first (i := i) (c := if i = s.cy then s.cx + 1 else 0) h (by omega)
      hnul (by split <;> omega) (Int.le_refl _)
    obtain ⟨rest, hrest, hbelow⟩ := ih (i := i + 1) (by omega) (by omega)
    simp only [findForward, len_at_ok (show 0 ≤ i by omega) (by omega), ok_bind, hfound]
    refine ⟨(found.map (fun j => (i, j))).or rest, ?_, ?_⟩
    · cases found with
      | some j => rfl
      | none => exact hrest
    · refine IsFirst.next_row (fun j hocc => ?_) hfirst hbelow
      have hin := hocc.inside hq
      have hplace := hocc.1
      simp only at hin hplace
      rw [cursor_lt]
      split
      · omega
      · omega

/-- The cursor is on a character of the query, which begins at its column or before it. -/
def Covers (s : Editor) (q : List UInt8) (p : Int × Int) : Prop :=
  p.1 = s.cy ∧ p.2 ≤ s.cx ∧ s.cx < p.2 + q.length

/-- The second loop of `ed_find` from line `i` on. -/
theorem find_wrapped_first (h : Bounds s) (hnul : 0 ∉ q) (hq : q ≠ []) {k : Nat} (hi : 0 ≤ i)
    (hk : i + k ≤ s.cy + 1) : ∃ found, findWrapped s q i k = .ok found ∧
      IsFirst (fun p : Place => Occurs s q (ofLex p) ∧ (p ≤ cursor s ∧ ¬ Covers s q (ofLex p)) ∧
        i ≤ (ofLex p).1 ∧ (ofLex p).1 < i + k) (found.map toLex) := by
  have hlines := h.lines
  have hrow := h.row
  have hcol := h.col
  have hpos := List.length_pos_iff.mpr hq
  induction k generalizing i with
  | zero =>
    refine ⟨none, rfl, fun p hp => ?_⟩
    omega
  | succ k ih =>
    have hend : wrapEnd s i = .ok (if i = s.cy then s.cx else s.lineLen i) := by
      simp only [wrapEnd, len_at_ok hi (show i < 128 by omega)]
      split
      · rfl
      · rfl
    have hlast : (if i = s.cy then s.cx else s.lineLen i) ≤ s.lineLen i := by
      split
      · rename_i hcy
        exact hcy ▸ hcol.2
      · exact Int.le_refl _
    obtain ⟨found, hfound, hfirst⟩ := find_line_first (c := 0) h (by omega) hnul (Int.le_refl 0) hlast
    obtain ⟨rest, hrest, hbelow⟩ := ih (i := i + 1) (by omega) (by omega)
    rw [Int.sub_zero] at hfound
    simp only [findWrapped, hend, ok_bind, hfound]
    refine ⟨(found.map (fun j => (i, j))).or rest, ?_, ?_⟩
    · cases found with
      | some j => rfl
      | none => exact hrest
    · refine IsFirst.next_row (fun j hocc => ?_) hfirst hbelow
      have hin := hocc.inside hq
      have hplace := hocc.1
      simp only at hin hplace
      simp only [le_cursor, Covers, ofLex_toLex]
      split
      · omega
      · omega

theorem Covers.le_cursor {p : Place} (h : Covers s q (ofLex p)) : p ≤ cursor s :=
  Prod.Lex.toLex_le_toLex.mpr (Or.inr ⟨h.1, h.2.1⟩)

/-- The places that the cursor lies on come after the others before it. -/
theorem Covers.last {a b : Place} (hle : a ≤ cursor s) (hseen : ¬ Covers s q (ofLex a)) (h : Covers s q (ofLex b)) :
    a ≤ b := by
  obtain ⟨r, j, rfl⟩ : ∃ r j, a = toLex (r, j) := ⟨_, _, rfl⟩
  obtain ⟨r', j', rfl⟩ : ∃ r j, b = toLex (r, j) := ⟨_, _, rfl⟩
  rw [EditorFind.le_cursor] at hle
  simp only [Covers, ofLex_toLex] at hseen h
  rw [Prod.Lex.toLex_le_toLex]
  dsimp only
  omega

/-- The first place with the query after the cursor, round by the beginning of the text, the
place of the cursor itself being the last; or none, if there is none. -/
def FindsFirst (s : Editor) (q : List UInt8) : Prop :=
  ∃ found, edFind s q = .ok found ∧
    IsFirstOfRound (cursor s) (fun p => Occurs s q (ofLex p)) (found.map toLex)

/-- `ed_find` finds the first place if and only if there is none with the query, or one where the
query does not lie over the cursor. -/
theorem finds_first_iff (h : Bounds s) (query : CStr) (hq : query.chars ≠ []) :
    FindsFirst s query.chars ↔ (∀ p, ¬ Occurs s query.chars p) ∨
      ∃ p, Occurs s query.chars p ∧ ¬ Covers s query.chars p := by
  have hrow := h.row
  obtain ⟨found, hfound, hfirst⟩ := find_forward_first (k := (s.numLines - s.cy).toNat) h query.noNul hq
    (Int.le_refl _) (by omega)
  obtain ⟨found', hfound', hfirst'⟩ := find_wrapped_first (k := (s.cy + 1).toNat) h query.noNul hq (Int.le_refl 0)
    (by omega)
  have hrun : edFind s query.chars = .ok (found.or found') := by
    simp only [edFind, if_neg hq, hfound, ok_bind, hfound']
    cases found with
    | none => rfl
    | some p => rfl
  have hbehind : IsFirst (fun p : Place => Occurs s query.chars (ofLex p) ∧ cursor s < p) (found.map toLex) := by
    refine hfirst.congr (fun p => and_congr_right (fun hocc => ?_))
    obtain ⟨r, j, rfl⟩ : ∃ r j, p = toLex (r, j) := ⟨_, _, rfl⟩
    have hplace := hocc.1
    simp only [ofLex_toLex, cursor_lt] at hplace ⊢
    omega
  have hbefore : IsFirst (fun p : Place => Occurs s query.chars (ofLex p) ∧ p ≤ cursor s ∧
      ¬ Covers s query.chars (ofLex p)) (found'.map toLex) := by
    refine hfirst'.congr (fun p => and_congr_right (fun hocc => ?_))
    obtain ⟨r, j, rfl⟩ : ∃ r j, p = toLex (r, j) := ⟨_, _, rfl⟩
    refine iff_self_and.mpr (fun hseen => ?_)
    have hplace := hocc.1
    have hle := (le_cursor r j).mp hseen.1
    simp only [ofLex_toLex] at hplace ⊢
    omega
  have hround := round_iff hbehind hbefore (fun p hp => hp.le_cursor) (fun a b _ hle hseen hb => hb.last hle hseen)
  have hmap : (found.or found').map toLex = (found.map toLex).or (found'.map toLex) := by
    cases found with
    | none => rfl
    | some p => rfl
  rw [← hmap] at hround
  refine Iff.trans ?_ hround
  constructor
  · rintro ⟨result, hresult, hright⟩
    obtain rfl := Except.ok.inj (hrun.symm.trans hresult)
    exact hright
  · exact fun hright => ⟨_, hrun, hright⟩

/-- Three lines with the cursor at the beginning. -/
def atBeginning : Editor := { threeLines with cy := 0, cx := 0 }

theorem at_beginning_bounds : Bounds atBeginning := { three_lines_bounds with row := by decide, col := by decide }

/-- The word in the third line is found. -/
theorem finds_first_word : FindsFirst atBeginning [98, 98] :=
  (finds_first_iff at_beginning_bounds ⟨[98, 98], by decide⟩ (by decide)).mpr
    (Or.inr ⟨(2, 0), ⟨by decide, by decide⟩, fun hcovers => absurd hcovers.1 (by decide)⟩)

/-- A line with one word, the cursor on its first character. -/
def wordEditor : Editor :=
  { bufInit blankEditor with
    buf := fun i j => if i = 0 ∧ j = 0 then 97 else if i = 0 ∧ j = 1 then 98 else 0
    lineLen := fun i => if i = 0 then 2 else 0 }

/-- The word searched for. -/
def word : CStr := ⟨[97, 98], by decide⟩

/-- The word that the cursor is on is not found, though it is there. -/
theorem find_misses_word : ¬ FindsFirst wordEditor word.chars := by
  have hrun : edFind wordEditor word.chars = .ok none := by decide
  have hthere : Occurs wordEditor word.chars (0, 0) := ⟨by decide, by decide⟩
  rintro ⟨found, hfound, hfirst⟩
  obtain rfl := Except.ok.inj (hrun.symm.trans hfound)
  exact hfirst (toLex (0, 0)) hthere

end BaSic.Proofs.EditorFind
