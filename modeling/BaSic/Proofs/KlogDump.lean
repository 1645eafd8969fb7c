import BaSic.Kernel.Klog

namespace BaSic.Proofs.KlogDump
open Kernel

/-- The slot of the line with number `t`, counted from the first ever written. -/
def slot (t : Nat) : Fin 64 := Fin.ofNat 64 t

/-- The log after `all` was written: the last 64 of these lines are in their slots. -/
structure Logged (log : Klog) (all : List (List UInt8)) : Prop where
  count : log.logCount = min all.length 64
  head : log.logHead = slot all.length
  rows : ∀ t, t < all.length → all.length ≤ t + 64 → ∀ j, j ≤ 79 → log.logBuf (slot t) j = (all.getD t []).getD j 0
  short : ∀ l ∈ all, l.length ≤ 79 ∧ (0 : UInt8) ∉ l

variable {log : Klog} {all : List (List UInt8)} {s : Kprintf} {t u i j k : Nat} {c : UInt8}

theorem slot_eq_iff : slot t = slot u ↔ t % 64 = u % 64 := Fin.ext_iff

theorem slot_succ (t : Nat) : slot t + 1 = slot (t + 1) := by
  refine Fin.ext ?_
  change (t % 64 + 1) % 64 = (t + 1) % 64
  omega

theorem slot_add (m i : Nat) : slot m + Fin.ofNat 64 i = slot (m + i) := by
  refine Fin.ext ?_
  change (m % 64 + i % 64) % 64 = (m + i) % 64
  omega

theorem getD_last (all : List (List UInt8)) (l : List UInt8) : (all ++ [l]).getD all.length [] = l := by
  rw [List.getD_eq_getElem?_getD, List.getElem?_concat_length]
  rfl

theorem getD_before {l : List (List UInt8)} (ht : t < all.length) : (all ++ l).getD t [] = all.getD t [] := by
  rw [List.getD_eq_getElem?_getD, List.getElem?_append_left ht, ← List.getD_eq_getElem?_getD]

/-- A row has the text cut to 79 characters, and NULs behind it. -/
theorem copied_row (dst : CharArray) (line : CStr) (hj : j ≤ 79) :
    copyCut dst line (klogWidth - 1) j = (line.chars.take 79).getD j 0 := by
  change Function.update (strncpyFrom dst 0 line.chars 79) 79 0 j = _
  rw [List.getD_eq_getElem?_getD]
  by_cases hlast : j = 79
  · rw [hlast, Function.update_self, List.getElem?_eq_none (List.length_take_le _ _)]
    rfl
  · rw [Function.update_of_ne hlast, strncpy_from_apply, if_pos (by omega), Nat.sub_zero,
      List.getElem?_take_of_lt (by omega), ← List.getD_eq_getElem?_getD]

theorem Logged.write (h : Logged log all) (line : CStr) :
    Logged (klogWrite log line) (all ++ [line.chars.take 79]) := by
  have hlen : (all ++ [line.chars.take 79]).length = all.length + 1 := List.length_append
  constructor
  · have hcount := h.count
    unfold klogWrite klogLines
    dsimp only
    rw [hlen]
    split_ifs <;> omega
  · rw [hlen, ← slot_succ, ← h.head]
    rfl
  · intro t ht hold j hj
    rw [hlen] at ht hold
    unfold klogWrite
    dsimp only
    rw [h.head]
    by_cases htlast : t = all.length
    · subst htlast
      rw [Function.update_self, getD_last]
      exact copied_row _ line hj
    · have hne : slot t ≠ slot all.length := fun heq => by
        have hmod := slot_eq_iff.mp heq
        omega
      rw [Function.update_of_ne hne, getD_before (by omega)]
      exact h.rows t (by omega) (by omega) j hj
  · intro l hl
    rcases List.mem_append.mp hl with hl | hl
    · exact h.short l hl
    · obtain rfl := List.mem_singleton.mp hl
      exact ⟨List.length_take_le _ _, take_no_nul line 79⟩

theorem init_logged : Logged klogInit [] :=
  ⟨rfl, rfl, fun _ h => absurd h (Nat.not_lt_zero _), fun _ h => absurd h List.not_mem_nil⟩

theorem writes_logged (lines : List CStr) (h : Logged log all) :
    Logged (lines.foldl klogWrite log) (all ++ lines.map (fun l => l.chars.take 79)) := by
  induction lines generalizing log all with
  | nil => rwa [List.map_nil, List.append_nil]
  | cons line lines ih =>
    rw [List.foldl_cons, List.map_cons, ← List.singleton_append, ← List.append_assoc]
    exact ih (h.write line)

/-- What a row in its slot has. -/
theorem Logged.row_char (h : Logged log all) (ht : t < all.length) (hold : all.length ≤ t + 64)
    (hj : j < (all.getD t []).length) : log.logBuf (slot t) j = (all.getD t [])[j] ∧ (all.getD t [])[j] ≠ 0 := by
  have hmem : all.getD t [] ∈ all := by
    rw [List.getD_eq_getElem _ _ ht]
    exact List.getElem_mem ht
  obtain ⟨hshort, hnul⟩ := h.short _ hmem
  refine ⟨?_, fun hzero => hnul (hzero ▸ List.getElem_mem hj)⟩
  rw [h.rows t ht hold j (by omega), List.getD_eq_getElem _ _ hj]

theorem kbuf_text (hnul : (0 : UInt8) ∉ s.kbuf) : (kbufText s.kbuf).chars = s.kbuf :=
  List.takeWhile_eq_self_iff.mpr (fun c hc => by
    have hne : c ≠ 0 := fun h => hnul (h ▸ hc)
    simpa using hne)

theorem putc_char (hlen : s.kbuf.length < 255) (hc : c ≠ 10) : kbufPutc s c = { s with kbuf := s.kbuf ++ [c] } := by
  have hroom : ¬ s.kbuf.length ≥ 255 := by omega
  unfold kbufPutc
  rw [if_neg hroom]
  exact if_neg hc

/-- A newline prints and logs what was buffered. -/
theorem putc_newline (h : Logged s.log all) (hlen : s.kbuf.length < 255) (hnul : (0 : UInt8) ∉ s.kbuf) :
    (kbufPutc s 10).kbuf = [] ∧ (kbufPutc s 10).screen = s.screen ++ s.kbuf ++ [10] ∧
      Logged (kbufPutc s 10).log (all ++ [(s.kbuf ++ [10]).take 79]) := by
  have hnul' : (0 : UInt8) ∉ ({ s with kbuf := s.kbuf ++ [10] } : Kprintf).kbuf := by
    rintro hmem
    rcases List.mem_append.mp hmem with hmem | hmem
    · exact hnul hmem
    · simp at hmem
  have htext := kbuf_text hnul'
  have hputc : kbufPutc s 10 = kbufFlush { s with kbuf := s.kbuf ++ [10] } := by
    have hroom : ¬ s.kbuf.length ≥ 255 := by omega
    unfold kbufPutc
    rw [if_neg hroom]
    rfl
  have hne : s.kbuf ++ [10] ≠ [] := by simp
  rw [hputc]
  unfold kbufFlush
  rw [if_neg hne]
  refine ⟨rfl, ?_, ?_⟩
  · dsimp only at htext ⊢
    rw [htext, List.append_assoc]
  · have hwrite := h.write (kbufText (s.kbuf ++ [10]))
    dsimp only at htext ⊢
    rwa [htext] at hwrite

/-- Reading on in a row, as far as no newline makes the log come round to it. -/
theorem puts_part (h : Logged s.log all) (ht : t < all.length) {a b : List UInt8} (hl : (all.getD t []).drop j = a ++ b)
    (hj : s.kbuf.length ≤ j) (hnul : (0 : UInt8) ∉ s.kbuf) (hslack : all.length + a.count 10 ≤ t + 64) :
    ∃ s' new, kbufPutsRow s (slot t) j (80 - j) = kbufPutsRow s' (slot t) (j + a.length) (80 - (j + a.length)) ∧
      Logged s'.log (all ++ new) ∧ new.length = a.count 10 ∧ s'.screen ++ s'.kbuf = s.screen ++ s.kbuf ++ a ∧
      s'.kbuf.length ≤ j + a.length ∧ (0 : UInt8) ∉ s'.kbuf := by
  induction a generalizing s j all with
  | nil => exact ⟨s, [], rfl, by rwa [List.append_nil], rfl, (List.append_nil _).symm, hj, hnul⟩
  | cons c a ih =>
    have hmem : all.getD t [] ∈ all := by
      rw [List.getD_eq_getElem _ _ ht]
      exact List.getElem_mem ht
    have hshort := (h.short _ hmem).1
    have hin : j < (all.getD t []).length := by
      by_contra hout
      rw [List.drop_eq_nil_of_le (by omega)] at hl
      cases hl
    obtain ⟨hread, hne⟩ := h.row_char ht (by omega) hin
    obtain ⟨hc, htail⟩ := List.cons.inj ((List.drop_eq_getElem_cons hin).symm.trans hl)
    rw [hc] at hread hne
    have hsize : 80 - j = 80 - (j + 1) + 1 := by omega
    have hnext : j + (c :: a).length = j + 1 + a.length := by
      rw [List.length_cons]
      omega
    have hputs : kbufPutsRow s (slot t) j (80 - j) = kbufPutsRow (kbufPutc s c) (slot t) (j + 1) (80 - (j + 1)) := by
      rw [hsize]
      conv => lhs; unfold kbufPutsRow
      rw [hread, if_neg hne]
    rw [hputs, hnext]
    by_cases hnew : c = 10
    · subst hnew
      obtain ⟨hkbuf, hscreen, hlogged⟩ := putc_newline h (by omega) hnul
      rw [List.count_cons_self] at hslack
      have hsame : (all ++ [(s.kbuf ++ [10]).take 79]).getD t [] = all.getD t [] := getD_before ht
      obtain ⟨s', new, hs', hlog', hlen', hscreen', hkbuf', hnul'⟩ := ih (j := j + 1) hlogged
        (by rw [List.length_append]; omega) (by rw [hsame]; exact htail) (by rw [hkbuf]; exact Nat.zero_le _)
        (by rw [hkbuf]; exact List.not_mem_nil) (by rw [List.length_append, List.length_singleton]; omega)
      refine ⟨s', (s.kbuf ++ [10]).take 79 :: new, hs', ?_, ?_, ?_, hkbuf', hnul'⟩
      · rwa [List.append_assoc, List.singleton_append] at hlog'
      · rw [List.length_cons, List.count_cons_self, hlen']
      · rw [hscreen', hkbuf, hscreen, List.append_nil, List.append_assoc, List.singleton_append]
    · have hcount : (c :: a).count 10 = a.count 10 := List.count_cons_of_ne hnew
      rw [hcount] at hslack ⊢
      rw [putc_char (by omega) hnew]
      obtain ⟨s', new, hs', hlog', hlen', hscreen', hkbuf', hnul'⟩ :=
        ih (s := { s with kbuf := s.kbuf ++ [c] }) (j := j + 1) h ht
        htail (by rw [List.length_append, List.length_singleton]; omega)
        (fun hmem => (List.mem_append.mp hmem).elim hnul (fun hmem => hne (List.mem_singleton.mp hmem).symm)) hslack
      refine ⟨s', new, hs', hlog', hlen', ?_, hkbuf', hnul'⟩
      rw [hscreen']
      dsimp only
      rw [List.append_assoc, List.append_assoc, List.append_assoc, List.singleton_append]

/-- Printing a row ends with a newline of its own. -/
theorem print_newline (h : Logged s.log all) (hlen : s.kbuf.length < 255) (hnul : (0 : UInt8) ∉ s.kbuf) :
    (kbufFlush (kbufPutc s 10)).kbuf = [] ∧ (kbufFlush (kbufPutc s 10)).screen = s.screen ++ s.kbuf ++ [10] ∧
      Logged (kbufFlush (kbufPutc s 10)).log (all ++ [(s.kbuf ++ [10]).take 79]) := by
  obtain ⟨hkbuf, hscreen, hlogged⟩ := putc_newline h hlen hnul
  have hflush : kbufFlush (kbufPutc s 10) = kbufPutc s 10 := if_pos hkbuf
  rw [hflush]
  exact ⟨hkbuf, hscreen, hlogged⟩

/-- A row stops where its text does. -/
theorem puts_stop (h : s.log.logBuf (slot t) j = 0) (k : Nat) : kbufPutsRow s (slot t) j k = s := by
  cases k with
  | zero => rfl
  | succ k => exact if_pos h

/-- A line that is not overwritten before it is read is printed as it is. -/
theorem row_printed (hempty : s.kbuf = []) (h : Logged s.log all) (ht : t < all.length)
    (hslack : all.length + (all.getD t []).count 10 ≤ t + 64) :
    ∃ new, (kprintfRow s (slot t)).kbuf = [] ∧ Logged (kprintfRow s (slot t)).log (all ++ new) ∧
      new.length = (all.getD t []).count 10 + 1 ∧
      (kprintfRow s (slot t)).screen = s.screen ++ (all.getD t [] ++ [10]) := by
  have hmem : all.getD t [] ∈ all := by
    rw [List.getD_eq_getElem _ _ ht]
    exact List.getElem_mem ht
  have hshort := (h.short _ hmem).1
  obtain ⟨s', new, hs', hlogged, hnew, hscreen, hkbuf, hnul⟩ := puts_part (b := []) (j := 0) h ht
    (by rw [List.drop_zero, List.append_nil]) (by rw [hempty]; exact Nat.le_refl _)
    (by rw [hempty]; exact List.not_mem_nil) hslack
  have hnewlen : (all ++ new).length = all.length + (all.getD t []).count 10 := by rw [List.length_append, hnew]
  have hend : s'.log.logBuf (slot t) (0 + (all.getD t []).length) = 0 := by
    rw [Nat.zero_add, hlogged.rows t (by omega) (by omega) _ hshort, getD_before ht]
    exact List.getD_eq_default _ _ (Nat.le_refl _)
  have hputs : kbufPutsRow s (slot t) 0 klogWidth = s' := hs'.trans (puts_stop hend _)
  obtain ⟨hkbuf', hscreen', hlogged'⟩ := print_newline hlogged (by omega) hnul
  unfold kprintfRow
  rw [hputs]
  refine ⟨new ++ [(s'.kbuf ++ [10]).take 79], hkbuf', by rwa [← List.append_assoc], ?_, ?_⟩
  · rw [List.length_append, hnew, List.length_singleton]
  · rw [hscreen', hscreen, hempty, List.append_nil, List.append_assoc]

/-- A line the log comes round to while it is read is cut at the newline that does it, and an
empty line is logged behind it. -/
theorem row_cut (hempty : s.kbuf = []) (h : Logged s.log all) (ht : t < all.length) {a b : List UInt8}
    (hl : all.getD t [] = a ++ 10 :: b) (hslack : all.length + a.count 10 = t + 64) :
    ∃ new, (kprintfRow s (slot t)).kbuf = [] ∧
      Logged (kprintfRow s (slot t)).log (all ++ new ++ [[10]]) ∧ (all ++ new).length = t + 65 ∧
      (kprintfRow s (slot t)).screen = s.screen ++ (a ++ [10] ++ [10]) := by
  have hmem : all.getD t [] ∈ all := by
    rw [List.getD_eq_getElem _ _ ht]
    exact List.getElem_mem ht
  have hshort := (h.short _ hmem).1
  have hlen : (all.getD t []).length = a.length + 1 + b.length := by
    rw [hl, List.length_append, List.length_cons]
    omega
  obtain ⟨s', new, hs', hlogged, hnew, hscreen, hkbuf, hnul⟩ := puts_part (j := 0) h ht (List.drop_zero.trans hl)
    (by rw [hempty]; exact Nat.le_refl _) (by rw [hempty]; exact List.not_mem_nil) (Nat.le_of_eq hslack)
  rw [Nat.zero_add] at hs' hkbuf
  have hnewlen : (all ++ new).length = t + 64 := by rw [List.length_append, hnew, hslack]
  have hsame : (all ++ new).getD t [] = a ++ 10 :: b := (getD_before ht).trans hl
  have hread : s'.log.logBuf (slot t) a.length = 10 := by
    rw [hlogged.rows t (by omega) (by omega) _ (by omega), hsame, List.getD_eq_getElem?_getD,
      List.getElem?_append_right (Nat.le_refl _), Nat.sub_self]
    rfl
  obtain ⟨hkbuf', hscreen', hlogged'⟩ := putc_newline hlogged (by omega) hnul
  have hlast : (all ++ new ++ [(s'.kbuf ++ [10]).take 79]).length = t + 65 := by
    rw [List.length_append, hnewlen, List.length_singleton]
  -- the row read is now the one just logged, which is no longer than what was read
  have hend : (kbufPutc s' 10).log.logBuf (slot t) (a.length + 1) = 0 := by
    have hround : slot t = slot (t + 64) := slot_eq_iff.mpr (by omega)
    have hwritten := hlogged'.rows (t + 64) (by omega) (by omega) (a.length + 1) (by omega)
    rw [hround, hwritten, ← hnewlen, getD_last]
    refine List.getD_eq_default _ _ (Nat.le_trans (List.length_take_le' _ _) ?_)
    rw [List.length_append, List.length_singleton]
    omega
  have hsize : 80 - a.length = 80 - (a.length + 1) + 1 := by omega
  have hputs : kbufPutsRow s (slot t) 0 klogWidth = kbufPutc s' 10 := by
    refine hs'.trans ?_
    rw [hsize]
    conv => lhs; unfold kbufPutsRow
    rw [hread, if_neg (by decide)]
    exact puts_stop hend _
  have hnul' : (0 : UInt8) ∉ (kbufPutc s' 10).kbuf := by
    rw [hkbuf']
    exact List.not_mem_nil
  obtain ⟨hkbuf'', hscreen'', hlogged''⟩ := print_newline hlogged' (by rw [hkbuf']; decide) hnul'
  unfold kprintfRow
  rw [hputs]
  refine ⟨new ++ [(s'.kbuf ++ [10]).take 79], hkbuf'', ?_, ?_, ?_⟩
  · rw [hkbuf'] at hlogged''
    rw [← List.append_assoc]
    exact hlogged''
  · rw [← List.append_assoc]
    exact hlast
  · rw [hscreen'', hkbuf', hscreen', hscreen, hempty]
    simp only [List.append_nil, List.append_assoc]

/-- All lines logged since the log came round to line `t` are empty. -/
def Blank (all : List (List UInt8)) (t : Nat) : Prop :=
  t + 64 < all.length ∧ ∀ u, t + 64 ≤ u → u < all.length → all.getD u [] = [10]

theorem blank_row (h : Logged log all) (hblank : Blank all t) (hj : j ≤ 79) :
    log.logBuf (slot t) j = ([10] : List UInt8).getD j 0 := by
  obtain ⟨hround, hrows⟩ := hblank
  -- the last line in the slot of line `t`
  obtain ⟨u, hu⟩ : ∃ u, u = all.length - 1 - (all.length - 1 - t) % 64 := ⟨_, rfl⟩
  have hslot : slot t = slot u := slot_eq_iff.mpr (by omega)
  rw [hslot, h.rows u (by omega) (by omega) j hj, hrows u (by omega) (by omega)]

theorem Blank.snoc (h : Blank all t) : Blank (all ++ [[10]]) t := by
  refine ⟨by rw [List.length_append]; exact Nat.lt_of_lt_of_le h.1 (Nat.le_add_right _ _), fun u hu hlen => ?_⟩
  rw [List.length_append, List.length_singleton] at hlen
  by_cases hlast : u = all.length
  · rw [hlast]
    exact getD_last _ _
  · rw [getD_before (by omega)]
    exact h.2 u hu (by omega)

/-- From then on each row prints two newlines. -/
theorem row_blank (hempty : s.kbuf = []) (h : Logged s.log all) (hblank : Blank all t) :
    (kprintfRow s (slot t)).kbuf = [] ∧ Logged (kprintfRow s (slot t)).log (all ++ [[10]] ++ [[10]]) ∧
      (kprintfRow s (slot t)).screen = s.screen ++ [10, 10] := by
  have hnul : (0 : UInt8) ∉ s.kbuf := by
    rw [hempty]
    exact List.not_mem_nil
  obtain ⟨hkbuf, hscreen, hlogged⟩ := putc_newline h (by rw [hempty]; decide) hnul
  rw [hempty] at hlogged
  have hread : s.log.logBuf (slot t) 0 = 10 := blank_row h hblank (by decide)
  have hend : (kbufPutc s 10).log.logBuf (slot t) (0 + 1) = 0 := blank_row hlogged hblank.snoc (by decide)
  have hputs : kbufPutsRow s (slot t) 0 klogWidth = kbufPutc s 10 := by
    unfold klogWidth kbufPutsRow
    rw [hread, if_neg (by decide)]
    exact puts_stop hend _
  have hnul' : (0 : UInt8) ∉ (kbufPutc s 10).kbuf := by
    rw [hkbuf]
    exact List.not_mem_nil
  obtain ⟨hkbuf', hscreen', hlogged'⟩ := print_newline hlogged (by rw [hkbuf]; decide) hnul'
  unfold kprintfRow
  rw [hputs]
  refine ⟨hkbuf', ?_, ?_⟩
  · rw [hkbuf] at hlogged'
    exact hlogged'
  · rw [hscreen', hkbuf, hscreen, hempty, List.append_nil, List.append_nil, List.append_assoc]
    rfl

/-- The rounds of the dump that are left after a line was cut. -/
theorem dump_blank (hempty : s.kbuf = []) {m : Nat} (h : Logged s.log all) (hblank : Blank all (m + i))
    (hk : i + k = 64) :
    (dumpFrom s (slot m) i k).screen = s.screen ++ List.replicate (2 * k) 10 := by
  induction k generalizing s i all with
  | zero => exact (List.append_nil _).symm
  | succ k ih =>
    have hround := hblank.1
    have hcount : i < s.log.logCount := by
      rw [h.count]
      omega
    obtain ⟨hkbuf, hlogged, hscreen⟩ := row_blank hempty h hblank
    have hnext : Blank (all ++ [[10]] ++ [[10]]) (m + (i + 1)) := by
      refine ⟨by simp only [List.length_append, List.length_singleton]; omega, fun u hu hlen => ?_⟩
      exact hblank.snoc.snoc.2 u (by omega) hlen
    unfold dumpFrom
    rw [if_pos hcount, slot_add, ih hkbuf hlogged hnext (by omega), hscreen, List.append_assoc]
    refine congrArg (s.screen ++ ·) ?_
    have htwo : 2 * (k + 1) = 2 * k + 1 + 1 := by omega
    rw [htwo, List.replicate_succ, List.replicate_succ]
    rfl

theorem flush_grows (s : Kprintf) : s.screen <+: (kbufFlush s).screen := by
  unfold kbufFlush
  split_ifs
  · exact List.prefix_refl _
  · exact List.prefix_append _ _

theorem putc_grows (s : Kprintf) (c : UInt8) : s.screen <+: (kbufPutc s c).screen := by
  unfold kbufPutc
  by_cases hfull : s.kbuf.length ≥ 255
  · rw [if_pos hfull]
    dsimp only
    split_ifs
    · exact (flush_grows s).trans (flush_grows { kbufFlush s with kbuf := (kbufFlush s).kbuf ++ [c] })
    · exact flush_grows s
  · rw [if_neg hfull]
    dsimp only
    split_ifs
    · exact flush_grows { s with kbuf := s.kbuf ++ [c] }
    · exact List.prefix_refl _

theorem puts_grows (s : Kprintf) (idx : Fin 64) (j k : Nat) : s.screen <+: (kbufPutsRow s idx j k).screen := by
  induction k generalizing s j with
  | zero => exact List.prefix_refl _
  | succ k ih =>
    unfold kbufPutsRow
    split_ifs
    · exact List.prefix_refl _
    · exact (putc_grows s _).trans (ih _ _)

/-- What is printed stays printed. -/
theorem dump_grows (s : Kprintf) (start : Fin 64) (i k : Nat) : s.screen <+: (dumpFrom s start i k).screen := by
  induction k generalizing s i with
  | zero => exact List.prefix_refl _
  | succ k ih =>
    unfold dumpFrom
    split_ifs
    · refine List.IsPrefix.trans ?_ (ih _ _)
      exact (puts_grows s _ 0 klogWidth).trans ((putc_grows _ 10).trans (flush_grows _))
    · exact List.prefix_refl _

/-- What is behind newline number `b`, counted from 0. -/
def afterNewline : Nat → List UInt8 → List UInt8
  | _, [] => []
  | 0, c :: l => if c = 10 then l else afterNewline 0 l
  | b + 1, c :: l => if c = 10 then afterNewline b l else afterNewline (b + 1) l

theorem split_newline {b : Nat} {l : List UInt8} (h : b < l.count 10) :
    ∃ a, l = a ++ 10 :: afterNewline b l ∧ a.count 10 = b := by
  induction l generalizing b with
  | nil => exact absurd h (Nat.not_lt_zero _)
  | cons c l ih =>
    by_cases hc : c = 10
    · subst hc
      rw [List.count_cons_self] at h
      cases b with
      | zero => exact ⟨[], rfl, rfl⟩
      | succ b =>
        obtain ⟨a, ha, hcount⟩ := ih (Nat.lt_of_succ_lt_succ h)
        refine ⟨10 :: a, ?_, by rw [List.count_cons_self, hcount]⟩
        unfold afterNewline
        rw [if_pos rfl, List.cons_append, ← ha]
    · rw [List.count_cons_of_ne hc] at h
      obtain ⟨a, ha, hcount⟩ := ih h
      refine ⟨c :: a, ?_, by rw [List.count_cons_of_ne hc, hcount]⟩
      cases b with
      | zero =>
        unfold afterNewline
        rw [if_neg hc, List.cons_append, ← ha]
      | succ b =>
        unfold afterNewline
        rw [if_neg hc, List.cons_append, ← ha]

/-- The lines as they are to be printed. -/
def logText (ls : List (List UInt8)) : List UInt8 := ls.flatMap (· ++ [10])

theorem log_text_cons (l : List UInt8) (ls : List (List UInt8)) : logText (l :: ls) = l ++ [10] ++ logText ls :=
  List.flatMap_cons

/-- Where the dump comes out right, from round `i` on: `slack` more newlines in the lines `ls`
and the log comes round to the line being printed. If it never does, the dump must have no lines
or 64, as it goes on to what it logged itself. If it does, the rest of the text has to be the
newlines that are printed instead. -/
def Exact (slack i : Nat) : List (List UInt8) → Prop
  | [] => i = 0 ∨ i = 64
  | l :: ls =>
    if l.count 10 ≤ slack then Exact (slack - l.count 10) (i + 1) ls
    else afterNewline slack l ++ [10] ++ logText ls = List.replicate (2 * (63 - i) + 1) 10

/-- A round past the lines there were prints more. -/
theorem dump_more (hempty : s.kbuf = []) {m : Nat} (h : Logged s.log all) (ht : m + i < all.length)
    (hround : all.length ≤ m + i + 64) (hi : i < 64) (k : Nat) : (dumpFrom s (slot m) i (k + 1)).screen ≠ s.screen := by
  have hcount : i < s.log.logCount := by
    rw [h.count]
    omega
  have hrow : ∃ out, (kprintfRow s (slot (m + i))).screen = s.screen ++ (out ++ [10]) := by
    by_cases hslack : all.length + (all.getD (m + i) []).count 10 ≤ m + i + 64
    · obtain ⟨_, -, -, -, hscreen⟩ := row_printed hempty h ht hslack
      exact ⟨_, hscreen⟩
    · obtain ⟨b, hb⟩ : ∃ b, b = m + i + 64 - all.length := ⟨_, rfl⟩
      obtain ⟨a, ha, hacount⟩ := split_newline (b := b) (l := all.getD (m + i) []) (by omega)
      obtain ⟨_, -, -, -, hscreen⟩ := row_cut hempty h ht ha (by omega)
      exact ⟨_, hscreen⟩
  obtain ⟨out, hout⟩ := hrow
  intro hsame
  have hgrows := dump_grows (kprintfRow s (slot (m + i))) (slot m) (i + 1) k
  unfold dumpFrom at hsame
  rw [if_pos hcount, slot_add] at hsame
  rw [hsame, hout] at hgrows
  have hlen := hgrows.length_le
  rw [List.length_append, List.length_append, List.length_singleton] at hlen
  omega

/-- The rounds of the dump from the line `m + i` on print the lines `ls` exactly when they come out right. -/
theorem dump_from_iff (hempty : s.kbuf = []) {m slack : Nat} (h : Logged s.log all) {ls : List (List UInt8)}
    (hls : ∀ r, r < ls.length → all.getD (m + i + r) [] = ls.getD r []) (hlen : m + i + ls.length ≤ all.length)
    (hslack : all.length + slack = m + i + 64) (hk : i + k = 64) (hlsk : ls.length ≤ k)
    (hstart : if i = 0 then ls = [] → all = [] else m + i < all.length) :
    (dumpFrom s (slot m) i k).screen = s.screen ++ logText ls ↔ Exact slack i ls := by
  induction ls generalizing s i k slack all with
  | nil =>
    rw [show logText [] = [] from rfl, List.append_nil]
    unfold Exact
    by_cases hi : i = 0
    · rw [if_pos hi] at hstart
      have hzero : ¬ i < s.log.logCount := by
        rw [h.count, hstart rfl]
        exact Nat.not_lt_zero _
      obtain ⟨k, rfl⟩ : ∃ k', k = k' + 1 := ⟨k - 1, by omega⟩
      unfold dumpFrom
      rw [if_neg hzero]
      exact iff_of_true rfl (Or.inl hi)
    · rw [if_neg hi] at hstart
      cases k with
      | zero => exact iff_of_true rfl (Or.inr (by omega))
      | succ k =>
        refine iff_of_false (dump_more hempty h hstart (by omega) (by omega) k) ?_
        omega
  | cons l ls ih =>
    rw [List.length_cons] at hlen hlsk
    have hl : all.getD (m + i) [] = l := hls 0 (Nat.zero_lt_succ _)
    have hcount : i < s.log.logCount := by
      rw [h.count]
      omega
    obtain ⟨k, rfl⟩ : ∃ k', k = k' + 1 := ⟨k - 1, by omega⟩
    unfold dumpFrom Exact
    rw [if_pos hcount, slot_add, log_text_cons]
    by_cases hfits : l.count 10 ≤ slack
    · obtain ⟨new, hkbuf, hlogged, hnew, hscreen⟩ :=
        row_printed hempty h (by omega : m + i < all.length) (by rw [hl]; omega)
      rw [hl] at hnew hscreen
      have hnewlen : (all ++ new).length = all.length + l.count 10 + 1 := by rw [List.length_append, hnew]; omega
      have hslack' : (all ++ new).length + (slack - l.count 10) = m + (i + 1) + 64 := by omega
      have hrest := ih (i := i + 1) (k := k) hkbuf hlogged
        (fun r hr => by
          have hnext := hls (r + 1) (Nat.succ_lt_succ hr)
          have hindex : m + (i + 1) + r = m + i + (r + 1) := by omega
          rw [hindex, getD_before (by omega), hnext]
          rfl)
        (by omega) hslack' (by omega) (by omega) (by rw [if_neg (Nat.succ_ne_zero _)]; omega)
      rw [if_pos hfits, ← hrest, hscreen, List.append_assoc s.screen (l ++ [10])]
    · obtain ⟨a, ha, hacount⟩ := split_newline (b := slack) (l := l) (by omega)
      obtain ⟨new, hkbuf, hlogged, hnewlen, hscreen⟩ :=
        row_cut hempty h (by omega : m + i < all.length) (hl.trans ha) (by omega)
      have hblank : Blank (all ++ new ++ [[10]]) (m + (i + 1)) := by
        refine ⟨by rw [List.length_append, List.length_singleton]; omega, fun u hu hulen => ?_⟩
        rw [List.length_append, List.length_singleton] at hulen
        obtain rfl : u = (all ++ new).length := by omega
        exact getD_last _ _
      have hrounds : 2 * (63 - i) + 1 = 2 * k + 1 := by omega
      rw [if_neg hfits, dump_blank hkbuf hlogged hblank (by omega), hscreen, hrounds, List.replicate_succ]
      conv => lhs; rw [ha]
      simp only [List.append_assoc, List.append_cancel_left_eq, List.cons_append,
        List.nil_append, List.cons.injEq, true_and]
      exact eq_comm

/-- What the dump prints after these lines were logged. -/
def dumped (lines : List CStr) : List UInt8 := (klogDump ⟨[], [], lines.foldl klogWrite klogInit⟩).screen

/-- The last 64 of the lines, each cut to 79 characters. -/
def lastLines (lines : List CStr) : List (List UInt8) :=
  (lines.drop (lines.length - 64)).map (fun l => l.chars.take 79)

/-- The dump prints exactly the last lines logged in these cases, and in no other. -/
theorem klog_dump_exact_iff (lines : List CStr) :
    dumped lines = logText (lastLines lines) ↔ Exact (64 - min lines.length 64) 0 (lastLines lines) := by
  have hlogged := writes_logged lines init_logged
  rw [List.nil_append] at hlogged
  have hlength : (lines.map (fun l => l.chars.take 79)).length = lines.length := List.length_map _
  have hlast : lastLines lines = (lines.map (fun l => l.chars.take 79)).drop (lines.length - 64) := List.map_drop
  have hlastlen : (lastLines lines).length = lines.length - (lines.length - 64) := by
    rw [hlast, List.length_drop, hlength]
  have hstart : (if (lines.foldl klogWrite klogInit).logCount < klogLines then (0 : Fin 64)
      else (lines.foldl klogWrite klogInit).logHead) = slot (lines.length - 64) := by
    rw [hlogged.count, hlogged.head, hlength]
    unfold klogLines
    split_ifs with hfew
    · exact (slot_eq_iff (t := 0)).mpr (by omega)
    · exact slot_eq_iff.mpr (by omega)
  unfold dumped klogDump
  dsimp only
  rw [hstart]
  refine (dump_from_iff rfl hlogged (fun r hr => ?_) ?_ ?_ rfl ?_ ?_).trans Iff.rfl
  · rw [hlast, List.getD_eq_getElem?_getD, List.getD_eq_getElem?_getD, List.getElem?_drop, Nat.add_zero]
  · rw [hlength]
    omega
  · rw [hlength]
    omega
  · rw [hlastlen]
    change _ ≤ 64
    omega
  · rw [if_pos rfl]
    intro hnone
    have hzero : lines.length - (lines.length - 64) = 0 := by
      rw [← hlastlen, hnone]
      rfl
    refine List.length_eq_zero_iff.mp ?_
    rw [hlength]
    omega

/-- Lines without newlines come out right if there are none of them, or 64 at least. -/
theorem exact_plain {slack i : Nat} {ls : List (List UInt8)} (h : ∀ l ∈ ls, (10 : UInt8) ∉ l) :
    Exact slack i ls ↔ i + ls.length = 0 ∨ i + ls.length = 64 := by
  induction ls generalizing slack i with
  | nil => exact Iff.rfl
  | cons l ls ih =>
    have hcount : l.count 10 = 0 := List.count_eq_zero.mpr (h l List.mem_cons_self)
    unfold Exact
    rw [hcount, if_pos (Nat.zero_le _), ih (fun x hx => h x (List.mem_cons_of_mem _ hx)), List.length_cons]
    omega

def lineA : CStr := ⟨[97], by decide⟩

/-- One line logged, and the dump prints more than it. -/
theorem one_line_repeated : dumped [lineA] ≠ [97, 10] := by
  decide +kernel

end BaSic.Proofs.KlogDump
