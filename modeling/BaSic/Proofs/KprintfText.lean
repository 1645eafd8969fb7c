import BaSic.Proofs.CalcPrint
import BaSic.Proofs.KlogDump

namespace BaSic.Proofs.KprintfText
open Kernel CalcPrint KlogDump Lib.Decimal

/-- The character of a digit in base 16 or less. -/
def figure (d : Nat) : UInt8 := digits.getD d 0

def figures (b n : Nat) : List UInt8 := (written b n).map figure

def intFigures (x : Int) : List UInt8 := if x < 0 then 45 :: figures 10 x.natAbs else figures 10 x.natAbs

/-- What a format prints, given its arguments: those not used are ignored. -/
inductive Prints : List UInt8 → List KArg → List UInt8 → Prop where
  | done (args : List KArg) : Prints [] args []
  | char {fmt text : List UInt8} {args : List KArg} {c : UInt8} (hc : c ≠ 37) (rest : Prints fmt args text) :
      Prints (c :: fmt) args (c :: text)
  | str {fmt text : List UInt8} {args : List KArg} (s : CStr) (rest : Prints fmt args text) :
      Prints (37 :: 115 :: fmt) (.str (some s) :: args) (s.chars ++ text)
  | null {fmt text : List UInt8} {args : List KArg} (rest : Prints fmt args text) :
      Prints (37 :: 115 :: fmt) (.str none :: args) (nullText ++ text)
  | int {fmt text : List UInt8} {args : List KArg} (w : UInt32) (rest : Prints fmt args text) :
      Prints (37 :: 100 :: fmt) (.word w :: args) (intFigures w.toInt32.toInt ++ text)
  | uint {fmt text : List UInt8} {args : List KArg} (w : UInt32) (rest : Prints fmt args text) :
      Prints (37 :: 117 :: fmt) (.word w :: args) (figures 10 w.toNat ++ text)
  | hex {fmt text : List UInt8} {args : List KArg} (w : UInt32) (rest : Prints fmt args text) :
      Prints (37 :: 120 :: fmt) (.word w :: args) ([48, 120] ++ figures 16 w.toNat ++ text)
  | chr {fmt text : List UInt8} {args : List KArg} (w : UInt32) (rest : Prints fmt args text) :
      Prints (37 :: 99 :: fmt) (.word w :: args) (w.toUInt8 :: text)
  | percent {fmt text : List UInt8} {args : List KArg} (rest : Prints fmt args text) :
      Prints (37 :: 37 :: fmt) args (37 :: text)
  | other {fmt text : List UInt8} {args : List KArg} {d : UInt8} (hd : d ∉ [115, 100, 117, 120, 99, 37])
      (rest : Prints fmt args text) : Prints (37 :: d :: fmt) args (37 :: d :: text)

variable {s t : Kprintf} {fmt text : List UInt8} {args : List KArg} {b n d : Nat}

/-- The loop of `kbuf_uint` puts the digits in front of what it has. -/
theorem uint_loop_figures (hlow : 10 ≤ b) (hhigh : b ≤ 16) (pos : Nat) (hn : n < 4294967296) (hfit : n < b ^ pos)
    (text : List UInt8) :
    uintLoop (UInt32.ofNat b) pos (UInt32.ofNat n) text = .ok ((leading b n).map figure ++ text) := by
  have hval : (UInt32.ofNat n).toNat = n := UInt32.toNat_ofNat_of_lt' hn
  have hbase : (UInt32.ofNat b).toNat = b := UInt32.toNat_ofNat_of_lt' (Nat.lt_of_le_of_lt hhigh (by decide))
  induction pos generalizing n text with
  | zero =>
    obtain rfl : n = 0 := Nat.lt_one_iff.mp hfit
    simp [uintLoop, leading_zero]
  | succ pos ih =>
    by_cases hzero : n = 0
    · simp [hzero, uintLoop, leading_zero]
    have hquotient : n / b < 4294967296 := Nat.lt_of_le_of_lt (Nat.div_le_self n b) hn
    have hne : ¬ UInt32.ofNat n = 0 := by
      simpa [← UInt32.toNat_inj, hval] using hzero
    have hdiv : UInt32.ofNat n / UInt32.ofNat b = UInt32.ofNat (n / b) := by
      simp [← UInt32.toNat_inj, hval, hbase, UInt32.toNat_ofNat_of_lt' hquotient]
    have hmod : (UInt32.ofNat n % UInt32.ofNat b).toNat = n % b := by
      simp [hval, hbase]
    have hless : n / b < b ^ pos := by
      apply Nat.div_lt_of_lt_mul
      rwa [pow_succ, Nat.mul_comm] at hfit
    have hrest := ih hquotient hless (figure (n % b) :: text) (UInt32.toNat_ofNat_of_lt' hquotient)
    have hfigure : digits.getD (n % b) 0 = figure (n % b) := rfl
    simp only [uintLoop, if_neg hne, hdiv, hmod, hfigure]
    simpa [leading_step (show 1 < b by omega) (Nat.pos_of_ne_zero hzero)] using hrest

theorem kbuf_uint_figures (hlow : 10 ≤ b) (hhigh : b ≤ 16) (w : UInt32) :
    kbufUint w (UInt32.ofNat b) = .ok (figures b w.toNat) := by
  have hfit : w.toNat < b ^ 31 := by
    have hpow : 10 ^ 31 ≤ b ^ 31 := Nat.pow_le_pow_left hlow 31
    have hw := w.toNat_lt
    omega
  have hrun := uint_loop_figures hlow hhigh 31 w.toNat_lt hfit []
  rw [UInt32.ofNat_toNat] at hrun
  simp only [kbufUint, figures, written]
  by_cases hw : w = 0
  · subst hw
    rfl
  · have hne : ¬ w.toNat = 0 := by simpa [← UInt32.toNat_inj] using hw
    simp [hw, hne, hrun]

theorem kbuf_int_figures (v : Int32) : kbufInt v = .ok (intFigures v.toInt) := by
  rcases i32_cases v with ⟨n, hn, rfl⟩ | ⟨n, hpos, hn, rfl⟩ | rfl
  · have hval : (Int32.ofNat n).toInt = n := Int32.toInt_ofNat_of_lt hn
    have hprint := kbuf_uint_figures (b := 10) (by decide) (by decide) (UInt32.ofNat n)
    rw [UInt32.toNat_ofNat_of_lt' (show n < UInt32.size by simp only [UInt32.size]; omega)] at hprint
    have hnot : ¬ (n : Int) < 0 := by omega
    simpa [kbufInt, not_negative hn, intFigures, hval, hnot] using hprint
  · have hval := neg_value hn
    have hneg : -Int32.ofNat n < 0 := by
      rw [Int32.lt_iff_toInt_lt, hval, Int32.toInt_zero]
      omega
    have hback : (-(-Int32.ofNat n + 1)).toUInt32 + 1 = UInt32.ofNat n := by
      have hone : (1 : Int32).toUInt32 = 1 := rfl
      simp only [Int32.toUInt32_neg, Int32.toUInt32_add, Int32.toUInt32_ofNat', hone]
      grind
    have hprint : kbufUint (UInt32.ofNat n) 10 = .ok (figures 10 (UInt32.ofNat n).toNat) :=
      kbuf_uint_figures (b := 10) (by decide) (by decide) (UInt32.ofNat n)
    rw [UInt32.toNat_ofNat_of_lt' (show n < UInt32.size by simp only [UInt32.size]; omega)] at hprint
    have hlt : (-(n : Int)) < 0 := by omega
    simp only [kbufInt, if_pos hneg, hback, hprint, ok_bind, intFigures, hval, if_pos hlt, Int.natAbs_neg, Int.natAbs_natCast]
  · decide

theorem puts_append (s : Kprintf) (xs ys : List UInt8) : kbufPuts s (xs ++ ys) = kbufPuts (kbufPuts s xs) ys :=
  List.foldl_append

/-- What a directive prints. -/
def Directive (d : UInt8) (args : List KArg) (text : List UInt8) (rest : List KArg) : Prop :=
  ∀ fmt after, Prints fmt rest after → Prints (37 :: d :: fmt) args (text ++ after)

theorem take_str_ok {rest : List KArg} (h : takeStr args = .ok (text, rest)) :
    (∃ str : CStr, args = .str (some str) :: rest ∧ text = str.chars) ∨ args = .str none :: rest ∧ text = nullText := by
  unfold takeStr at h
  split at h
  · cases h
    exact Or.inl ⟨_, rfl, rfl⟩
  · cases h
    exact Or.inr ⟨rfl, rfl⟩
  · cases h

theorem take_word_ok {w : UInt32} {rest : List KArg} (h : takeWord args = .ok (w, rest)) : args = .word w :: rest := by
  unfold takeWord at h
  split at h
  · cases h
    rfl
  · cases h

/-- Whatever comes behind the `%`, what is printed is what the directive says. -/
theorem directive_ok {c : UInt8} {rest : List KArg} (h : directive s c args = .ok (t, rest)) :
    ∃ text, t = kbufPuts s text ∧ Directive c args text rest := by
  unfold directive at h
  split_ifs at h with hs hd hu hx hc hp
  · obtain ⟨⟨text, args'⟩, htake, h⟩ := bind_ok h
    cases h
    subst hs
    refine ⟨text, rfl, fun fmt after hrest => ?_⟩
    rcases take_str_ok htake with ⟨str, rfl, rfl⟩ | ⟨rfl, rfl⟩
    · exact .str str hrest
    · exact .null hrest
  · obtain ⟨⟨w, args'⟩, htake, h⟩ := bind_ok h
    have hargs := take_word_ok htake
    simp only [kbuf_int_figures, ok_bind] at h
    cases h
    subst hd hargs
    exact ⟨_, rfl, fun fmt after hrest => .int w hrest⟩
  · obtain ⟨⟨w, args'⟩, htake, h⟩ := bind_ok h
    have hargs := take_word_ok htake
    have hprint : kbufUint w 10 = .ok (figures 10 w.toNat) := kbuf_uint_figures (b := 10) (by decide) (by decide) w
    simp only [hprint, ok_bind] at h
    cases h
    subst hu hargs
    exact ⟨_, rfl, fun fmt after hrest => .uint w hrest⟩
  · obtain ⟨⟨w, args'⟩, htake, h⟩ := bind_ok h
    have hargs := take_word_ok htake
    have hprint : kbufUint w 16 = .ok (figures 16 w.toNat) := kbuf_uint_figures (b := 16) (by decide) (by decide) w
    simp only [hprint, ok_bind] at h
    cases h
    subst hx hargs
    exact ⟨[48, 120] ++ figures 16 w.toNat, (puts_append s _ _).symm, fun fmt after hrest => .hex w hrest⟩
  · obtain ⟨⟨w, args'⟩, htake, h⟩ := bind_ok h
    have hargs := take_word_ok htake
    cases h
    subst hc hargs
    exact ⟨[w.toUInt8], rfl, fun fmt after hrest => .chr w hrest⟩
  · cases h
    subst hp
    exact ⟨[37], rfl, fun fmt after hrest => .percent hrest⟩
  · cases h
    exact ⟨[37, c], rfl, fun fmt after hrest => .other (by simp [hs, hd, hu, hx, hc, hp]) hrest⟩

/-- The loop prints what the format says, if it comes to its end. -/
theorem loop_ok (h : kprintfLoop s fmt args = .ok t) : ∃ text, Prints fmt args text ∧ t = kbufPuts s text := by
  fun_induction kprintfLoop s fmt args with
  | case1 s args =>
    cases h
    exact ⟨[], .done args, rfl⟩
  | case2 s c args hc ih =>
    obtain ⟨text, hprints, rfl⟩ := ih h
    exact ⟨c :: text, .char hc hprints, rfl⟩
  | case3 s c args hc => cases h
  | case4 s c d fmt args hc ih =>
    obtain ⟨text, hprints, rfl⟩ := ih h
    exact ⟨c :: text, .char hc hprints, rfl⟩
  | case5 s c d fmt args hc ih =>
    obtain ⟨⟨u, rest⟩, hdirective, h⟩ := bind_ok h
    obtain ⟨shown, rfl, hshown⟩ := directive_ok hdirective
    obtain ⟨text, hprints, rfl⟩ := ih _ _ h
    obtain rfl := Decidable.not_not.mp hc
    exact ⟨shown ++ text, hshown fmt text hprints, (puts_append s shown text).symm⟩

/-- What a format says is printed. -/
theorem Prints.loop (h : Prints fmt args text) (s : Kprintf) : kprintfLoop s fmt args = .ok (kbufPuts s text) := by
  have huint : ∀ w, kbufUint w 10 = .ok (figures 10 w.toNat) := kbuf_uint_figures (b := 10) (by decide) (by decide)
  have hhex : ∀ w, kbufUint w 16 = .ok (figures 16 w.toNat) := kbuf_uint_figures (b := 16) (by decide) (by decide)
  induction h generalizing s with
  | done args => rfl
  | @char fmt text args c hc rest ih =>
    have hputs : kbufPuts s (c :: text) = kbufPuts (kbufPutc s c) text := rfl
    rw [hputs, ← ih (kbufPutc s c)]
    cases fmt with
    | nil => simp [kprintfLoop, hc]
    | cons d fmt => simp [kprintfLoop, hc]
  | str str rest ih => simp [kprintfLoop, directive, takeStr, ih, puts_append]
  | null rest ih => simp [kprintfLoop, directive, takeStr, ih, puts_append]
  | int w rest ih => simp [kprintfLoop, directive, takeWord, kbuf_int_figures, ih, puts_append]
  | uint w rest ih => simp [kprintfLoop, directive, takeWord, huint, ih, puts_append]
  | hex w rest ih => simp [kprintfLoop, directive, takeWord, hhex, ih, ← puts_append]
  | chr w rest ih => simp [kprintfLoop, directive, takeWord, ih, kbufPuts]
  | percent rest ih => simp [kprintfLoop, directive, ih, kbufPuts]
  | other hd rest ih =>
    simp only [List.mem_cons, List.not_mem_nil, or_false, not_or] at hd
    simp [kprintfLoop, directive, hd, ih, kbufPuts]

/-- The pieces in which a text goes to the screen and to the log: a piece ends behind a newline,
after 255 characters, or with the text. -/
structure Cut (text : List UInt8) (pieces : List (List UInt8)) : Prop where
  whole : pieces.flatten = text
  piece : ∀ p ∈ pieces, p ≠ [] ∧ p.length ≤ 255 ∧ (10 : UInt8) ∉ p.dropLast
  full : ∀ p ∈ pieces.dropLast, p.getLast? = some 10 ∨ p.length = 255

/-- What has been flushed since the state `s`. -/
def after (s : Kprintf) (pieces : List CStr) (kbuf : List UInt8) : Kprintf :=
  ⟨kbuf, s.screen ++ (pieces.map CStr.chars).flatten, pieces.foldl klogWrite s.log⟩

/-- A piece that has been flushed before the end of the text. -/
def Filled (p : List UInt8) : Prop :=
  p ≠ [] ∧ p.length ≤ 255 ∧ (10 : UInt8) ∉ p.dropLast ∧ (p.getLast? = some 10 ∨ p.length = 255)

variable {pieces : List CStr} {kbuf : List UInt8} {c : UInt8}

theorem flush_after (hne : kbuf ≠ []) (hnul : (0 : UInt8) ∉ kbuf) :
    kbufFlush (after s pieces kbuf) = after s (pieces ++ [⟨kbuf, hnul⟩]) [] := by
  have htext : (kbufText kbuf).chars = kbuf := kbuf_text (s := after s pieces kbuf) hnul
  have hpiece : kbufText kbuf = ⟨kbuf, hnul⟩ := by
    cases hk : kbufText kbuf
    simp_all
  simp [kbufFlush, after, hne, hpiece]

/-- One more character is buffered, when the buffer is full behind a flush; a newline is flushed. -/
theorem putc_after (hfilled : ∀ p ∈ pieces, Filled p.chars) (hlen : kbuf.length ≤ 255) (hplain : (10 : UInt8) ∉ kbuf)
    (hnul : (0 : UInt8) ∉ kbuf) (hc : c ≠ 0) :
    ∃ pieces' kbuf', kbufPutc (after s pieces kbuf) c = after s pieces' kbuf' ∧
      (pieces'.map CStr.chars).flatten ++ kbuf' = (pieces.map CStr.chars).flatten ++ kbuf ++ [c] ∧
      (∀ p ∈ pieces', Filled p.chars) ∧ kbuf'.length ≤ 255 ∧ (10 : UInt8) ∉ kbuf' ∧ (0 : UInt8) ∉ kbuf' := by
  -- after the flush of a full buffer there is room for the character
  obtain ⟨pieces₁, kbuf₁, hflushed, htext, hfilled₁, hroom, hplain₁, hnul₁⟩ : ∃ pieces₁ kbuf₁,
      (if (after s pieces kbuf).kbuf.length ≥ 255 then kbufFlush (after s pieces kbuf) else after s pieces kbuf) =
        after s pieces₁ kbuf₁ ∧
      (pieces₁.map CStr.chars).flatten ++ kbuf₁ = (pieces.map CStr.chars).flatten ++ kbuf ∧
      (∀ p ∈ pieces₁, Filled p.chars) ∧ kbuf₁.length < 255 ∧ (10 : UInt8) ∉ kbuf₁ ∧ (0 : UInt8) ∉ kbuf₁ := by
    by_cases hfull : kbuf.length ≥ 255
    · have hne : kbuf ≠ [] := by
        rintro rfl
        exact absurd hfull (by decide)
      refine ⟨pieces ++ [⟨kbuf, hnul⟩], [], ?_, by simp, ?_, by simp, by simp, by simp⟩
      · rw [← flush_after hne hnul]
        exact if_pos hfull
      · intro p hp
        rcases List.mem_append.mp hp with hold | hnew
        · exact hfilled p hold
        · rw [List.mem_singleton.mp hnew]
          exact ⟨hne, hlen, fun h => hplain (List.mem_of_mem_dropLast h), Or.inr (Nat.le_antisymm hlen hfull)⟩
    · exact ⟨pieces, kbuf, if_neg hfull, rfl, hfilled, by omega, hplain, hnul⟩
  have hputc : kbufPutc (after s pieces kbuf) c =
      if c = 10 then kbufFlush (after s pieces₁ (kbuf₁ ++ [c])) else after s pieces₁ (kbuf₁ ++ [c]) := by
    unfold kbufPutc
    rw [hflushed]
    rfl
  have hnul₂ : (0 : UInt8) ∉ kbuf₁ ++ [c] := by simpa [hnul₁] using hc.symm
  rw [hputc]
  by_cases hnewline : c = 10
  · refine ⟨pieces₁ ++ [⟨kbuf₁ ++ [c], hnul₂⟩], [], ?_, ?_, ?_, by simp, by simp, by simp⟩
    · rw [if_pos hnewline, flush_after (by simp) hnul₂]
    · simp [← htext]
    · intro p hp
      rcases List.mem_append.mp hp with hold | hnew
      · exact hfilled₁ p hold
      · rw [List.mem_singleton.mp hnew]
        exact ⟨by simp, by simpa using hroom, by simpa using hplain₁, Or.inl (by simp [hnewline])⟩
  · refine ⟨pieces₁, kbuf₁ ++ [c], if_neg hnewline, ?_, hfilled₁, by simpa using hroom, ?_, hnul₂⟩
    · rw [← htext, List.append_assoc]
    · simpa [hplain₁] using fun h => hnewline h.symm

theorem puts_after (hfilled : ∀ p ∈ pieces, Filled p.chars) (hlen : kbuf.length ≤ 255) (hplain : (10 : UInt8) ∉ kbuf)
    (hnul : (0 : UInt8) ∉ kbuf) (htext : (0 : UInt8) ∉ text) :
    ∃ pieces' kbuf', kbufPuts (after s pieces kbuf) text = after s pieces' kbuf' ∧
      (pieces'.map CStr.chars).flatten ++ kbuf' = (pieces.map CStr.chars).flatten ++ kbuf ++ text ∧
      (∀ p ∈ pieces', Filled p.chars) ∧ kbuf'.length ≤ 255 ∧ (10 : UInt8) ∉ kbuf' ∧ (0 : UInt8) ∉ kbuf' := by
  induction text generalizing pieces kbuf with
  | nil => exact ⟨pieces, kbuf, rfl, by simp, hfilled, hlen, hplain, hnul⟩
  | cons c text ih =>
    simp only [List.mem_cons, not_or] at htext
    obtain ⟨pieces₁, kbuf₁, hputc, hjoin, hfilled₁, hlen₁, hplain₁, hnul₁⟩ :=
      putc_after (s := s) hfilled hlen hplain hnul (Ne.symm htext.1)
    obtain ⟨pieces₂, kbuf₂, hputs, hjoin₂, hrest⟩ := ih hfilled₁ hlen₁ hplain₁ hnul₁ htext.2
    have hfirst : kbufPuts (after s pieces kbuf) (c :: text) = kbufPuts (kbufPutc (after s pieces kbuf) c) text := rfl
    refine ⟨pieces₂, kbuf₂, ?_, ?_, hrest⟩
    · rw [hfirst, hputc, hputs]
    · rw [hjoin₂, hjoin]
      simp

/-- A text is printed in pieces, and the buffer is empty behind it. -/
theorem text_cut (hempty : s.kbuf = []) (htext : (0 : UInt8) ∉ text) :
    ∃ pieces : List CStr, kbufFlush (kbufPuts s text) = after s pieces [] ∧ Cut text (pieces.map CStr.chars) := by
  have hstart : s = after s [] [] := by
    cases s
    simp_all [after]
  have hnone : ∀ p ∈ ([] : List CStr), Filled p.chars := fun p hp => absurd hp List.not_mem_nil
  have hnil : ([] : List UInt8).length ≤ 255 := by simp
  obtain ⟨pieces, kbuf, hputs, hjoin, hfilled, hlen, hplain, hnul⟩ :=
    puts_after (s := s) hnone hnil (by simp) (by simp) htext
  rw [← hstart] at hputs
  have hjoin : (pieces.map CStr.chars).flatten ++ kbuf = text := by simpa using hjoin
  by_cases hk : kbuf = []
  · subst hk
    refine ⟨pieces, ?_, by simpa using hjoin, ?_, ?_⟩
    · rw [hputs]
      rfl
    · simp only [List.forall_mem_map]
      exact fun p hp => ⟨(hfilled p hp).1, (hfilled p hp).2.1, (hfilled p hp).2.2.1⟩
    · intro p hp
      obtain ⟨q, hq, rfl⟩ := List.mem_map.mp (List.mem_of_mem_dropLast hp)
      exact (hfilled q hq).2.2.2
  · refine ⟨pieces ++ [⟨kbuf, hnul⟩], ?_, ?_, ?_, ?_⟩
    · rw [hputs, flush_after hk hnul]
    · simpa using hjoin
    · simp only [List.forall_mem_map, List.forall_mem_append, List.forall_mem_singleton]
      exact ⟨fun p hp => ⟨(hfilled p hp).1, (hfilled p hp).2.1, (hfilled p hp).2.2.1⟩, hk, hlen,
        fun h => hplain (List.mem_of_mem_dropLast h)⟩
    · simp only [List.map_append, List.map_cons, List.map_nil, List.dropLast_concat, List.forall_mem_map]
      exact fun p hp => (hfilled p hp).2.2.2

/-- A call of `kprintf`. -/
structure KCall where
  fmt : CStr
  args : List KArg

def kprintfAll (s : Kprintf) (calls : List KCall) : Except Fault Kprintf :=
  calls.foldlM (fun s call => kprintf s call.fmt call.args) s

/-- Calls that run to their end print what their formats say of their arguments. Where no NUL is
among it, the screen shows exactly the texts, whatever the buffer does, and the log gets each of
them line by line, in pieces of 255 characters at most. -/
theorem calls_print (hempty : s.kbuf = []) (calls : List KCall) :
    (∀ t, kprintfAll s calls = .ok t → ∃ texts, List.Forall₂ (fun call text => Prints call.fmt.chars call.args text) calls texts) ∧
    ∀ texts, List.Forall₂ (fun call text => Prints call.fmt.chars call.args text) calls texts →
      (∀ text ∈ texts, (0 : UInt8) ∉ text) →
      ∃ t pieces, kprintfAll s calls = .ok t ∧ t.kbuf = [] ∧ t.screen = s.screen ++ texts.flatten ∧
        t.log = pieces.flatten.foldl klogWrite s.log ∧
        List.Forall₂ (fun text cut => Cut text (cut.map CStr.chars)) texts pieces := by
  induction calls generalizing s with
  | nil =>
    refine ⟨fun t _ => ⟨[], .nil⟩, fun texts htexts _ => ?_⟩
    cases htexts
    exact ⟨s, [], rfl, hempty, by simp, rfl, .nil⟩
  | cons call calls ih =>
    have hrun : kprintfAll s (call :: calls) = kprintf s call.fmt call.args >>= fun u => kprintfAll u calls := List.foldlM_cons
    rw [hrun]
    constructor
    · intro t h
      obtain ⟨u, hcall, hcalls⟩ := bind_ok h
      obtain ⟨v, hloop, hflush⟩ := bind_ok hcall
      obtain ⟨text, hprints, -⟩ := loop_ok hloop
      cases hflush
      have hflushed : (kbufFlush v).kbuf = [] := by
        unfold kbufFlush
        split
        · assumption
        · rfl
      obtain ⟨texts, htexts⟩ := (ih hflushed).1 t hcalls
      exact ⟨text :: texts, .cons hprints htexts⟩
    · intro texts htexts hnul
      cases htexts with
      | @cons _ text _ texts hprints htexts =>
        obtain ⟨hfirst, hrest⟩ := List.forall_mem_cons.mp hnul
        obtain ⟨cut, hflush, hcut⟩ := text_cut hempty hfirst
        have hcall : kprintf s call.fmt call.args = .ok (after s cut []) := by
          unfold kprintf
          rw [hprints.loop s, ok_bind, hflush]
        obtain ⟨t, pieces, hcalls, hbuf, hscreen, hlog, hpieces⟩ := (ih (s := after s cut []) rfl).2 texts htexts hrest
        refine ⟨t, cut :: pieces, ?_, hbuf, ?_, ?_, .cons hcut hpieces⟩
        · rw [hcall, ok_bind, hcalls]
        · rw [hscreen]
          simp [after, hcut.whole]
        · rw [hlog]
          simp [after]

/-- `kprintf("pid %d%c", -7, '\n')` -/
def pidCall : KCall := ⟨⟨[112, 105, 100, 32, 37, 100, 37, 99], by simp⟩, [.word 4294967289, .word 10]⟩

theorem calls_print_pid : ∃ t, kprintfAll ⟨[], [], klogInit⟩ [pidCall] = .ok t ∧
    t.screen = [112, 105, 100, 32, 45, 55, 10] := by
  have hprints : Prints pidCall.fmt.chars pidCall.args [112, 105, 100, 32, 45, 55, 10] := by
    have htext : intFigures (4294967289 : UInt32).toInt32.toInt = [45, 55] := by decide
    have hint : Prints [37, 100, 37, 99] pidCall.args ([45, 55] ++ [10]) := htext ▸ .int 4294967289 (.chr 10 (.done []))
    exact .char (by decide) (.char (by decide) (.char (by decide) (.char (by decide) hint)))
  obtain ⟨t, -, hrun, -, hscreen, -⟩ := (calls_print (s := ⟨[], [], klogInit⟩) rfl [pidCall]).2 _ (.cons hprints .nil)
    (by decide)
  exact ⟨t, hrun, hscreen⟩

end BaSic.Proofs.KprintfText
