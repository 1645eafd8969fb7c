import BaSic.Kernel.ShellScreen
import BaSic.Proofs.EditorScreen
import BaSic.Proofs.OutputRoom
import BaSic.Proofs.VgaScreen

namespace BaSic.Proofs.ShellScreen
open Kernel Fs Lib OutputRoom
open EditorScreen (colored overlay blankRow onRow on_row_at on_row_other eq_on_row on_row_on_row overlay_congr overlay_nil
  overlay_cons overlay_before overlay_after ed_put_row ed_str_row ed_fill_row str_on_row put_on_row fill_row)
open VgaScreen (MovedUp)

/-- The rows a line takes: one at least, and no more than 80 characters in each. -/
def wrapped (line : List UInt8) : List (List UInt8) :=
  if line.length ≤ 80 then [line] else line.take 80 :: wrapped (line.drop 80)
termination_by line.length
decreasing_by
  rw [List.length_drop]
  omega

/-- The rows of a text. -/
def rowsOf (text : List UInt8) : List (List UInt8) := (text.splitOn 10).flatMap wrapped

/-- What the shell writes goes on a sheet without an end, and the prompt and the status have a row each.
Nothing is below the row the shell is in, but what was on the screen in the beginning. -/
structure Desk where
  paper : Nat → Nat → UInt16
  y : Nat
  prompt : Nat → UInt16
  status : Nat → UInt16
  fresh : ∀ r, y < r → 23 ≤ r → paper r = blankRow .white .black

/-- The desk of a shell that begins in the first row. -/
def Desk.start (fb : Framebuffer) : Desk where
  paper r := if r < 23 then fun c => fb (r * 80 + c) else blankRow .white .black
  y := 0
  prompt c := fb (23 * 80 + c)
  status c := fb (24 * 80 + c)
  fresh _ _ hr := if_neg (Nat.not_lt.mpr hr)

def Desk.feed (d : Desk) : Desk := { d with y := d.y + 1, fresh := fun r hr => d.fresh r (by omega) }

/-- Something is done to the row the shell is in. -/
def Desk.onLine (d : Desk) (f : (Nat → UInt16) → Nat → UInt16) : Desk where
  paper := Function.update d.paper d.y (f (d.paper d.y))
  y := d.y
  prompt := d.prompt
  status := d.status
  fresh r hr hlow := by
    rw [Function.update_of_ne (Nat.ne_of_gt hr)]
    exact d.fresh r hr hlow

def Desk.write (d : Desk) (fg : VgaColor) : List (List UInt8) → Desk
  | [] => d
  | row :: rows => ((d.onLine (fun base => overlay base 0 row fg .black)).feed).write fg rows

/-- What the prompt shows of the directory. -/
def pathShown (cwd : PathStr) : List UInt8 := (lineStr cwd.chars).takeWhile (· ≠ 35)

/-- The prompt in its three colours. -/
def promptOn (cwd : PathStr) (base : Nat → UInt16) : Nat → UInt16 :=
  overlay (overlay (overlay base 0 (bytes "root@baSic_") .lightGreen .black) 11 (58 :: pathShown cwd) .lightCyan .black)
    (12 + (pathShown cwd).length) [35, 32] .white .black

def promptWidth (cwd : PathStr) : Nat := 14 + (pathShown cwd).length

/-- The characters of a line from `i` on, as far as column 78; that of the cursor is reversed. -/
def lineOn (start : Nat) (text : List UInt8) (i cursor : Nat) (base : Nat → UInt16) : Nat → UInt16 := fun c =>
  if start ≤ c ∧ c < 79 then
    (text[c - start]?).elim (base c) (fun ch =>
      if i + (c - start) = cursor then colored ch .black .white else colored ch .white .black)
  else base c

/-- The line behind a prompt, with the cursor on one of its characters or behind it. -/
def typedOn (start : Nat) (line : List UInt8) (cursor : Nat) (base : Nat → UInt16) : Nat → UInt16 :=
  if line.length ≤ cursor then
    overlay (lineOn start line 0 cursor base) (min (start + line.length) 79) [32] .black .lightGrey
  else lineOn start line 0 cursor base

def statusLine (cwd : PathStr) (t : RtcTime) (ticks : UInt32) : Nat → UInt16 :=
  let row := overlay (blankRow .black .darkGrey) 1 (bytes "baSic_ v1.0") .lightGreen .darkGrey
  let row := overlay row 13 (bytes "|") .darkGrey .darkGrey
  let row := overlay row 15 cwd.chars .white .darkGrey
  let row := overlay row 55 (clockText t) .lightCyan .darkGrey
  overlay row 68 (uptimeText ticks) .yellow .darkGrey

/-- What is drawn, on the desk. -/
def Desk.draw (d : Desk) : ShellDraw → Desk
  | .puts text fg => d.write fg (rowsOf text)
  | .newline => d.feed
  | .echo cwd line =>
    d.feed.onLine (fun base => overlay (promptOn cwd base) (promptWidth cwd) line .white .black)
  | .clear => { d with paper := fun _ => blankRow .white .black, y := 0, fresh := fun _ _ _ => rfl }
  | .prompt cwd line cursor =>
    { d with prompt := typedOn (promptWidth cwd) line cursor (promptOn cwd (blankRow .white .black)) }
  | .status cwd t ticks => { d with status := statusLine cwd t ticks }

/-- The screen shows the last 23 rows of the paper, the prompt and the status, and nothing else is touched. -/
structure Shows (fb₀ : Framebuffer) (s : ShellScreen) (d : Desk) : Prop where
  row : s.shellRow = (min d.y 22 : Nat)
  paper : ∀ r < 23, ∀ c < 80, s.fb (r * 80 + c) = d.paper (d.y - 22 + r) c
  prompt : ∀ c < 80, s.fb (23 * 80 + c) = d.prompt c
  status : ∀ c < 80, s.fb (24 * 80 + c) = d.status c
  kept : ∀ i, 2000 ≤ i → s.fb i = fb₀ i

/-- The prompts that have room in their array. -/
def Room : ShellDraw → Prop
  | .echo cwd _ => cwd.chars.length ≤ 33
  | .prompt cwd _ _ => cwd.chars.length ≤ 33
  | _ => True

section Rows

variable {text line part : List UInt8} {c : UInt8}

/-- The rows of a text that goes on in a row with some characters in it. -/
def rowsFrom (part : List UInt8) : List UInt8 → List (List UInt8)
  | [] => [part]
  | c :: text =>
    if c = 10 then part :: rowsFrom [] text
    else if 80 ≤ part.length then part :: rowsFrom [c] text
    else rowsFrom (part ++ [c]) text

theorem wrapped_short (h : line.length ≤ 80) : wrapped line = [line] := by
  unfold wrapped
  exact if_pos h

theorem wrapped_full (h : part.length = 80) (c : UInt8) (line : List UInt8) :
    wrapped (part ++ c :: line) = part :: wrapped (c :: line) := by
  have hlong : ¬ (part ++ c :: line).length ≤ 80 := by
    rw [List.length_append, List.length_cons]
    omega
  rw [wrapped, if_neg hlong, ← h, List.take_left, List.drop_left]

theorem rows_from_eq (h : part.length ≤ 80) (text : List UInt8) : ∃ line lines, text.splitOn 10 = line :: lines ∧
    rowsFrom part text = wrapped (part ++ line) ++ lines.flatMap wrapped := by
  induction text generalizing part with
  | nil => exact ⟨[], [], rfl, by simp [rowsFrom, wrapped_short h]⟩
  | cons c text ih =>
    unfold rowsFrom
    by_cases hc : c = 10
    · obtain ⟨line, lines, hsplit, hrows⟩ := @ih [] (by simp)
      refine ⟨[], line :: lines, ?_, ?_⟩
      · rw [hc, ← hsplit]
        simp [List.splitOn, List.splitOnP_cons_eq_if_modifyHead]
      · rw [if_pos hc, hrows, List.append_nil, wrapped_short h]
        simp
    · have hcut : ∀ line lines, text.splitOn 10 = line :: lines → (c :: text).splitOn 10 = (c :: line) :: lines := by
        intro line lines hsplit
        simp only [List.splitOn] at hsplit
        simp [List.splitOn, List.splitOnP_cons_eq_if_modifyHead, hc, hsplit]
      rw [if_neg hc]
      by_cases hfull : 80 ≤ part.length
      · obtain ⟨line, lines, hsplit, hrows⟩ := @ih [c] (by simp)
        refine ⟨c :: line, lines, hcut line lines hsplit, ?_⟩
        rw [if_pos hfull, hrows, wrapped_full (Nat.le_antisymm h hfull)]
        simp
      · obtain ⟨line, lines, hsplit, hrows⟩ := @ih (part ++ [c]) (by simp; omega)
        refine ⟨c :: line, lines, hcut line lines hsplit, ?_⟩
        rw [if_neg hfull, hrows]
        simp

theorem rows_from_nil (text : List UInt8) : rowsFrom [] text = rowsOf text := by
  obtain ⟨line, lines, hsplit, hrows⟩ := @rows_from_eq [] (Nat.zero_le 80) text
  rw [hrows, rowsOf, hsplit]
  rfl

end Rows

section Steps

variable {fb₀ : Framebuffer} {s : ShellScreen} {d : Desk} {f : (Nat → UInt16) → Nat → UInt16} {n : Nat}

theorem start_shows (fb : Framebuffer) : Shows fb ⟨fb, termTop⟩ (Desk.start fb) where
  row := rfl
  paper r hr c hc := by
    have hfirst : (Desk.start fb).y - 22 + r = r := Nat.zero_add r
    rw [hfirst]
    unfold Desk.start
    dsimp only
    rw [if_pos hr]
  prompt c hc := rfl
  status c hc := rfl
  kept i hi := rfl

/-- The row of the shell on the screen is that of the desk. -/
theorem Shows.on_line (h : Shows fb₀ s d) (hf : ∀ a b : Nat → UInt16, (∀ c < 80, a c = b c) → ∀ c < 80, f a c = f b c) :
    Shows fb₀ { s with fb := onRow s.fb (min d.y 22) f } (d.onLine f) where
  row := h.row
  paper r hr c hc := by
    dsimp only [Desk.onLine]
    by_cases hrow : r = min d.y 22
    · have hline : d.y - 22 + r = d.y := by omega
      rw [hline, Function.update_self, hrow, on_row_at _ _ _ hc]
      refine hf _ _ (fun c hc => ?_) c hc
      rw [h.paper _ (by omega) c hc, ← hrow, hline]
    · rw [Function.update_of_ne (by omega), on_row_other (by omega), h.paper r hr c hc]
  prompt c hc := by
    dsimp only
    rw [on_row_other (by omega), h.prompt c hc]
    rfl
  status c hc := by
    dsimp only
    rw [on_row_other (by omega), h.status c hc]
    rfl
  kept i hi := by
    dsimp only
    rw [on_row_other (by omega), h.kept i hi]

theorem range_rule {α : Type} {I : Nat → α → Prop} {turn : α → Nat → α} {a : α} (n : Nat) (hstart : I 0 a)
    (hturn : ∀ k a, k < n → I k a → I (k + 1) (turn a k)) : I n ((List.range n).foldl turn a) := by
  induction n with
  | zero => exact hstart
  | succ n ih =>
    rw [List.range_succ, List.foldl_append]
    exact hturn n _ (Nat.lt_succ_self n) (ih (fun k a hk => hturn k a (Nat.lt_succ_of_lt hk)))

theorem rows_lifted (fb : Framebuffer) : MovedUp fb (22 * 80)
    ((List.range termBot.toNat).foldl (fun fb r => (List.range vgaWidth).foldl (liftCell r) fb) fb) := by
  refine range_rule (I := fun r fb' => MovedUp fb (r * 80) fb') 22 (fun i => ?_) ?_
  · rw [Nat.zero_mul, if_neg (Nat.not_lt_zero i)]
  intro r fb' hr hrows
  rw [Nat.succ_mul]
  refine range_rule (I := fun c fb' => MovedUp fb (r * 80 + c) fb') 80 hrows ?_
  intro c fb' hc hcells
  have hnext := hcells.next
  rw [show r * 80 + c + 80 = (r + 1) * 80 + c by omega] at hnext
  exact hnext

theorem Shows.feed (h : Shows fb₀ s d) : Shows fb₀ (shellNewline s) d.feed := by
  have hrow := h.row
  have hbot : termBot = 22 := rfl
  unfold shellNewline
  dsimp only
  by_cases hlast : d.y < 22
  · rw [if_neg (by omega)]
    refine ⟨?_, fun r hr c hc => ?_, h.prompt, h.status, h.kept⟩
    · dsimp only [Desk.feed]
      omega
    · dsimp only [Desk.feed]
      rw [h.paper r hr c hc, show d.y - 22 = d.y + 1 - 22 by omega]
  · have hmoved := rows_lifted s.fb
    rw [if_pos (by omega)]
    unfold shellScroll
    dsimp only
    generalize (List.range termBot.toNat).foldl (fun fb r => (List.range vgaWidth).foldl (liftCell r) fb) s.fb = fb at hmoved
    have hfill : Kernel.fillRow fb termBot 32 VgaColor.white.code VgaColor.black.code =
        onRow fb 22 (fun _ => blankRow .white .black) := ed_fill_row fb (by decide) 32 .white .black
    rw [hfill]
    refine ⟨?_, fun r hr c hc => ?_, fun c hc => ?_, fun c hc => ?_, fun i hi => ?_⟩
    · dsimp only [Desk.feed]
      omega
    · dsimp only [Desk.feed]
      by_cases hlow : r = 22
      · rw [hlow, on_row_at _ _ _ hc, d.fresh _ (by omega) (by omega)]
      · have hup := h.paper (r + 1) (by omega) c hc
        rw [on_row_other (by omega), hmoved, if_pos (by omega), show r * 80 + c + 80 = (r + 1) * 80 + c by omega, hup,
          show d.y - 22 + (r + 1) = d.y + 1 - 22 + r by omega]
    · dsimp only
      rw [on_row_other (by omega), hmoved, if_neg (by omega), h.prompt c hc]
      rfl
    · dsimp only
      rw [on_row_other (by omega), hmoved, if_neg (by omega), h.status c hc]
      rfl
    · dsimp only
      rw [on_row_other (by omega), hmoved, if_neg (by omega), h.kept i hi]

theorem Shows.mark (h : Shows fb₀ s d) (col : Nat) (text : List UInt8) (fg bg : VgaColor) :
    Shows fb₀ { s with fb := strAtRow s.fb col s.shellRow text fg.code bg.code }
      (d.onLine (fun base => overlay base col text fg bg)) := by
  have hstr : strAtRow s.fb col s.shellRow text fg.code bg.code =
      onRow s.fb (min d.y 22) (fun base => overlay base col text fg bg) := by
    rw [h.row]
    exact ed_str_row s.fb col (by omega) text fg bg
  rw [hstr]
  exact h.on_line (fun a b hab => overlay_congr hab _ _ _ _)

/-- Two things done to a row are one. -/
theorem on_line_on_line (d : Desk) (f g : (Nat → UInt16) → Nat → UInt16) :
    (d.onLine f).onLine g = d.onLine (fun base => g (f base)) := by
  simp [Desk.onLine]

theorem overlay_append (row : Nat → UInt16) (col : Nat) (text more : List UInt8) (fg bg : VgaColor) :
    overlay row col (text ++ more) fg bg = overlay (overlay row col text fg bg) (col + text.length) more fg bg := by
  induction text generalizing row col with
  | nil => simp [overlay_nil]
  | cons c text ih =>
    rw [List.cons_append, overlay_cons, ih, ← overlay_cons, List.length_cons, Nat.add_right_comm, Nat.add_assoc]

/-- The loop of `shell_puts` in the middle of a row, and the newline behind it. -/
theorem puts_shows (fg : VgaColor) (part text : List UInt8) (hpart : part.length ≤ 80)
    (h : Shows fb₀ s (d.onLine (fun base => overlay base 0 part fg .black))) :
    Shows fb₀ (shellNewline (putsLoop s part.length fg.code text)) (d.write fg (rowsFrom part text)) := by
  induction text generalizing s d part with
  | nil => exact h.feed
  | cons c text ih =>
    have hwidth : vgaWidth = 80 := rfl
    have hblank : ∀ d : Desk, d.onLine (fun base => overlay base 0 [] fg .black) = d := by
      intro d
      simp [Desk.onLine, overlay_nil]
    have hput : ∀ (s : ShellScreen) (d : Desk) (part : List UInt8),
        Shows fb₀ s (d.onLine (fun base => overlay base 0 part fg .black)) →
        Shows fb₀ { s with fb := shellPut s.fb part.length s.shellRow c fg.code VgaColor.black.code }
          (d.onLine (fun base => overlay base 0 (part ++ [c]) fg .black)) := by
      intro s d part h
      have hone := h.on_line (fun a b hab => overlay_congr hab part.length [c] fg .black)
      rw [on_line_on_line] at hone
      simp only [overlay_append, Nat.zero_add]
      have hcell : shellPut s.fb part.length s.shellRow c fg.code VgaColor.black.code =
          onRow s.fb (min d.y 22) (fun base => overlay base part.length [c] fg .black) := by
        rw [h.row]
        exact ed_put_row s.fb part.length (by dsimp only [Desk.onLine]; omega) c fg .black
      rw [hcell]
      exact hone
    unfold putsLoop rowsFrom
    by_cases hc : c = 10
    · rw [if_pos (Or.inl hc), if_pos hc]
      dsimp only
      rw [if_neg (not_not.mpr hc)]
      refine ih [] (Nat.zero_le 80) ?_
      rw [hblank]
      exact h.feed
    · rw [if_neg hc]
      by_cases hfull : 80 ≤ part.length
      · rw [if_pos (Or.inr (by omega)), if_pos hfull]
        dsimp only
        rw [if_pos hc]
        refine ih [c] (by simp) ?_
        have hnext := hput _ _ [] (by rw [hblank]; exact h.feed)
        exact hnext
      · rw [if_neg (not_or.mpr ⟨hc, by omega⟩), if_neg hfull]
        dsimp only
        rw [if_pos hc]
        have hnext := ih (part ++ [c]) (by rw [List.length_append, List.length_singleton]; omega) (hput s d part h)
        rw [List.length_append, List.length_singleton] at hnext
        exact hnext

theorem Shows.puts (h : Shows fb₀ s d) (text : List UInt8) (fg : VgaColor) :
    Shows fb₀ (shellPuts s text fg.code) (d.write fg (rowsOf text)) := by
  have hblank : d.onLine (fun base => overlay base 0 [] fg .black) = d := by
    simp [Desk.onLine, overlay_nil]
  have hloop := puts_shows (d := d) fg [] text (Nat.zero_le 80) (by rw [hblank]; exact h)
  rw [rows_from_nil] at hloop
  exact hloop

theorem Shows.clear (h : Shows fb₀ s d) : Shows fb₀ (cmdClear s) (d.draw .clear) := by
  have hrows : ∀ n ≤ 23, ∀ i, (List.range n).foldl (fun fb (r : Nat) =>
      Kernel.fillRow fb r 32 VgaColor.white.code VgaColor.black.code) s.fb i =
        if i / 80 < n then blankRow .white .black (i % 80) else s.fb i := by
    intro n hn
    refine range_rule (I := fun n (fb : Framebuffer) =>
      ∀ i, fb i = if i / 80 < n then blankRow .white .black (i % 80) else s.fb i) n (fun i => rfl) ?_
    intro k fb hk hfb i
    have hfill : Kernel.fillRow fb (k : Nat) 32 VgaColor.white.code VgaColor.black.code =
        onRow fb k (fun _ => blankRow .white .black) := ed_fill_row fb (by omega) 32 .white .black
    rw [hfill]
    by_cases hi : i / 80 = k
    · rw [if_pos (by omega)]
      exact if_pos hi
    · rw [on_row_other hi, hfb i]
      exact if_congr (by omega) rfl rfl
  have hall := hrows 23 (Nat.le_refl 23)
  have hcount : (termBot + 1).toNat = 23 := rfl
  unfold cmdClear
  rw [hcount]
  generalize (List.range 23).foldl (fun fb (r : Nat) =>
    Kernel.fillRow fb r 32 VgaColor.white.code VgaColor.black.code) s.fb = fb at hall
  refine ⟨rfl, fun r hr c hc => ?_, fun c hc => ?_, fun c hc => ?_, fun i hi => ?_⟩ <;> dsimp only
  · rw [hall, if_pos (by omega)]
    rfl
  · rw [hall, if_neg (by omega)]
    exact h.prompt c hc
  · rw [hall, if_neg (by omega)]
    exact h.status c hc
  · rw [hall, if_neg (by omega)]
    exact h.kept i hi

end Steps

section Prompt

variable {fb : Framebuffer} {row : Nat} {cwd : PathStr} {text line : List UInt8}

theorem put_bytes_ok {size : Nat} {out : List UInt8} (h : out.length + text.length ≤ size) :
    putBytes size out text = .ok (out ++ text) := by
  induction text generalizing out with
  | nil => rw [putBytes, List.append_nil]
  | cons c text ih =>
    rw [List.length_cons] at h
    unfold putBytes putByte
    rw [if_pos (by omega), ok_bind, ih (by rw [List.length_append, List.length_singleton]; omega)]
    simp

theorem take_while_stop {p q : UInt8 → Bool} {c : UInt8} (hc : p c = false) (text more : List UInt8) :
    ((text ++ c :: more).takeWhile q).takeWhile p = (text.takeWhile q).takeWhile p := by
  induction text with
  | nil =>
    by_cases hq : q c <;> simp [hq, hc]
  | cons d text ih =>
    by_cases hq : q d
    · by_cases hp : p d <;> simp [hq, hp, ih]
    · simp [hq]

/-- The string in the array of the prompt, where it has room. -/
theorem prompt_str_eq (h : cwd.chars.length ≤ 33) :
    promptStr cwd = .ok (bytes "root@baSic_" ++ 58 :: lineStr (cwd.chars ++ 35 :: [32, 0])) := by
  have htext : buildPrompt 48 cwd = putBytes 48 [] (bytes "root@baSic_" ++ 58 :: (cwd.chars ++ 35 :: [32, 0])) := by
    have hname : bytes "root@baSic_" = bytes "root" ++ ([64] ++ bytes "baSic_") := by decide +kernel
    have hrest : (58 : UInt8) :: (cwd.chars ++ 35 :: [32, 0]) = [58] ++ (cwd.chars ++ ([35] ++ ([32] ++ [0]))) := rfl
    rw [hname, hrest]
    simp only [buildPrompt, put_byte_eq, put_bytes_append, bind_assoc]
  have hlen : (bytes "root@baSic_").length = 11 := by decide +kernel
  have hnul : ∀ c ∈ bytes "root@baSic_", decide (c ≠ 0) = true := by decide +kernel
  unfold promptStr
  rw [htext, put_bytes_ok (by simp [hlen]; omega), ok_bind, List.nil_append, lineStr,
    List.takeWhile_append_of_pos hnul]
  rfl

theorem prompt_room (hrun : ∃ prompt, promptStr cwd = .ok prompt) : cwd.chars.length ≤ 33 := by
  obtain ⟨prompt, hprompt⟩ := hrun
  obtain ⟨out, hout, -⟩ := bind_ok hprompt
  have htext : buildPrompt 48 cwd =
      putBytes 48 [] (bytes "root" ++ [64] ++ bytes "baSic_" ++ [58] ++ cwd.chars ++ [35] ++ [32] ++ [0]) := by
    simp only [buildPrompt, put_byte_eq, put_bytes_append, bind_assoc]
  have hfits := (put_bytes_fits (show ([] : List UInt8).length ≤ 48 by simp) _).mp ⟨out, htext ▸ hout⟩
  have hroot : (bytes "root").length = 4 := by decide +kernel
  have hhost : (bytes "baSic_").length = 6 := by decide +kernel
  simp only [List.length_append, List.length_nil, List.length_singleton, hroot, hhost] at hfits
  omega

theorem put_run_eq (fb : Framebuffer) (col : Nat) (hrow : row < 25) (fg bg : VgaColor) (text : List UInt8) :
    putRun fb col row fg.code bg.code text =
      (onRow fb row (fun base => overlay base col text fg bg), ((col + text.length : Nat) : Int)) := by
  induction text generalizing fb col with
  | nil =>
    have hnone : fb = onRow fb row (fun base => overlay base col [] fg bg) :=
      eq_on_row (fun c hc => by rw [overlay_nil]) (fun i hi => rfl)
    rw [← hnone]
    rfl
  | cons c text ih =>
    have hput : shellPut fb col row c fg.code bg.code = onRow fb row (fun base => overlay base col [c] fg bg) :=
      ed_put_row fb col hrow c fg bg
    have hnext : ((col : Int) + 1) = ((col + 1 : Nat) : Int) := rfl
    unfold putRun
    rw [hput, hnext, ih, on_row_on_row _ _ _ (fun a b h => overlay_congr h _ _ _ _)]
    simp only [overlay_cons _ col c text, List.length_cons, Nat.add_right_comm, Nat.add_assoc]

theorem draw_prompt_eq (fb : Framebuffer) (hrow : row < 25) (cwd : PathStr) :
    drawPrompt fb row (bytes "root@baSic_" ++ 58 :: lineStr (cwd.chars ++ 35 :: [32, 0])) =
      (onRow fb row (promptOn cwd), (promptWidth cwd : Int)) := by
  have hname : ∀ c ∈ bytes "root@baSic_", decide (c ≠ 58) = true := by decide +kernel
  have hlen : (bytes "root@baSic_").length = 11 := by decide +kernel
  have hbefore : (bytes "root@baSic_" ++ 58 :: lineStr (cwd.chars ++ 35 :: [32, 0])).takeWhile (· ≠ 58) =
      bytes "root@baSic_" := by
    rw [List.takeWhile_append_of_pos hname]
    simp
  have hbehind : ((bytes "root@baSic_" ++ 58 :: lineStr (cwd.chars ++ 35 :: [32, 0])).dropWhile (· ≠ 58)).takeWhile
      (· ≠ 35) = 58 :: pathShown cwd := by
    have hstop := take_while_stop (p := (· ≠ 35)) (q := (· ≠ 0)) (c := 35) (by decide) cwd.chars [32, 0]
    rw [List.dropWhile_append_of_pos hname]
    simpa [pathShown, lineStr] using hstop
  have hput : ∀ (fb : Framebuffer) (col : Nat) (c : UInt8),
      shellPut fb col row c VgaColor.white.code VgaColor.black.code =
        onRow fb row (fun base => overlay base col [c] .white .black) := fun fb col c => ed_put_row fb col hrow c _ _
  have hfirst := put_run_eq fb 0 hrow .lightGreen .black (bytes "root@baSic_")
  have hsecond := put_run_eq (onRow fb row (fun base => overlay base 0 (bytes "root@baSic_") .lightGreen .black)) 11 hrow
    .lightCyan .black (58 :: pathShown cwd)
  rw [hlen] at hfirst
  unfold drawPrompt
  rw [hbefore, hbehind]
  dsimp only
  simp only [Nat.cast_zero, Nat.zero_add] at hfirst
  rw [hfirst]
  dsimp only
  rw [hsecond]
  dsimp only
  have hcol : 11 + (58 :: pathShown cwd).length = 12 + (pathShown cwd).length := by
    rw [List.length_cons]
    omega
  have hnext : ((12 + (pathShown cwd).length : Nat) : Int) + 1 = ((13 + (pathShown cwd).length : Nat) : Int) := by omega
  have hwidth : ((12 + (pathShown cwd).length : Nat) : Int) + 2 = (promptWidth cwd : Int) := by
    unfold promptWidth
    omega
  have htail : ∀ base : Nat → UInt16, overlay base (12 + (pathShown cwd).length) [35, 32] .white .black =
      overlay (overlay base (12 + (pathShown cwd).length) [35] .white .black) (13 + (pathShown cwd).length) [32]
        .white .black := by
    intro base
    rw [overlay_cons, show 12 + (pathShown cwd).length + 1 = 13 + (pathShown cwd).length by omega]
  rw [hcol, hput, hnext, hput, hwidth]
  simp only [on_row_on_row _ _ _ (fun a b h => overlay_congr h _ _ _ _)]
  unfold promptOn
  simp only [htail]

theorem line_on_nil (start i cursor : Nat) (base : Nat → UInt16) : lineOn start [] i cursor base = base := by
  funext c
  simp [lineOn]

theorem line_on_cons {start : Nat} (hstart : start < 79) (c : UInt8) (line : List UInt8) (i cursor : Nat)
    (base : Nat → UInt16) : lineOn start (c :: line) i cursor base =
      lineOn (start + 1) line (i + 1) cursor
        (if i = cursor then overlay base start [c] .black .white else overlay base start [c] .white .black) := by
  funext x
  unfold lineOn
  rcases Nat.lt_trichotomy x start with hx | rfl | hx
  · rw [if_neg (by omega), if_neg (by omega)]
    split <;> rw [overlay_before _ _ hx]
  · rw [if_pos ⟨Nat.le_refl x, hstart⟩, if_neg (by omega)]
    split_ifs <;> simp_all [overlay]
  · have hplace : x - start = x - (start + 1) + 1 := by omega
    have hbase : ∀ fg bg, overlay base start [c] fg bg x = base x := fun fg bg => overlay_after _ _ hx
    have hindex : i + (x - (start + 1) + 1) = i + 1 + (x - (start + 1)) := by omega
    have hrest : (if i = cursor then overlay base start [c] .black .white else overlay base start [c] .white .black) x =
        base x := by
      split <;> exact hbase _ _
    by_cases hroom : x < 79
    · rw [if_pos ⟨Nat.le_of_lt hx, hroom⟩, if_pos ⟨hx, hroom⟩, hplace, List.getElem?_cons_succ, hindex, hrest]
    · rw [if_neg (by omega), if_neg (by omega), hrest]

theorem draw_line_eq (fb : Framebuffer) {col : Nat} (hcol : col ≤ 79) (line : List UInt8) (i cursor : Nat) :
    drawLine fb col cursor i line =
      (onRow fb 23 (lineOn col line i cursor), ((min (col + line.length) 79 : Nat) : Int)) := by
  induction line generalizing fb col i with
  | nil =>
    have hnone : fb = onRow fb 23 (lineOn col [] i cursor) :=
      eq_on_row (fun c hc => by rw [line_on_nil]) (fun i hi => rfl)
    rw [← hnone, List.length_nil, Nat.add_zero, Nat.min_eq_left hcol]
    rfl
  | cons c line ih =>
    have hwidth : vgaWidth = 80 := rfl
    have hnext : ((col : Int) + 1) = ((col + 1 : Nat) : Int) := rfl
    have hturn : ((i : Int) + 1) = ((i + 1 : Nat) : Int) := rfl
    unfold drawLine
    rw [hwidth]
    by_cases hroom : col < 79
    · have hput : ∀ fg bg : VgaColor, shellPut fb col promptRow c fg.code bg.code =
          onRow fb 23 (fun base => overlay base col [c] fg bg) := fun fg bg => ed_put_row fb col (by decide) c fg bg
      have hlocal : ∀ a b : Nat → UInt16, (∀ c < 80, a c = b c) → ∀ x < 80,
          lineOn (col + 1) line (i + 1) cursor a x = lineOn (col + 1) line (i + 1) cursor b x := by
        intro a b hab x hx
        unfold lineOn
        rw [hab x hx]
      have hcount : col + (c :: line).length = col + 1 + line.length := by
        rw [List.length_cons]
        omega
      have hsame : lineOn col (c :: line) i cursor = fun base => lineOn (col + 1) line (i + 1) cursor
          (if i = cursor then overlay base col [c] .black .white else overlay base col [c] .white .black) :=
        funext (line_on_cons hroom c line i cursor)
      have hrest := fun fb => ih fb (show col + 1 ≤ 79 by omega) (i + 1)
      rw [if_pos (by omega), hnext, hturn, hcount]
      by_cases hcursor : i = cursor
      · rw [if_pos (by omega), if_pos (by omega)]
        dsimp only
        rw [hput, hrest, on_row_on_row _ _ _ hlocal]
        simp only [hsame, if_pos hcursor]
      · rw [if_neg (by omega), if_neg (by omega)]
        dsimp only
        rw [hput, hrest, on_row_on_row _ _ _ hlocal]
        simp only [hsame, if_neg hcursor]
    · have hlast : col = 79 := by omega
      have hnone : fb = onRow fb 23 (lineOn col (c :: line) i cursor) := by
        refine eq_on_row (fun x hx => ?_) (fun i hi => rfl)
        unfold lineOn
        rw [if_neg (by omega)]
      rw [if_neg (by omega), ← hnone, Nat.min_eq_right (by omega), hlast]

theorem prompt_on_congr (cwd : PathStr) {a b : Nat → UInt16} (h : ∀ c < 80, a c = b c) :
    ∀ c < 80, promptOn cwd a c = promptOn cwd b c :=
  overlay_congr (overlay_congr (overlay_congr h _ _ _ _) _ _ _ _) _ _ _ _

theorem prompt_width_le (h : cwd.chars.length ≤ 33) : promptWidth cwd ≤ 47 := by
  have hpath : (pathShown cwd).length ≤ cwd.chars.length :=
    (List.takeWhile_sublist _).length_le.trans (List.takeWhile_sublist _).length_le
  unfold promptWidth
  omega

/-- `prompt_redraw` in one: the row has the prompt, the line and the cursor in it. -/
theorem redraw_eq (s : ShellScreen) (h : cwd.chars.length ≤ 33) (line : List UInt8) (cursor : Nat) :
    redrawPrompt s cwd line cursor = .ok { s with
      fb := onRow s.fb 23 (fun _ => typedOn (promptWidth cwd) line cursor (promptOn cwd (blankRow .white .black))) } := by
  have hwidth := prompt_width_le h
  have hscreen : vgaWidth = 80 := rfl
  have hfill : Kernel.fillRow s.fb promptRow 32 VgaColor.white.code VgaColor.black.code =
      onRow s.fb 23 (fun _ => blankRow .white .black) := ed_fill_row s.fb (by decide) 32 .white .black
  have hprompt := draw_prompt_eq (onRow s.fb 23 (fun _ => blankRow .white .black)) (show 23 < 25 by decide) cwd
  have hlocal : ∀ a b : Nat → UInt16, (∀ c < 80, a c = b c) → ∀ c < 80,
      lineOn (promptWidth cwd) line 0 cursor a c = lineOn (promptWidth cwd) line 0 cursor b c := by
    intro a b hab c hc
    unfold lineOn
    rw [hab c hc]
  have hrow : promptRow = ((23 : Nat) : Int) := rfl
  unfold redrawPrompt typedOn
  rw [prompt_str_eq h, ok_bind, hfill, hrow, hprompt]
  dsimp only
  have hline := draw_line_eq (onRow (onRow s.fb 23 (fun _ => blankRow .white .black)) 23 (promptOn cwd))
    (show promptWidth cwd ≤ 79 by omega) line 0 cursor
  rw [Nat.cast_zero] at hline
  rw [hline, on_row_on_row _ _ _ (fun a b hab => prompt_on_congr cwd hab), on_row_on_row _ _ _ hlocal]
  dsimp only
  by_cases hend : line.length ≤ cursor
  · have hput : ∀ fb : Framebuffer, shellPut fb (min (promptWidth cwd + line.length) 79 : Nat) 23 32 VgaColor.black.code
        VgaColor.lightGrey.code = onRow fb 23 (fun base =>
          overlay base (min (promptWidth cwd + line.length) 79) [32] .black .lightGrey) :=
      fun fb => ed_put_row fb _ (by decide) 32 .black .lightGrey
    rw [if_pos ⟨by omega, by omega⟩, if_pos hend, Nat.cast_ofNat, hput,
      on_row_on_row _ _ _ (fun a b hab => overlay_congr hab _ _ _ _)]
  · rw [if_neg (by omega), if_neg hend]

/-- `echo_input` -/
theorem Shows.echo {fb₀ : Framebuffer} {s : ShellScreen} {d : Desk} (h : Shows fb₀ s d) (hroom : cwd.chars.length ≤ 33)
    (line : List UInt8) : ∃ s', echoLine s cwd line = .ok s' ∧ Shows fb₀ s' (d.draw (.echo cwd line)) := by
  have hfed := h.feed
  have hprompt := draw_prompt_eq (shellNewline s).fb (show min d.feed.y 22 < 25 by omega) cwd
  have hstr : strAtRow (onRow (shellNewline s).fb (min d.feed.y 22) (promptOn cwd)) (promptWidth cwd)
      (min d.feed.y 22 : Nat) line VgaColor.white.code VgaColor.black.code =
        onRow (shellNewline s).fb (min d.feed.y 22) (fun base =>
          overlay (promptOn cwd base) (promptWidth cwd) line .white .black) := by
    rw [← on_row_on_row _ _ _ (fun a b hab => overlay_congr hab _ _ _ _)]
    exact ed_str_row _ _ (by omega) line .white .black
  unfold echoLine
  rw [prompt_str_eq hroom, ok_bind]
  dsimp only
  rw [hfed.row, hprompt]
  dsimp only
  rw [hstr]
  refine ⟨_, rfl, ?_⟩
  have hline := hfed.on_line (f := fun base => overlay (promptOn cwd base) (promptWidth cwd) line .white .black)
    (fun a b hab => overlay_congr (prompt_on_congr cwd hab) _ _ _ _)
  rw [hfed.row] at hline
  exact hline

end Prompt

section Runs

variable {fb₀ : Framebuffer} {s s' : ShellScreen} {d : Desk} {draws : List ShellDraw}

theorem status_eq (s : ShellScreen) (cwd : PathStr) (t : RtcTime) (ticks : UInt32) :
    drawStatus s cwd t ticks = { s with fb := onRow s.fb 24 (fun _ => statusLine cwd t ticks) } := by
  have hlast : 0 ≤ statusRow ∧ statusRow < 25 := by decide
  have hfill : Kernel.fillRow s.fb statusRow 32 VgaColor.black.code VgaColor.darkGrey.code =
      onRow s.fb 24 (fun _ => blankRow .black .darkGrey) := ed_fill_row s.fb (by decide) 32 .black .darkGrey
  have hstr : ∀ (f : (Nat → UInt16) → Nat → UInt16) (col : Int), 0 ≤ col → ∀ text (fg : VgaColor),
      strAtRow (onRow s.fb 24 f) col statusRow text fg.code VgaColor.darkGrey.code =
        onRow s.fb 24 (fun base => overlay (f base) col.toNat text fg .darkGrey) :=
    fun f col hcol text fg => str_on_row s.fb f hcol hlast text fg .darkGrey
  unfold drawStatus statusLine
  dsimp only
  rw [hfill, hstr _ _ (by decide), hstr _ _ (by decide), hstr _ _ (by decide), hstr _ _ (by decide), hstr _ _ (by decide)]
  rfl

/-- A row below the paper is drawn anew. -/
theorem Shows.prompt_row (h : Shows fb₀ s d) (row : Nat → UInt16) :
    Shows fb₀ { s with fb := onRow s.fb 23 (fun _ => row) } { d with prompt := row } where
  row := h.row
  paper r hr c hc := by
    dsimp only
    rw [on_row_other (by omega), h.paper r hr c hc]
  prompt c hc := on_row_at s.fb 23 (fun _ => row) hc
  status c hc := by
    dsimp only
    rw [on_row_other (by omega), h.status c hc]
  kept i hi := by
    dsimp only
    rw [on_row_other (by omega), h.kept i hi]

theorem Shows.status_row (h : Shows fb₀ s d) (row : Nat → UInt16) :
    Shows fb₀ { s with fb := onRow s.fb 24 (fun _ => row) } { d with status := row } where
  row := h.row
  paper r hr c hc := by
    dsimp only
    rw [on_row_other (by omega), h.paper r hr c hc]
  prompt c hc := by
    dsimp only
    rw [on_row_other (by omega), h.prompt c hc]
  status c hc := on_row_at s.fb 24 (fun _ => row) hc
  kept i hi := by
    dsimp only
    rw [on_row_other (by omega), h.kept i hi]

/-- Whatever is drawn, the screen follows the desk. -/
theorem Shows.draw (h : Shows fb₀ s d) {draw : ShellDraw} (hroom : Room draw) :
    ∃ s', ShellDraw.on s draw = .ok s' ∧ Shows fb₀ s' (d.draw draw) := by
  cases draw with
  | puts text fg => exact ⟨_, rfl, h.puts text fg⟩
  | newline => exact ⟨_, rfl, h.feed⟩
  | echo cwd line => exact h.echo hroom line
  | clear => exact ⟨_, rfl, h.clear⟩
  | prompt cwd line cursor => exact ⟨_, redraw_eq s hroom line cursor, h.prompt_row _⟩
  | status cwd t ticks =>
    refine ⟨_, congrArg Except.ok (status_eq s cwd t ticks), ?_⟩
    exact h.status_row _

theorem draw_room {draw : ShellDraw} (hrun : ShellDraw.on s draw = .ok s') : Room draw := by
  cases draw with
  | echo cwd line =>
    obtain ⟨prompt, hprompt, -⟩ := bind_ok hrun
    exact prompt_room ⟨prompt, hprompt⟩
  | prompt cwd line cursor =>
    obtain ⟨prompt, hprompt, -⟩ := bind_ok hrun
    exact prompt_room ⟨prompt, hprompt⟩
  | _ => trivial

theorem run_shows (h : Shows fb₀ s d) (hrun : drawAllOf s draws = .ok s') : Shows fb₀ s' (draws.foldl Desk.draw d) := by
  induction draws generalizing s d with
  | nil =>
    cases hrun
    exact h
  | cons draw draws ih =>
    obtain ⟨next, hnext, hrest⟩ := bind_ok hrun
    obtain ⟨s₁, hs₁, hshows⟩ := h.draw (draw_room hnext)
    obtain rfl : s₁ = next := Except.ok.inj (hs₁.symm.trans hnext)
    exact ih hshows hrest

theorem runs_iff (h : Shows fb₀ s d) : (∃ s', drawAllOf s draws = .ok s') ↔ ∀ draw ∈ draws, Room draw := by
  induction draws generalizing s d with
  | nil => exact ⟨fun _ draw hmem => absurd hmem List.not_mem_nil, fun _ => ⟨s, rfl⟩⟩
  | cons draw draws ih =>
    rw [List.forall_mem_cons]
    constructor
    · rintro ⟨s', hrun⟩
      obtain ⟨next, hnext, hrest⟩ := bind_ok hrun
      have hroom := draw_room hnext
      obtain ⟨s₁, hs₁, hshows⟩ := h.draw hroom
      obtain rfl : s₁ = next := Except.ok.inj (hs₁.symm.trans hnext)
      exact ⟨hroom, (ih hshows).mp ⟨s', hrest⟩⟩
    · rintro ⟨hroom, hrest⟩
      obtain ⟨s₁, hs₁, hshows⟩ := h.draw hroom
      obtain ⟨s', hs'⟩ := (ih hshows).mpr hrest
      refine ⟨s', ?_⟩
      unfold drawAllOf
      rw [List.foldlM_cons, hs₁]
      exact hs'

/-- Whatever the shell draws, one thing after the other, from any screen on: its 23 rows show the end of all
that was written since they were cleared last, wrapped at 80 characters, and the two rows below the prompt and
the status. It runs as long as every directory has room in the array of the prompt. -/
theorem rows_show_paper (fb : Framebuffer) (draws : List ShellDraw) :
    ((∃ s, drawAllOf ⟨fb, termTop⟩ draws = .ok s) ↔ ∀ draw ∈ draws, Room draw) ∧
      ∀ s, drawAllOf ⟨fb, termTop⟩ draws = .ok s → Shows fb s (draws.foldl Desk.draw (Desk.start fb)) :=
  ⟨runs_iff (start_shows fb), fun _ hrun => run_shows (start_shows fb) hrun⟩

end Runs

end BaSic.Proofs.ShellScreen
