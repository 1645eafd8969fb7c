import BaSic.Lib.Parts
import BaSic.Proofs.EditorSave

namespace BaSic.Proofs.EditorLoad
open Kernel Fs Lib Proofs.EditorText Proofs.EditorKeys Proofs.EditorSave Proofs.ShellEdits Proofs.RamfsTree

section Loading

variable {H : Type}

/-- What the commands of the editor rely on. -/
structure LoadBounds (s : Editor) : Prop where
  lines : 1 ≤ s.numLines ∧ s.numLines ≤ 128
  lens : ∀ i, 0 ≤ i → i < s.numLines → 0 ≤ s.lineLen i ∧ s.lineLen i ≤ 80

/-- What the blocks of a file keep: the lengths noted, and the one being counted, are those of
lines that fit, the lines noted end in a zero, what is not written yet is zero, and only the
text changes. -/
structure Kept (t s : Editor) (line col : Int) : Prop where
  lens : ∀ i, 0 ≤ s.lineLen i ∧ s.lineLen i ≤ 80
  column : 0 ≤ col ∧ col ≤ 80
  ends : ∀ i, 0 ≤ i → i < line → s.buf i (s.lineLen i) = 0
  blank : ∀ i j, line < i ∨ i = line ∧ col ≤ j → s.buf i j = 0
  filename : s.filename = t.filename
  cursor : s.cx = t.cx ∧ s.cy = t.cy ∧ s.scrollY = t.scrollY

variable {fs : Ramfs H} {node : Nat} {text tmp : List UInt8} {s s' s₁ s₂ t : Editor} {line line' col col' i j n : Int}
  {c : UInt8} {l : List (List UInt8) × List UInt8}

theorem set_char_eq (h : s.setChar i j c = .ok s') :
    s' = { s with buf := Function.update s.buf i (Function.update (s.buf i) j c) } := by
  simp only [Editor.setChar] at h
  split at h
  · cases h
    rfl
  · cases h

theorem set_len_eq (h : s.setLen i n = .ok s') : s' = { s with lineLen := Function.update s.lineLen i n } := by
  simp only [Editor.setLen] at h
  split at h
  · cases h
    rfl
  · cases h

theorem Kept.byte (h : Kept t s line col) (hroom : col < 80) (hrun : s.setChar line col c = .ok s') :
    Kept t s' line (col + 1) := by
  have hcol := h.column
  obtain rfl := set_char_eq hrun
  refine ⟨h.lens, by omega, fun i h₀ hi => ?_, fun i j hij => ?_, h.filename, h.cursor⟩
  all_goals dsimp only
  · rw [Function.update_of_ne (Int.ne_of_lt hi)]
    exact h.ends i h₀ hi
  · by_cases hi : i = line
    · have hj : j ≠ col := by omega
      simpa [hi, hj] using h.blank line j (Or.inr ⟨rfl, by omega⟩)
    · simpa [hi] using h.blank i j (by omega)

theorem Kept.newline (h : Kept t s line col) (hrun : s.setChar line col 0 = .ok s₁)
    (hlen : s₁.setLen line col = .ok s₂) : Kept t s₂ (line + 1) 0 := by
  obtain rfl := set_char_eq hrun
  obtain rfl := set_len_eq hlen
  refine ⟨fun i => ?_, by omega, fun i h₀ hi => ?_, fun i j hij => ?_, h.filename, h.cursor⟩
  · by_cases hi : i = line
    · simpa [hi] using h.column
    · simpa [hi] using h.lens i
  · by_cases heq : i = line
    · simp [heq]
    · simpa [heq] using h.ends i h₀ (by omega)
  · have hi : i ≠ line := by omega
    simpa [hi] using h.blank i j (by omega)

theorem chunk_kept (h : Kept t s line col) (hrun : loadChunk s line col tmp = .ok (s', line', col')) :
    Kept t s' line' col' := by
  induction tmp generalizing s line col with
  | nil =>
    cases hrun
    exact h
  | cons c tmp ih =>
    simp only [loadChunk] at hrun
    split at hrun
    · obtain ⟨s₁, h₁, hrun⟩ := bind_ok hrun
      obtain ⟨s₂, h₂, hrun⟩ := bind_ok hrun
      have hnext := h.newline h₁ h₂
      split at hrun
      · cases hrun
        exact hnext
      · exact ih hnext hrun
    · split at hrun
      · rename_i hroom
        obtain ⟨s₁, h₁, hrun⟩ := bind_ok hrun
        exact ih (h.byte hroom h₁) hrun
      · exact ih h hrun

theorem loop_kept {fuel : Nat} {off : UInt32} (h : Kept t s line col)
    (hrun : loadLoop fs node fuel s line col off = .ok (s', line', col')) : Kept t s' line' col' := by
  induction fuel generalizing s line col off with
  | zero => cases hrun
  | succ fuel ih =>
    simp only [loadLoop] at hrun
    obtain ⟨tmp, -, hrun⟩ := bind_ok hrun
    split at hrun
    · cases hrun
      exact h
    · obtain ⟨⟨s₁, line₁, col₁⟩, hchunk, hrun⟩ := bind_ok hrun
      exact ih (chunk_kept h hchunk) hrun

theorem init_kept (t : Editor) : Kept (bufInit t) (bufInit t) 0 0 :=
  ⟨fun _ => ⟨Int.le_refl 0, show (0 : Int) ≤ 80 by decide⟩, by decide, fun _ h₀ hi => absurd hi (Int.not_lt.mpr h₀),
    fun _ _ _ => rfl, rfl, ⟨rfl, rfl, rfl⟩⟩

/-- As many lines are read as there are newlines. -/
theorem feed_count (text : List UInt8) (l : List (List UInt8) × List UInt8) :
    (text.foldl feed l).1.length = l.1.length + text.count 10 := by
  induction text generalizing l with
  | nil => rfl
  | cons c text ih =>
    rw [List.foldl_cons, ih]
    by_cases hc : c = 10
    · simp only [hc, feed_newline, List.length_append, List.length_singleton, List.count_cons_self]
      omega
    · have hsame : (feed l c).1 = l.1 := by
        simp only [feed, if_neg hc]
        split
        · rfl
        · rfl
      simp [hsame, hc]

/-- At the 128th newline the rest of a block is left alone. -/
theorem chunk_overflows (h : Loading s line col l) (hroom : l.1.length < 128)
    (hmany : 128 ≤ (tmp.foldl feed l).1.length) : ∃ s', loadChunk s line col tmp = .ok (s', 128, 0) := by
  induction tmp generalizing s line col l with
  | nil => exact absurd hmany (Nat.not_le_of_lt hroom)
  | cons c tmp ih =>
    rw [List.foldl_cons] at hmany
    have hline := h.lineNo
    have hcol := h.colNo
    simp only [loadChunk]
    by_cases hc : c = 10
    · obtain ⟨s₁, s₂, h₁, h₂, hloading⟩ := h.newline hroom
      rw [hc, feed_newline] at hmany
      rw [if_pos hc, h₁, ok_bind, h₂, ok_bind]
      by_cases hlast : l.1.length = 127
      · have hend : line + 1 = 128 := by omega
        rw [hend]
        exact ⟨s₂, if_pos (Int.le_refl 128)⟩
      · have hmore : ¬ line + 1 ≥ edMaxLines := by
          simp only [edMaxLines]
          omega
        rw [if_neg hmore]
        apply ih hloading _ hmany
        rw [List.length_append, List.length_singleton]
        omega
    · rw [if_neg hc]
      by_cases hfits : l.2.length < 80
      · obtain ⟨s₁, h₁, hloading⟩ := h.char hroom hfits c
        have hin : col < edLineMax := by
          simp only [edLineMax]
          omega
        rw [feed_char hc hfits] at hmany
        rw [if_pos hin, h₁, ok_bind]
        exact ih hloading hroom hmany
      · have hout : ¬ col < edLineMax := by
          simp only [edLineMax]
          omega
        rw [feed_full hc hfits] at hmany
        rw [if_neg hout]
        exact ih h hroom hmany

/-- Reading stops behind the 128th line. -/
theorem loop_overflows (hfile : Holds fs node text) {fuel off : Nat} (hoff : off ≤ text.length)
    (hfuel : text.length - off < fuel) (h : Loading s line col ((text.take off).foldl feed ([], [])))
    (hroom : ((text.take off).foldl feed ([], [])).1.length < 128)
    (hmany : 128 ≤ (text.foldl feed ([], [])).1.length) :
    ∃ s', loadLoop fs node fuel s line col (UInt32.ofNat off) = .ok (s', 128, 0) := by
  induction fuel generalizing s line col off with
  | zero => exact absurd hfuel (Nat.not_lt_zero _)
  | succ fuel ih =>
    have hline := h.lineNo
    have hlen := block_length hoff
    have hfeed := feed_block text off
    by_cases hend : (text.drop off).take 128 = []
    · rw [block_end hend] at hroom
      exact absurd hmany (Nat.not_le_of_lt hroom)
    have hpos : 0 < ((text.drop off).take 128).length := List.length_pos_iff.mpr hend
    have hon : ¬ ((text.drop off).take 128 = [] ∨ line ≥ edMaxLines) := by
      simp only [edMaxLines, hend, false_or]
      omega
    simp only [loadLoop, read_holds hfile hoff, ok_bind, if_neg hon]
    by_cases hfits : ((text.take (min (off + 128) text.length)).foldl feed ([], [])).1.length < 128
    · obtain ⟨s₁, line₁, col₁, hchunk, hloading⟩ := chunk_loads h ((text.drop off).take 128) (hfeed ▸ hfits)
      rw [hfeed] at hloading
      simp only [hchunk, ok_bind, ← UInt32.ofNat_add, hlen]
      exact ih (Nat.min_le_right _ _) (by omega) hloading hfits
    · have hover : 128 ≤ (((text.drop off).take 128).foldl feed ((text.take off).foldl feed ([], []))).1.length := by
        rw [hfeed]
        omega
      obtain ⟨s₁, hchunk⟩ := chunk_overflows h hroom hover
      simp only [hchunk, ok_bind, ← UInt32.ofNat_add, hlen]
      -- one more block is read before the count of lines is looked at
      obtain ⟨fuel, rfl⟩ := Nat.exists_eq_succ_of_ne_zero (show fuel ≠ 0 by omega)
      simp only [loadLoop, read_holds hfile (Nat.min_le_right _ _), ok_bind]
      exact ⟨s₁, if_pos (Or.inr (Int.le_refl 128))⟩

variable {mount : ShellFs H} {path : List UInt8}

/-- A file of fewer than 128 newlines, loaded. -/
theorem load_short (t : Editor) (hfile : Holds mount.fs node text)
    (hload : vfsResolve ramfsOps mount.fs mount.fsRoot path = some node) (hflags : (mount.fs.node node).flags = .file)
    (hcount : text.count 10 < 128) : ∃ t' line col, Loading t' line col (text.foldl feed ([], [])) ∧
      Kept (bufInit t) t' line col ∧ line = text.count 10 ∧
        loadFile mount path (bufInit t) = .ok { t' with numLines := max 1 line } := by
  have hread : (text.foldl feed ([], [])).1.length = text.count 10 := by simp [feed_count]
  obtain ⟨t', line, col, hloop, hloading, hloaded⟩ := load_feeds mount t hfile hload hflags (by omega)
  exact ⟨t', line, col, hloading, loop_kept (init_kept t) hloop, hread ▸ hloading.lineNo, hloaded⟩

theorem Kept.in_bounds (h : Kept t s line col) (hline : line < 128) : LoadBounds { s with numLines := max 1 line } := by
  refine ⟨⟨Int.le_max_left 1 line, ?_⟩, fun i _ _ => h.lens i⟩
  dsimp only
  omega

/-- With more newlines `line_len` is read behind its end. -/
theorem load_long (t : Editor) (hfile : Holds mount.fs node text)
    (hload : vfsResolve ramfsOps mount.fs mount.fsRoot path = some node) (hflags : (mount.fs.node node).flags = .file)
    (hcount : 128 ≤ text.count 10) : loadFile mount path (bufInit t) = .error (.outOfBounds 128) := by
  obtain ⟨t', hloop⟩ := loop_overflows hfile (Nat.zero_le _) (Nat.lt_succ_self _) (init_loading t) (by simp)
    (by simpa [feed_count] using hcount)
  have hstart : loadLoop mount.fs node (text.length + 1) (bufInit t) 0 0 0 = .ok (t', 128, 0) := hloop
  have hout : t'.lenAt 128 = .error (.outOfBounds 128) := rfl
  simp only [load_file_eq hfile hload hflags, hstart, ok_bind, hout, error_bind]

/-- Loading keeps to the arrays and leaves what the commands rely on, if and only if the file
has fewer than 128 newlines. -/
theorem load_in_bounds_iff (t : Editor) (hfile : Holds mount.fs node text)
    (hload : vfsResolve ramfsOps mount.fs mount.fsRoot path = some node) (hflags : (mount.fs.node node).flags = .file) :
    (∃ t', loadFile mount path (bufInit t) = .ok t' ∧ LoadBounds t') ↔ text.count 10 < 128 := by
  constructor
  · rintro ⟨t', hloaded, -⟩
    by_contra hmany
    rw [load_long t hfile hload hflags (by omega)] at hloaded
    cases hloaded
  · intro hcount
    obtain ⟨t', line, col, -, hkept, hline, hloaded⟩ := load_short t hfile hload hflags hcount
    exact ⟨_, hloaded, hkept.in_bounds (by omega)⟩

/-- A file that has a newline, or no text, leaves the editor in the state that its keys rely on
and keep. -/
theorem start_good (t : Editor) (hfile : Holds mount.fs node text)
    (hload : vfsResolve ramfsOps mount.fs mount.fsRoot path = some node) (hflags : (mount.fs.node node).flags = .file)
    (hcount : text.count 10 < 128) (hfirst : text = [] ∨ 10 ∈ text) :
    ∃ t', editorStart mount path t = .ok t' ∧ Good t' := by
  obtain ⟨t', line, col, hloading, hkept, hline, hloaded⟩ := load_short { t with filename := path.take 127 } hfile hload
    hflags hcount
  have hbounds := hkept.in_bounds (by omega)
  have hends : ∀ i, 0 ≤ i → i < max 1 line → t'.buf i (t'.lineLen i) = 0 := by
    intro i h₀ hi
    rcases hfirst with rfl | hnewline
    · obtain rfl : i = 0 := by
        simp only [List.count_nil] at hline
        omega
      rw [hloading.fresh 0 (by simp [hline])]
      exact hkept.blank 0 0 (Or.inr ⟨by simp [hline], by simp [hloading.colNo]⟩)
    · have hpos := List.count_pos_iff.mpr hnewline
      exact hkept.ends i h₀ (by omega)
  obtain ⟨hx, hy, htop⟩ := hkept.cursor
  have hgood : Good { t' with numLines := max 1 line } := by
    refine ⟨⟨⟨hbounds.lines, ?_, hbounds.lens, hends, ?_⟩, ?_⟩, ?_⟩
    · simp [hy, bufInit]
    · simpa [hx, hy, bufInit] using (hkept.lens 0).1
    · simp [hy, htop, bufInit]
    · simp [htop, bufInit]
  refine ⟨_, ?_, hgood⟩
  have hstart : loadFile mount path { bufInit t with filename := path.take 127 } =
      .ok { t' with numLines := max 1 line } := hloaded
  simp only [editorStart, hstart, ok_bind]
  exact render_all_ok hgood.toBounds hgood.top

/-- A file of the text given, in a full-sized buffer. -/
def withText (fs : Ramfs H) (node : Nat) (text : List UInt8) : Ramfs H :=
  fs.setNode node { fs.node node with
    buf := some (text ++ List.replicate (4096 - text.length) 0), length := UInt32.ofNat text.length }

theorem with_text_holds (fs : Ramfs H) (node : Nat) (htext : text.length ≤ 4096) :
    Holds (withText fs node text) node text := by
  have hmax : ramfsMaxFilesize = 4096 := rfl
  refine ⟨⟨List.replicate (4096 - text.length) 0, ?_, ?_⟩, ?_⟩
  · simp [withText]
  · simp only [List.length_append, List.length_replicate]
    omega
  · simp [withText]

theorem with_text_same (fs : Ramfs H) (node : Nat) (text : List UInt8) : SameTree fs (withText fs node text) :=
  same_tree_set _ rfl rfl rfl

theorem with_text_flags (fs : Ramfs H) (node : Nat) (text : List UInt8) :
    ((withText fs node text).node node).flags = (fs.node node).flags := by
  simp [withText]

/-- The file system as mounted, `/etc/motd` having the text given. -/
def motdMount (text : List UInt8) : ShellFs Unit :=
  { mountRamfs everyBlock () with fs := withText (mountRamfs everyBlock ()).fs 3 text }

theorem motd_found (text : List UInt8) :
    vfsResolve ramfsOps (motdMount text).fs (motdMount text).fsRoot (bytes "/etc/motd") = some 3 ∧
      ((motdMount text).fs.node 3).flags = .file := by
  exact ⟨(same_resolve (with_text_same _ _ _) _ _).trans motd_resolves, (with_text_flags _ _ _).trans motd_flags⟩

theorem load_in_bounds_motd :
    ∃ t', loadFile (motdMount motdText) (bytes "/etc/motd") (bufInit blankEditor) = .ok t' ∧ LoadBounds t' :=
  (load_in_bounds_iff blankEditor (with_text_holds _ _ (by rw [motd_length]; decide)) (motd_found motdText).1
    (motd_found motdText).2).mpr (by decide +kernel)

/-- A file of 128 empty lines, as the editor saves one. -/
def emptyLines : List UInt8 := List.replicate 128 10

theorem load_leaves_bounds :
    ¬ ∃ t', loadFile (motdMount emptyLines) (bytes "/etc/motd") (bufInit blankEditor) = .ok t' ∧ LoadBounds t' := by
  rintro ⟨t', hloaded, -⟩
  have hholds : Holds (motdMount emptyLines).fs 3 emptyLines := with_text_holds _ _ (by simp [emptyLines])
  have hcount : emptyLines.count 10 = 128 := List.count_replicate_self
  have hlong := load_long blankEditor hholds (motd_found emptyLines).1 (motd_found emptyLines).2 (by omega)
  rw [hlong] at hloaded
  cases hloaded

/-- The lines of a file; the editor has one line at least. -/
def fileLines (text : List UInt8) : List (List UInt8) := if text = [] then [[]] else parts 10 text

/-- The editor has the lines of the file, and saves them again. -/
def LoadsWhole (kmalloc : Kmalloc H) (mount : ShellFs H) (node : Nat) (path text : List UInt8) (t : Editor) : Prop :=
  ∃ t', loadFile mount path (bufInit t) = .ok t' ∧ (textOf t').lines = fileLines text ∧
    ∃ s' mount', saveFile kmalloc t' mount = .ok (s', mount') ∧ Holds mount'.fs node (fileText (fileLines text))

section Cut
variable {lines : List (List UInt8)} {part : List UInt8}

theorem file_lines_cut (hlines : ∀ line ∈ lines, 10 ∉ line) (hpart : 10 ∉ part) :
    fileLines (terminated 10 lines ++ part) =
      if part = [] then (if lines = [] then [[]] else lines) else lines ++ [part] := by
  by_cases hempty : part = []
  · cases lines with
    | nil => simp [fileLines, hempty]
    | cons line lines =>
      have hparts := parts_terminated hlines hpart
      simpa [fileLines, hempty] using hparts
  · simp [fileLines, hempty, parts_terminated hlines hpart]

theorem lines_prefix (hlines : ∀ line ∈ lines, 10 ∉ line) (hpart : 10 ∉ part) :
    lines <+: fileLines (terminated 10 lines ++ part) := by
  rw [file_lines_cut hlines hpart]
  split
  · split
    · rename_i hnone
      simp [hnone]
    · exact List.prefix_rfl
  · exact List.prefix_append _ _

theorem part_mem (hlines : ∀ line ∈ lines, 10 ∉ line) (hpart : 10 ∉ part) (hsome : part ≠ []) :
    part ∈ fileLines (terminated 10 lines ++ part) := by
  simp [file_lines_cut hlines hpart, hsome]

/-- The lines read of a file, without what stands behind its last newline. -/
theorem feed_cut (hlines : ∀ line ∈ lines, 10 ∉ line ∧ line.length ≤ 80) (hpart : 10 ∉ part ∧ part.length ≤ 80) :
    (terminated 10 lines ++ part).foldl feed ([], []) = (lines, part) := by
  have hread : (terminated 10 lines).foldl feed ([], []) = (lines, []) := feed_lines hlines []
  rw [List.foldl_append, hread]
  apply feed_line hpart.1
  simpa using hpart.2

/-- The editor has the lines that end in a newline, or an empty one. -/
theorem loaded_lines (h : Loading s line col (lines, part)) :
    (textOf { s with numLines := max 1 line }).lines = if lines = [] then [[]] else lines := by
  have hline : line = lines.length := h.lineNo
  have htext : (textOf { s with numLines := max 1 line }).lines = tabulate (max 1 line).toNat (rowText s) := rfl
  rw [htext]
  cases lines with
  | nil =>
    have hone : (max 1 line).toNat = 1 := by simp [hline]
    simp [hone, tabulate, rowText, h.fresh 0 (by simp [hline])]
  | cons first lines =>
    have hcount : (max 1 line).toNat = (first :: lines).length := by
      rw [hline, List.length_cons]
      omega
    simpa [hcount] using h.lines

/-- A file cut into lines, loaded: what stands behind its last newline is lost. -/
theorem load_cut (t : Editor) (hfile : Holds mount.fs node (terminated 10 lines ++ part))
    (hload : vfsResolve ramfsOps mount.fs mount.fsRoot path = some node) (hflags : (mount.fs.node node).flags = .file)
    (hlines : ∀ line ∈ lines, 10 ∉ line ∧ line.length ≤ 80) (hpart : 10 ∉ part ∧ part.length ≤ 80)
    (hcount : lines.length < 128) : ∃ t', loadFile mount path (bufInit t) = .ok t' ∧
      (textOf t').lines = (if lines = [] then [[]] else lines) ∧ LoadBounds t' ∧ t'.filename = t.filename := by
  have hfeed := feed_cut hlines hpart
  have hread : (terminated 10 lines ++ part).count 10 < 128 := by
    have hfed := feed_count (terminated 10 lines ++ part) ([], [])
    simp only [hfeed, List.length_nil] at hfed
    omega
  obtain ⟨t', line, col, hloading, hkept, hline, hloaded⟩ := load_short t hfile hload hflags hread
  rw [hfeed] at hloading
  exact ⟨_, hloaded, loaded_lines hloading, hkept.in_bounds (by omega), hkept.filename⟩

theorem whole_iff (hpart : 10 ∉ part) : (terminated 10 lines ++ part = [] ∨
    (terminated 10 lines ++ part).getLast? = some 10) ↔ part = [] := by
  rw [ends_iff hpart]
  cases lines with
  | nil => simp
  | cons line lines => simp

end Cut

/-- What was loaded is the file, and is saved as it was, if and only if the file is empty or
ends with a newline. -/
theorem loads_whole_iff (kmalloc : Kmalloc H) (t : Editor) (hfile : Holds mount.fs node text)
    (hload : vfsResolve ramfsOps mount.fs mount.fsRoot path = some node)
    (hsave : vfsResolve ramfsOps mount.fs mount.fsRoot t.filename = some node)
    (hflags : (mount.fs.node node).flags = .file) (hcount : (fileLines text).length < 128)
    (hlens : ∀ line ∈ fileLines text, line.length ≤ 80) :
    LoadsWhole kmalloc mount node path text t ↔ text = [] ∨ text.getLast? = some 10 := by
  obtain ⟨lines, part, rfl, hlines, hpart⟩ := exists_cut 10 text
  have hcut := file_lines_cut hlines hpart
  have hfront := lines_prefix hlines hpart
  have hpartlen : part.length ≤ 80 := by
    by_cases hsome : part = []
    · simp [hsome]
    · exact hlens part (part_mem hlines hpart hsome)
  obtain ⟨t', hloaded, htext, hbounds, hname⟩ := load_cut t hfile hload hflags
    (fun line hline => ⟨hlines line hline, hlens line (hfront.subset hline)⟩) ⟨hpart, hpartlen⟩
    (Nat.lt_of_le_of_lt hfront.length_le hcount)
  rw [whole_iff hpart]
  constructor
  · rintro ⟨t₁, hloaded₁, htext₁, -⟩
    obtain rfl := Except.ok.inj (hloaded.symm.trans hloaded₁)
    by_contra hsome
    rw [htext, hcut, if_neg hsome] at htext₁
    split at htext₁
    · rename_i hnone
      simp [hnone, Ne.symm hsome] at htext₁
    · simp at htext₁
  · intro hempty
    have hwhole : (textOf t').lines = fileLines (terminated 10 lines ++ part) := by
      rw [htext, hcut, if_pos hempty]
    have hfits : (fileText (fileLines (terminated 10 lines ++ part))).length ≤ 4096 := by
      rw [hcut, if_pos hempty]
      split
      · decide
      · have hle := holds_length_le hfile
        rw [hempty, List.append_nil] at hle
        exact hle
    have hnamed : vfsResolve ramfsOps mount.fs mount.fsRoot t'.filename = some node := by rw [hname, hsave]
    have hnum := hbounds.lines
    have hdrop := Nat.le_trans (file_text_drop_le _) hfits
    obtain ⟨gs, hsaved, hholds, -⟩ := save_holds kmalloc ⟨by omega, hnum.2⟩ hbounds.lens (hwhole ▸ hdrop) hnamed
      (holds_buffer hfile)
    rw [hwhole, List.take_of_length_le hfits] at hholds
    exact ⟨t', hloaded, hwhole, _, _, hsaved, hholds⟩

theorem loads_whole_motd : LoadsWhole everyBlock (motdMount motdText) 3 (bytes "/etc/motd") motdText
    { blankEditor with filename := bytes "/etc/motd" } :=
  (loads_whole_iff everyBlock _ (with_text_holds _ _ (by rw [motd_length]; decide)) (motd_found motdText).1
    (motd_found motdText).1 (motd_found motdText).2 (by decide +kernel) (by decide +kernel)).mpr (Or.inr (by decide +kernel))

/-- A file without a newline comes up empty. -/
theorem load_loses_text : ¬ LoadsWhole everyBlock (motdMount (bytes "abc")) 3 (bytes "/etc/motd") (bytes "abc")
    { blankEditor with filename := bytes "/etc/motd" } := by
  have htext : bytes "abc" = [97, 98, 99] := utf8_of_chars _
  have hholds : Holds (motdMount (bytes "abc")).fs 3 (terminated 10 [] ++ bytes "abc") :=
    with_text_holds _ _ (by rw [htext]; decide)
  obtain ⟨t', hloaded, hempty, -⟩ := load_cut { blankEditor with filename := bytes "/etc/motd" } hholds
    (motd_found _).1 (motd_found _).2 (by simp) (by rw [htext]; decide) (by decide)
  have hlines : fileLines (bytes "abc") = [bytes "abc"] := by
    rw [htext]
    decide
  rintro ⟨t₁, hloaded₁, htext₁, -⟩
  obtain rfl := Except.ok.inj (hloaded.symm.trans hloaded₁)
  rw [hempty, hlines, htext] at htext₁
  exact absurd htext₁ (by decide)

end Loading

section Saving
open Proofs.RamfsBounds

variable {H : Type} {fs gs : Ramfs H} {node : Nat} {text src : List UInt8} {s : Editor}

/-- Once a newline has been counted that there was no room for, a write runs out of the buffer. -/
theorem write_past (h : Holds fs node text) (hsrc : src.length ≤ 80) :
    ∃ e, vfsWrite ramfsOps fs (some node) 4097 src = .error e := by
  have hsized := h.well_sized
  obtain ⟨buf, hbuf, hfull⟩ := holds_buffer h
  have hmax : ramfsMaxFilesize = 4096 := rfl
  have hoff : (4097 : UInt32).toNat = 4097 := rfl
  apply (ramfs_write_eq hbuf hsized 4097 (by omega)).2
  omega

/-- The next line after a newline that there was no room for. -/
theorem save_past {k i : Nat} (hi : i < 128) (hlen : 0 ≤ s.lineLen i ∧ s.lineLen i ≤ 80) (h : Holds fs node text) :
    ∃ e, saveLines s node (k + 1) fs i 4097 = .error e := by
  obtain ⟨n, fs₁, m, fs₂, hlenat, hrow, -⟩ := save_line hi hlen h
  have hcount : (rowText s i).length = (s.lineLen i).toNat := length_row_text i
  have hrowlen : (rowText s i).length ≤ 80 := by omega
  obtain ⟨e, he⟩ := write_past h hrowlen
  exact ⟨e, by simp only [saveLines, hlenat, hrow, ok_bind, he, error_bind]⟩

/-- If the lines before the last do not leave room for it, the loop runs out of the buffer. -/
theorem save_lines_fails (hlens : ∀ i, 0 ≤ i → i < s.numLines → 0 ≤ s.lineLen i ∧ s.lineLen i ≤ 80)
    (hmax : s.numLines ≤ 128) {k i : Nat} (hk : (i : Int) + k = s.numLines) (h : Holds fs node text)
    (hover : 4096 < (text ++ fileText (rowsFrom s i k).dropLast).length) :
    ∃ e, saveLines s node k fs i (UInt32.ofNat text.length) = .error e := by
  have hle := holds_length_le h
  induction k generalizing i fs text with
  | zero =>
    simp [rowsFrom, tabulate, fileText] at hover
    omega
  | succ k ih =>
    obtain ⟨n, fs₁, m, fs₂, hlen, hrow, hw₁, hoff, hw₂, h₂, -⟩ :=
      save_line (i := i) (by omega) (hlens i (by omega) (by omega)) h
    have hnext : ((i : Int) + 1) = ((i + 1 : Nat) : Int) := rfl
    simp only [saveLines, hlen, hrow, ok_bind, hw₁, hoff, hw₂, hnext]
    rw [rows_from_succ] at hover
    cases k with
    | zero =>
      simp [rowsFrom, tabulate, fileText] at hover
      omega
    | succ k =>
      have hsplit : (text ++ fileText (rowText s i :: rowsFrom s (i + 1) (k + 1)).dropLast).length =
          (text ++ rowText s i ++ [10] ++ fileText (rowsFrom s (i + 1) (k + 1)).dropLast).length := by
        rw [rows_from_succ]
        simp [fileText, Nat.add_assoc]
      rw [hsplit] at hover
      have hboth : (text ++ rowText s i ++ [10]).length = (text ++ rowText s i).length + 1 := List.length_append
      by_cases hwhole : (text ++ rowText s i ++ [10]).length ≤ 4096
      · rw [List.take_of_length_le hwhole] at h₂
        have hstep : UInt32.ofNat ((text ++ rowText s i).take 4096).length + 1 =
            UInt32.ofNat (text ++ rowText s i ++ [10]).length := by
          rw [hboth, List.take_of_length_le (by omega), UInt32.ofNat_add]
          rfl
        rw [hstep]
        exact ih (i := i + 1) (by omega) h₂ hover hwhole
      · have hfull : ((text ++ rowText s i).take 4096).length = 4096 := by
          rw [List.length_take]
          omega
        have hstep : UInt32.ofNat ((text ++ rowText s i).take 4096).length + 1 = 4097 := by
          rw [hfull]
          rfl
        rw [hstep]
        exact save_past (i := i + 1) (by omega) (hlens _ (by omega) (by omega)) h₂

/-- What saving should do: no write starts behind the buffer, only the file changes, and it has
the lines as far as they fit. -/
def SavesWithin (kmalloc : Kmalloc H) (mount : ShellFs H) (node : Nat) (s : Editor) : Prop :=
  (∀ off ∈ saveOffsets s node s.numLines.toNat (mount.fs.setNode node { mount.fs.node node with length := 0 }) 0 0,
    off.toNat ≤ 4096) ∧
    ∃ s' gs, saveFile kmalloc s mount = .ok (s', { mount with fs := gs }) ∧ OnlyFile mount.fs gs node ∧
      Holds gs node ((fileText (textOf s).lines).take 4096)

variable {mount : ShellFs H}

theorem save_fails (kmalloc : Kmalloc H) (hlines : 1 ≤ s.numLines ∧ s.numLines ≤ 128)
    (hlens : ∀ i, 0 ≤ i → i < s.numLines → 0 ≤ s.lineLen i ∧ s.lineLen i ≤ 80)
    (hsave : vfsResolve ramfsOps mount.fs mount.fsRoot s.filename = some node)
    (hbuf : ∃ buf, (mount.fs.node node).buf = some buf ∧ buf.length = ramfsMaxFilesize)
    (hover : 4096 < (fileText (textOf s).lines.dropLast).length) : ∃ e, saveFile kmalloc s mount = .error e := by
  obtain ⟨buf, hsome, hfull⟩ := hbuf
  rw [lines_eq_rows] at hover
  obtain ⟨e, he⟩ := save_lines_fails (k := s.numLines.toNat) (i := 0) hlens hlines.2 (by omega)
    (truncated_holds mount.fs hsome hfull) (by simpa using hover)
  have hstart : saveLines s node s.numLines.toNat (mount.fs.setNode node { mount.fs.node node with length := 0 }) 0 0 =
      .error e := he
  exact ⟨e, by simp only [save_file_eq kmalloc hsave, hstart, error_bind]⟩

/-- Saving keeps to the buffer of the file if and only if the lines before the last, each with
its newline, are no longer than the buffer. -/
theorem saves_within_iff (kmalloc : Kmalloc H) (hlines : 1 ≤ s.numLines ∧ s.numLines ≤ 128)
    (hlens : ∀ i, 0 ≤ i → i < s.numLines → 0 ≤ s.lineLen i ∧ s.lineLen i ≤ 80)
    (hsave : vfsResolve ramfsOps mount.fs mount.fsRoot s.filename = some node)
    (hbuf : ∃ buf, (mount.fs.node node).buf = some buf ∧ buf.length = ramfsMaxFilesize) :
    SavesWithin kmalloc mount node s ↔ (fileText (textOf s).lines.dropLast).length ≤ 4096 := by
  constructor
  · rintro ⟨-, s', gs, hsaved, -⟩
    by_contra hover
    obtain ⟨e, he⟩ := save_fails kmalloc hlines hlens hsave hbuf (by omega)
    rw [he] at hsaved
    cases hsaved
  · intro hfits
    obtain ⟨gs, hsaved, hholds, honly, hoffs⟩ := save_holds kmalloc ⟨by omega, hlines.2⟩ hlens hfits hsave hbuf
    exact ⟨hoffs, _, gs, hsaved, honly, hholds⟩

theorem saves_within_motd : SavesWithin everyBlock (motdMount []) 3 motdEditor ↔
    (fileText (textOf motdEditor).lines.dropLast).length ≤ 4096 :=
  saves_within_iff everyBlock ⟨by decide, by decide⟩ (fun i _ _ => motd_editor_lens i) (motd_found []).1
    (holds_buffer (with_text_holds _ _ (by decide)))

/-- An editor with 128 lines of 80 characters, for `/etc/motd`. -/
def fullEditor : Editor :=
  { motdEditor with buf := fun _ j => if j < 80 then 97 else 0, lineLen := fun _ => 80, numLines := 128 }

theorem full_lines : (textOf fullEditor).lines = List.replicate 128 (List.replicate 80 97) := by
  have hrow : ∀ i, rowText fullEditor i = List.replicate 80 97 := by
    intro i
    refine List.eq_replicate_iff.mpr ⟨length_tabulate, fun c hc => ?_⟩
    obtain ⟨j, hj, rfl⟩ := mem_tabulate.mp hc
    exact if_pos (Int.ofNat_lt.mpr hj)
  refine List.eq_replicate_iff.mpr ⟨length_tabulate, fun line hline => ?_⟩
  obtain ⟨i, -, rfl⟩ := mem_tabulate.mp hline
  exact hrow i

theorem save_runs_out : ¬ SavesWithin everyBlock (motdMount []) 3 fullEditor := by
  rintro ⟨-, s', gs, hsaved, -⟩
  have hover : (fileText (textOf fullEditor).lines.dropLast).length = 127 * 81 := by
    simp only [full_lines, List.dropLast_replicate, fileText, List.length_flatMap, List.map_replicate, List.length_append,
      List.length_replicate, List.length_singleton, List.sum_replicate, smul_eq_mul]
  obtain ⟨e, he⟩ := save_fails everyBlock (s := fullEditor) (by decide) (fun _ _ _ => by simp [fullEditor])
    (motd_found []).1 (holds_buffer (with_text_holds _ _ (by decide))) (by omega)
  rw [he] at hsaved
  cases hsaved

end Saving

end BaSic.Proofs.EditorLoad
