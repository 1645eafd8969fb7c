import BaSic.Proofs.EditorKeys
import BaSic.Proofs.RamfsBounds
import BaSic.Proofs.RamfsTree

namespace BaSic.Proofs.EditorSave
open Kernel Fs Lib Proofs.EditorText Proofs.EditorKeys Proofs.ShellEdits Proofs.RamfsTree Proofs.RamfsBounds

variable {H : Type} {fs gs : Ramfs H} {node : Nat} {text src : List UInt8}

/-- The file has the text, at the beginning of a full-sized buffer. -/
def Holds (fs : Ramfs H) (node : Nat) (text : List UInt8) : Prop :=
  (∃ rest, (fs.node node).buf = some (text ++ rest) ∧ (text ++ rest).length = ramfsMaxFilesize) ∧
    (fs.node node).length = UInt32.ofNat text.length

theorem toNat_small {a : Nat} (ha : a ≤ 8192) : (UInt32.ofNat a).toNat = a :=
  UInt32.toNat_ofNat_of_lt' (show a < 4294967296 by omega)

theorem Holds.well_sized (h : Holds fs node text) : WellSized fs node := by
  obtain ⟨⟨rest, hbuf, hfull⟩, hlength⟩ := h
  have hmax : ramfsMaxFilesize = 4096 := rfl
  have hsum : (text ++ rest).length = text.length + rest.length := List.length_append
  refine ⟨?_, ?_⟩
  · rw [contents_some hbuf]
    omega
  · rw [contents_some hbuf, hlength, toNat_small (by omega)]
    omega

/-- Only the bytes of one file differ, and its length. -/
def OnlyFile (fs gs : Ramfs H) (node : Nat) : Prop :=
  ∃ buf length, gs = fs.setNode node { fs.node node with buf := buf, length := length }

theorem only_file (fs : Ramfs H) (node : Nat) : OnlyFile fs fs node :=
  ⟨(fs.node node).buf, (fs.node node).length, by simp [Ramfs.setNode]⟩

theorem OnlyFile.trans {hs : Ramfs H} (h : OnlyFile fs gs node) (h' : OnlyFile gs hs node) : OnlyFile fs hs node := by
  obtain ⟨buf, length, rfl⟩ := h
  obtain ⟨buf', length', rfl⟩ := h'
  exact ⟨buf', length', by simp [Ramfs.setNode]⟩

theorem OnlyFile.same_tree (h : OnlyFile fs gs node) : SameTree fs gs := by
  obtain ⟨buf, length, rfl⟩ := h
  exact same_tree_set _ rfl rfl rfl

theorem OnlyFile.flags (h : OnlyFile fs gs node) : (gs.node node).flags = (fs.node node).flags := by
  obtain ⟨buf, length, rfl⟩ := h
  simp

theorem holds_length_le (h : Holds fs node text) : text.length ≤ 4096 := by
  obtain ⟨⟨rest, -, hfull⟩, -⟩ := h
  have hmax : ramfsMaxFilesize = 4096 := rfl
  rw [List.length_append, hmax] at hfull
  omega

theorem holds_buffer (h : Holds fs node text) :
    ∃ buf, (fs.node node).buf = some buf ∧ buf.length = ramfsMaxFilesize := by
  obtain ⟨⟨rest, hbuf, hfull⟩, -⟩ := h
  exact ⟨_, hbuf, hfull⟩

/-- Writing at the end of the text, as far as there is room. -/
theorem write_holds (h : Holds fs node text) (hsrc : src.length ≤ 4096) :
    ∃ gs, vfsWrite ramfsOps fs (some node) (UInt32.ofNat text.length) src =
        .ok (UInt32.ofNat (min src.length (4096 - text.length)), gs) ∧
      Holds gs node ((text ++ src).take 4096) ∧ OnlyFile fs gs node := by
  have hsized := h.well_sized
  obtain ⟨⟨rest, hbuf, hfull⟩, hlength⟩ := h
  have hmax : ramfsMaxFilesize = 4096 := rfl
  have hsum : (text ++ rest).length = text.length + rest.length := List.length_append
  have hoff : (UInt32.ofNat text.length).toNat = text.length := toNat_small (by omega)
  have hrun := (ramfs_write_eq hbuf hsized (UInt32.ofNat text.length) (show src.length < 4294967296 by omega)).1
    (by omega) (by omega)
  have hroom : (text ++ rest).length - text.length = 4096 - text.length := by omega
  have htake : (text ++ src).take 4096 = text ++ src.take (4096 - text.length) := by
    rw [List.take_append, List.take_of_length_le (show text.length ≤ 4096 by omega)]
  have hnew : (text ++ rest).take text.length ++ src.take (min src.length (4096 - text.length)) ++
      (text ++ rest).drop (text.length + min src.length (4096 - text.length)) =
        (text ++ src).take 4096 ++ rest.drop (min src.length (4096 - text.length)) := by
    rw [List.take_left' rfl, ← List.drop_drop, List.drop_left' rfl, htake, Nat.min_comm, ← List.take_eq_take_min]
  have hgrown : max text.length (text.length + min src.length (4096 - text.length)) =
      ((text ++ src).take 4096).length := by
    simp only [List.length_take, List.length_append]
    omega
  simp only [hoff, hlength, hroom, hnew, hgrown] at hrun
  refine ⟨_, hrun, ⟨⟨rest.drop (min src.length (4096 - text.length)), ?_, ?_⟩, ?_⟩, _, _, rfl⟩
  · rw [set_node_self]
  · simp only [List.length_append, List.length_take, List.length_drop]
    omega
  · rw [set_node_self]

/-- Reading a block of the text. -/
theorem read_block (h : Holds fs node text) {off : Nat} (hoff : off ≤ text.length) {size : UInt32}
    (hsize : size.toNat ≤ 4096) :
    vfsRead ramfsOps fs (some node) (UInt32.ofNat off) size = .ok ((text.drop off).take size.toNat) := by
  have hsized := h.well_sized
  obtain ⟨⟨rest, hbuf, hfull⟩, hlength⟩ := h
  have hmax : ramfsMaxFilesize = 4096 := rfl
  have hsum : (text ++ rest).length = text.length + rest.length := List.length_append
  have hat : (UInt32.ofNat off).toNat = off := toNat_small (by omega)
  have hlen : (fs.node node).length.toNat = text.length := by rw [hlength, toNat_small (by omega)]
  obtain ⟨hpast, hfit, -⟩ := ramfs_read_eq hbuf hsized (UInt32.ofNat off) size
  by_cases hend : off = text.length
  · have hle : (fs.node node).length ≤ UInt32.ofNat off := by
      rw [UInt32.le_iff_toNat_le]
      omega
    have hdrop : text.drop off = [] := List.drop_eq_nil_of_le (Nat.le_of_eq hend.symm)
    rw [hdrop, List.take_nil]
    exact hpast hle
  · have hin : UInt32.ofNat off < (fs.node node).length := by
      rw [UInt32.lt_iff_toNat_lt]
      omega
    have hrun := hfit hin (by omega)
    rw [hat, hlen, List.drop_append_of_le_length hoff, ← List.length_drop,
      List.take_append_of_le_length (Nat.min_le_right _ _), ← List.take_take, List.take_length] at hrun
    exact hrun

theorem read_holds (h : Holds fs node text) {off : Nat} (hoff : off ≤ text.length) :
    vfsRead ramfsOps fs (some node) (UInt32.ofNat off) 128 = .ok ((text.drop off).take 128) :=
  read_block h hoff (by decide)

/-- The lines of a file, each with a newline. -/
def fileText (lines : List (List UInt8)) : List UInt8 := lines.flatMap (· ++ [10])

variable {s : Editor}

theorem take_take_append {α : Type} (n : Nat) (l m : List α) : (l.take n ++ m).take n = (l ++ m).take n := by
  have hroom : n - min n l.length = n - l.length := by omega
  simp [List.take_append, hroom]

/-- What `save_file` does with one line: it is written behind the text, then its newline, both as
far as there is room. -/
theorem save_line {i : Nat} (hi : i < 128) (hlen : 0 ≤ s.lineLen i ∧ s.lineLen i ≤ 80) (h : Holds fs node text) :
    ∃ n fs₁ m gs, s.lenAt i = .ok (s.lineLen i) ∧ lineText s i 0 (s.lineLen i).toNat = .ok (rowText s i) ∧
      vfsWrite ramfsOps fs (some node) (UInt32.ofNat text.length) (rowText s i) = .ok (n, fs₁) ∧
      UInt32.ofNat text.length + n = UInt32.ofNat ((text ++ rowText s i).take 4096).length ∧
      vfsWrite ramfsOps fs₁ (some node) (UInt32.ofNat ((text ++ rowText s i).take 4096).length) [10] = .ok (m, gs) ∧
      Holds gs node ((text ++ rowText s i ++ [10]).take 4096) ∧ OnlyFile fs gs node := by
  have hrow : lineText s i 0 (s.lineLen i).toNat = .ok (rowText s i) := by
    rw [line_text_ok (by omega) (by omega) (Int.le_refl 0) (by omega)]
    simp only [Int.zero_add]
    rfl
  have hcount : (rowText s i).length = (s.lineLen i).toNat := length_row_text i
  have hle := holds_length_le h
  obtain ⟨fs₁, hw₁, h₁, honly₁⟩ := write_holds h (show (rowText s i).length ≤ 4096 by omega)
  obtain ⟨gs, hw₂, h₂, honly₂⟩ := write_holds h₁ (show ([10] : List UInt8).length ≤ 4096 by decide)
  have hoff : text.length + min (rowText s i).length (4096 - text.length) =
      ((text ++ rowText s i).take 4096).length := by
    simp only [List.length_take, List.length_append]
    omega
  rw [take_take_append] at h₂
  refine ⟨_, fs₁, _, gs, len_at_ok (by omega) (by omega), hrow, hw₁, ?_, hw₂, h₂, honly₁.trans honly₂⟩
  rw [← UInt32.ofNat_add, hoff]

/-- The lines from `i` on, as many as asked for. -/
def rowsFrom (s : Editor) (i k : Nat) : List (List UInt8) := tabulate k (fun j => rowText s (i + j))

theorem rows_from_succ (s : Editor) (i k : Nat) : rowsFrom s i (k + 1) = rowText s i :: rowsFrom s (i + 1) k := by
  simp only [rowsFrom, tabulate_succ, Nat.add_zero, Nat.add_assoc, Nat.add_comm 1]

/-- The offsets of the writes that `saveLines` issues, up to the first that goes wrong. -/
def saveOffsets (s : Editor) (node : Nat) : Nat → Ramfs H → Int → UInt32 → List UInt32
  | 0, _, _, _ => []
  | k + 1, fs, i, off =>
    let written := do
      let len ← s.lenAt i
      let text ← lineText s i 0 len.toNat
      vfsWrite ramfsOps fs (some node) off text
    match written with
    | .error _ => [off]
    | .ok (n, fs) =>
      match vfsWrite ramfsOps fs (some node) (off + n) [10] with
      | .error _ => [off, off + n]
      | .ok (_, fs) => [off, off + n] ++ saveOffsets s node k fs (i + 1) (off + n + 1)

/-- The loop of `save_file` from line `i` on, if the lines before the last leave room for it. -/
theorem save_lines_holds (hlens : ∀ i, 0 ≤ i → i < s.numLines → 0 ≤ s.lineLen i ∧ s.lineLen i ≤ 80)
    (hmax : s.numLines ≤ 128) {k i : Nat} (hk : (i : Int) + k = s.numLines) (h : Holds fs node text)
    (hfits : (text ++ fileText (rowsFrom s i k).dropLast).length ≤ 4096) :
    ∃ gs, saveLines s node k fs i (UInt32.ofNat text.length) = .ok gs ∧
      Holds gs node ((text ++ fileText (rowsFrom s i k)).take 4096) ∧ OnlyFile fs gs node ∧
      ∀ off ∈ saveOffsets s node k fs i (UInt32.ofNat text.length), off.toNat ≤ 4096 := by
  induction k generalizing i fs text with
  | zero =>
    have hall : (text ++ fileText (rowsFrom s i 0)).take 4096 = text := by
      simpa [rowsFrom, tabulate, fileText] using holds_length_le h
    exact ⟨fs, rfl, hall.symm ▸ h, only_file fs node, by simp [saveOffsets]⟩
  | succ k ih =>
    obtain ⟨n, fs₁, m, fs₂, hlen, hrow, hw₁, hoff, hw₂, h₂, honly₂⟩ :=
      save_line (i := i) (by omega) (hlens i (by omega) (by omega)) h
    have hnext : ((i : Int) + 1) = ((i + 1 : Nat) : Int) := rfl
    have hsplit : text ++ fileText (rowText s i :: rowsFrom s (i + 1) k) =
        text ++ rowText s i ++ [10] ++ fileText (rowsFrom s (i + 1) k) := by
      simp [fileText]
    have hstart : (UInt32.ofNat text.length).toNat ≤ 4096 := by
      rw [toNat_small (Nat.le_trans (holds_length_le h) (by decide))]
      exact holds_length_le h
    have hmid : (UInt32.ofNat ((text ++ rowText s i).take 4096).length).toNat ≤ 4096 := by
      have hle : ((text ++ rowText s i).take 4096).length ≤ 4096 := List.length_take_le _ _
      rwa [toNat_small (by omega)]
    simp only [saveLines, saveOffsets, hlen, hrow, ok_bind, hw₁, hoff, hw₂, hnext, List.cons_append, List.nil_append,
      List.forall_mem_cons, hstart, hmid, true_and]
    rw [rows_from_succ] at hfits ⊢
    rw [hsplit]
    cases k with
    | zero => exact ⟨fs₂, rfl, by simpa [rowsFrom, tabulate, fileText] using h₂, honly₂, by simp [saveOffsets]⟩
    | succ k =>
      have hrest : (text ++ rowText s i ++ [10] ++ fileText (rowsFrom s (i + 1) (k + 1)).dropLast).length ≤ 4096 := by
        rw [rows_from_succ] at hfits ⊢
        simpa [fileText, Nat.add_assoc] using hfits
      have hwhole : (text ++ rowText s i ++ [10]).length ≤ 4096 := by
        rw [List.length_append] at hrest
        omega
      rw [List.take_of_length_le hwhole] at h₂
      obtain ⟨gs, hgs, hholds, honly, hoffs⟩ := ih (i := i + 1) (by omega) h₂ hrest
      have hline : ((text ++ rowText s i).take 4096).length = (text ++ rowText s i).length := by
        rw [List.length_append, List.length_singleton] at hwhole
        rw [List.take_of_length_le (by omega)]
      have hstep : UInt32.ofNat (text ++ rowText s i).length + 1 =
          UInt32.ofNat (text ++ rowText s i ++ [10]).length := by
        rw [@List.length_append _ _ [10], List.length_singleton, UInt32.ofNat_add]
        rfl
      rw [hline, hstep]
      exact ⟨gs, hgs, hholds, honly₂.trans honly, hoffs⟩

/-- The lines read, and the part of the next one, after one more character. -/
def feed (l : List (List UInt8) × List UInt8) (c : UInt8) : List (List UInt8) × List UInt8 :=
  if c = 10 then (l.1 ++ [l.2], []) else if l.2.length < 80 then (l.1, l.2 ++ [c]) else l

theorem feed_newline (l : List (List UInt8) × List UInt8) : feed l 10 = (l.1 ++ [l.2], []) := if_pos rfl

theorem feed_char {l : List (List UInt8) × List UInt8} {c : UInt8} (hc : c ≠ 10) (h : l.2.length < 80) :
    feed l c = (l.1, l.2 ++ [c]) := by
  unfold feed
  rw [if_neg hc, if_pos h]

theorem feed_full {l : List (List UInt8) × List UInt8} {c : UInt8} (hc : c ≠ 10) (h : ¬ l.2.length < 80) :
    feed l c = l := by
  unfold feed
  rw [if_neg hc, if_neg h]

theorem feed_length (l : List (List UInt8) × List UInt8) (src : List UInt8) :
    l.1.length ≤ (src.foldl feed l).1.length := by
  induction src generalizing l with
  | nil => exact Nat.le_refl _
  | cons c src ih =>
    refine Nat.le_trans ?_ (ih (feed l c))
    unfold feed
    split_ifs
    · rw [List.length_append]
      exact Nat.le_add_right _ _
    · exact Nat.le_refl _
    · exact Nat.le_refl _

theorem feed_line {line part : List UInt8} (h : (10 : UInt8) ∉ line) (l : List (List UInt8))
    (hlen : part.length + line.length ≤ 80) : line.foldl feed (l, part) = (l, part ++ line) := by
  induction line generalizing part with
  | nil => rw [List.append_nil]; rfl
  | cons c line ih =>
    obtain ⟨hc, hline⟩ := List.ne_and_not_mem_of_not_mem_cons h
    rw [List.length_cons] at hlen
    have hroom : (l, part).2.length < 80 := by
      dsimp only
      omega
    have hrest : (part ++ [c]).length + line.length ≤ 80 := by
      rw [List.length_append, List.length_singleton]
      omega
    rw [List.foldl_cons, feed_char hc.symm hroom, ih hline hrest, List.append_assoc]
    rfl

/-- A file of lines is read as these lines. -/
theorem feed_lines {lines : List (List UInt8)} (h : ∀ line ∈ lines, (10 : UInt8) ∉ line ∧ line.length ≤ 80)
    (l : List (List UInt8)) : (fileText lines).foldl feed (l, []) = (l ++ lines, []) := by
  induction lines generalizing l with
  | nil => rw [List.append_nil]; rfl
  | cons line lines ih =>
    obtain ⟨hline, hlen⟩ := h line List.mem_cons_self
    have hrest := ih (fun x hx => h x (List.mem_cons_of_mem _ hx)) (l ++ [line])
    have hsplit : fileText (line :: lines) = line ++ 10 :: fileText lines := by
      unfold fileText
      rw [List.flatMap_cons, List.append_assoc, List.singleton_append]
    have hstart : ([] : List UInt8).length + line.length ≤ 80 := by simpa using hlen
    rw [hsplit, List.foldl_append, feed_line hline l hstart, List.nil_append, List.foldl_cons, feed_newline, hrest,
      List.append_assoc]
    rfl

/-- The buffer has the lines read, the part of the next one, and no others. -/
structure Loading (s : Editor) (line col : Int) (l : List (List UInt8) × List UInt8) : Prop where
  lineNo : line = l.1.length
  colNo : col = l.2.length
  lines : tabulate l.1.length (rowText s) = l.1
  part : tabulate l.2.length (fun j => s.buf line j) = l.2
  short : l.2.length ≤ 80
  fresh : ∀ i, line ≤ i → s.lineLen i = 0

variable {line col : Int} {l : List (List UInt8) × List UInt8}

theorem Loading.newline (h : Loading s line col l) (hroom : l.1.length < 128) : ∃ s₁ s₂,
    s.setChar line col 0 = .ok s₁ ∧ s₁.setLen line col = .ok s₂ ∧ Loading s₂ (line + 1) 0 (l.1 ++ [l.2], []) := by
  have hline := h.lineNo
  have hcol := h.colNo
  have hshort := h.short
  refine ⟨_, _, set_char_ok (by omega) (by omega) (by omega) (by omega), set_len_ok (by omega) (by omega), ?_⟩
  constructor
  · rw [List.length_append, List.length_singleton]
    omega
  · rfl
  · rw [List.length_append, List.length_singleton, tabulate_succ_last]
    refine congrArg₂ (· ++ ·) (Eq.trans (tabulate_congr (fun i hi => ?_)) h.lines) (congrArg (fun x => [x]) ?_)
    · exact row_text_congr (Function.update_of_ne (by omega) _ _) (Function.update_of_ne (by omega) _ _)
    · refine Eq.trans ?_ h.part
      unfold rowText
      dsimp only
      rw [← hline, Function.update_self, Function.update_self, hcol, Int.toNat_natCast]
      exact tabulate_congr (fun j hj => Function.update_of_ne (by omega) _ _)
  · rfl
  · exact Nat.zero_le _
  · intro i hi
    exact (Function.update_of_ne (by omega) _ _).trans (h.fresh i (by omega))

theorem Loading.char (h : Loading s line col l) (hroom : l.1.length < 128) (hfits : l.2.length < 80) (c : UInt8) :
    ∃ s₁, s.setChar line col c = .ok s₁ ∧ Loading s₁ line (col + 1) (l.1, l.2 ++ [c]) := by
  have hline := h.lineNo
  have hcol := h.colNo
  refine ⟨_, set_char_ok (by omega) (by omega) (by omega) (by omega), ?_⟩
  constructor
  · exact hline
  · rw [List.length_append, List.length_singleton]
    omega
  · refine Eq.trans (tabulate_congr (fun i hi => ?_)) h.lines
    have hi' : i < l.1.length := hi
    exact row_text_congr rfl (Function.update_of_ne (by omega) _ _)
  · rw [List.length_append, List.length_singleton, tabulate_succ_last]
    dsimp only
    rw [Function.update_self, ← hcol, Function.update_self]
    refine congrArg₂ (· ++ ·) (Eq.trans (tabulate_congr (fun j hj => ?_)) h.part) rfl
    exact Function.update_of_ne (by omega) _ _
  · rw [List.length_append, List.length_singleton]
    omega
  · exact h.fresh

/-- A block of the file is read as it is fed, as long as there is room for its lines. -/
theorem chunk_loads (h : Loading s line col l) (tmp : List UInt8) (hroom : (tmp.foldl feed l).1.length < 128) :
    ∃ s' line' col', loadChunk s line col tmp = .ok (s', line', col') ∧ Loading s' line' col' (tmp.foldl feed l) := by
  induction tmp generalizing s line col l with
  | nil => exact ⟨s, line, col, rfl, h⟩
  | cons c tmp ih =>
    rw [List.foldl_cons] at hroom ⊢
    have hnext : (feed l c).1.length < 128 := Nat.lt_of_le_of_lt (feed_length _ tmp) hroom
    have hcol := h.colNo
    have hline := h.lineNo
    unfold loadChunk
    by_cases hc : c = 10
    · subst hc
      rw [feed_newline] at hnext hroom ⊢
      rw [List.length_append, List.length_singleton] at hnext
      obtain ⟨s₁, s₂, h₁, h₂, hloading⟩ := h.newline (by omega)
      rw [if_pos rfl, h₁, ok_bind, h₂, ok_bind, if_neg (by unfold edMaxLines; omega)]
      exact ih hloading hroom
    · rw [if_neg hc]
      by_cases hfits : l.2.length < 80
      · rw [feed_char hc hfits] at hnext hroom ⊢
        obtain ⟨s₁, h₁, hloading⟩ := h.char hnext hfits c
        rw [if_pos (by unfold edLineMax; omega), h₁, ok_bind]
        exact ih hloading hroom
      · rw [feed_full hc hfits] at hnext hroom ⊢
        rw [if_neg (by unfold edLineMax; omega)]
        exact ih h hroom

/-- A block of the text goes up to the next multiple of its size, or to the end. -/
theorem block_length {off : Nat} (hoff : off ≤ text.length) :
    off + ((text.drop off).take 128).length = min (off + 128) text.length := by
  rw [List.length_take, List.length_drop]
  omega

theorem feed_block (text : List UInt8) (off : Nat) :
    ((text.drop off).take 128).foldl feed ((text.take off).foldl feed ([], [])) =
      (text.take (min (off + 128) text.length)).foldl feed ([], []) := by
  rw [← List.foldl_append, ← List.take_add, List.take_eq_take_min]

/-- Behind an empty block there is nothing left. -/
theorem block_end {off : Nat} (hend : (text.drop off).take 128 = []) : text.take off = text := by
  rw [List.take_eq_nil_iff, List.drop_eq_nil_iff] at hend
  exact List.take_of_length_le (hend.resolve_left (by decide))

/-- A part of the text has no more lines than the text. -/
theorem feed_take_le (text : List UInt8) (off : Nat) :
    ((text.take off).foldl feed ([], [])).1.length ≤ (text.foldl feed ([], [])).1.length := by
  have hmore := feed_length ((text.take off).foldl feed ([], [])) (text.drop off)
  rwa [← List.foldl_append, List.take_append_drop] at hmore

/-- The rest of the file is read block by block. -/
theorem load_loop_loads (hfile : Holds fs node text) {fuel off : Nat} (hoff : off ≤ text.length)
    (hfuel : text.length - off < fuel) (h : Loading s line col ((text.take off).foldl feed ([], [])))
    (hroom : (text.foldl feed ([], [])).1.length < 128) : ∃ s' line' col',
      loadLoop fs node fuel s line col (UInt32.ofNat off) = .ok (s', line', col') ∧
        Loading s' line' col' (text.foldl feed ([], [])) := by
  induction fuel generalizing s line col off with
  | zero => omega
  | succ fuel ih =>
    have hline := h.lineNo
    have hdone := feed_take_le text off
    unfold loadLoop
    rw [read_holds hfile hoff, ok_bind]
    by_cases hend : (text.drop off).take 128 = []
    · rw [block_end hend] at h
      rw [if_pos (Or.inl hend)]
      exact ⟨s, line, col, rfl, h⟩
    · have hpos : 0 < ((text.drop off).take 128).length := List.length_pos_iff.mpr hend
      have hlen := block_length hoff
      have hfeed := feed_block text off
      have hmore := feed_take_le text (min (off + 128) text.length)
      obtain ⟨s₁, line₁, col₁, hchunk, hloading⟩ := chunk_loads h ((text.drop off).take 128) (by rw [hfeed]; omega)
      have hnot : ¬ ((text.drop off).take 128 = [] ∨ line ≥ edMaxLines) := by
        unfold edMaxLines
        rintro (h | h)
        · exact hend h
        · omega
      rw [hfeed] at hloading
      rw [if_neg hnot, hchunk, ok_bind]
      dsimp only
      rw [← UInt32.ofNat_add, hlen]
      exact ih (Nat.min_le_right _ _) (by omega) hloading

theorem init_loading (s : Editor) : Loading (bufInit s) 0 0 ([], []) :=
  ⟨rfl, rfl, rfl, rfl, Nat.zero_le _, fun _ _ => rfl⟩

/-- `save_file` where it finds the file. -/
theorem save_file_eq (kmalloc : Kmalloc H) {mount : ShellFs H}
    (hsave : vfsResolve ramfsOps mount.fs mount.fsRoot s.filename = some node) : saveFile kmalloc s mount = (do
      let new ← saveLines s node s.numLines.toNat (mount.fs.setNode node { mount.fs.node node with length := 0 }) 0 0
      .ok ({ s with modified := false, msg := "file saved." }, { mount with fs := new })) := by
  simp only [saveFile, saveTarget, hsave]

theorem truncated_holds (fs : Ramfs H) {buf : List UInt8} (hbuf : (fs.node node).buf = some buf)
    (hfull : buf.length = ramfsMaxFilesize) : Holds (fs.setNode node { fs.node node with length := 0 }) node [] := by
  refine ⟨⟨buf, ?_, hfull⟩, ?_⟩
  · rw [set_node_self]
    exact hbuf
  · rw [set_node_self]
    rfl

theorem lines_eq_rows (s : Editor) : (textOf s).lines = rowsFrom s 0 s.numLines.toNat := by
  simp [textOf, rowsFrom]

/-- `save_file` leaves the lines in the file, as far as there is room, and all else as it was,
if the lines before the last leave room for it. -/
theorem save_holds (kmalloc : Kmalloc H) {mount : ShellFs H} (hlines : 0 ≤ s.numLines ∧ s.numLines ≤ 128)
    (hlens : ∀ i, 0 ≤ i → i < s.numLines → 0 ≤ s.lineLen i ∧ s.lineLen i ≤ 80)
    (hfits : (fileText (textOf s).lines.dropLast).length ≤ 4096)
    (hsave : vfsResolve ramfsOps mount.fs mount.fsRoot s.filename = some node)
    (hbuf : ∃ buf, (mount.fs.node node).buf = some buf ∧ buf.length = ramfsMaxFilesize) :
    ∃ gs, saveFile kmalloc s mount = .ok ({ s with modified := false, msg := "file saved." }, { mount with fs := gs }) ∧
      Holds gs node ((fileText (textOf s).lines).take 4096) ∧ OnlyFile mount.fs gs node ∧
      ∀ off ∈ saveOffsets s node s.numLines.toNat (mount.fs.setNode node { mount.fs.node node with length := 0 }) 0 0,
        off.toNat ≤ 4096 := by
  obtain ⟨buf, hbuf, hfull⟩ := hbuf
  rw [lines_eq_rows] at hfits ⊢
  obtain ⟨gs, hgs, hholds, honly, hoffs⟩ := save_lines_holds (k := s.numLines.toNat) (i := 0) hlens hlines.2 (by omega)
    (truncated_holds mount.fs hbuf hfull) hfits
  have hstart : saveLines s node s.numLines.toNat (mount.fs.setNode node { mount.fs.node node with length := 0 }) 0 0 =
      .ok gs := hgs
  have hcut : OnlyFile mount.fs (mount.fs.setNode node { mount.fs.node node with length := 0 }) node := ⟨_, _, rfl⟩
  rw [save_file_eq kmalloc hsave, hstart]
  exact ⟨gs, rfl, hholds, hcut.trans honly, hoffs⟩

theorem file_text_drop_le (lines : List (List UInt8)) : (fileText lines.dropLast).length ≤ (fileText lines).length := by
  cases List.eq_nil_or_concat' lines with
  | inl hnil => simp [hnil]
  | inr hsome =>
    obtain ⟨lines, line, rfl⟩ := hsome
    simp [fileText]

/-- `load_file` where it finds the file. -/
theorem load_file_eq {mount : ShellFs H} {path : List UInt8} (hholds : Holds mount.fs node text)
    (hload : vfsResolve ramfsOps mount.fs mount.fsRoot path = some node) (hflags : (mount.fs.node node).flags = .file)
    (s : Editor) : loadFile mount path s = (do
      let (s, line, _) ← loadLoop mount.fs node (text.length + 1) s 0 0 0
      let len ← s.lenAt line
      let numLines := if len = 0 ∧ line < edMaxLines then (if line = 0 then 1 else line) else line + 1
      .ok { s with numLines := if numLines < 1 then 1 else numLines }) := by
  have hle := holds_length_le hholds
  have hlength : (mount.fs.node node).length.toNat = text.length := by
    rw [hholds.2, toNat_small (by omega)]
  have hfound : (vfsResolve ramfsOps mount.fs mount.fsRoot path).filter (fun n => (mount.fs.node n).flags = .file) =
      some node := by
    rw [hload, Option.filter_some, if_pos (decide_eq_true hflags)]
  unfold loadFile
  rw [hfound]
  dsimp only
  rw [hlength]

/-- A file with room for its lines is loaded as it is fed. The length of the line after the
last newline is never noted, so that line is not counted. -/
theorem load_feeds (mount : ShellFs H) {path : List UInt8} (t : Editor) (hholds : Holds mount.fs node text)
    (hload : vfsResolve ramfsOps mount.fs mount.fsRoot path = some node) (hflags : (mount.fs.node node).flags = .file)
    (hroom : (text.foldl feed ([], [])).1.length < 128) : ∃ t' line col,
      loadLoop mount.fs node (text.length + 1) (bufInit t) 0 0 0 = .ok (t', line, col) ∧
        Loading t' line col (text.foldl feed ([], [])) ∧
          loadFile mount path (bufInit t) = .ok { t' with numLines := max 1 line } := by
  obtain ⟨t', line, col, hloop, hloading⟩ := load_loop_loads hholds (Nat.zero_le _) (Nat.lt_succ_self _)
    (init_loading t) hroom
  have hstart : loadLoop mount.fs node (text.length + 1) (bufInit t) 0 0 0 = .ok (t', line, col) := hloop
  have hline := hloading.lineNo
  have hlen : t'.lenAt line = .ok 0 := by
    rw [len_at_ok (by omega) (by omega), hloading.fresh line (Int.le_refl _)]
  have hcounted : (if (0 : Int) = 0 ∧ line < edMaxLines then (if line = 0 then 1 else line) else line + 1) =
      max 1 line := by
    rw [if_pos ⟨rfl, by unfold edMaxLines; omega⟩]
    split
    · omega
    · omega
  refine ⟨t', line, col, hstart, hloading, ?_⟩
  rw [load_file_eq hholds hload hflags, hstart, ok_bind]
  dsimp only
  rw [hlen, ok_bind, hcounted, if_neg (by omega)]

/-- `load_file` reads the lines a file has, if there are not too many. -/
theorem load_holds (mount : ShellFs H) {path : List UInt8} {lines : List (List UInt8)} (t : Editor)
    (hholds : Holds mount.fs node (fileText lines)) (hfeed : (fileText lines).foldl feed ([], []) = (lines, []))
    (hcount : 1 ≤ lines.length ∧ lines.length ≤ 127)
    (hload : vfsResolve ramfsOps mount.fs mount.fsRoot path = some node) (hflags : (mount.fs.node node).flags = .file) :
    ∃ t', loadFile mount path (bufInit t) = .ok t' ∧ t'.numLines = lines.length ∧ (textOf t').lines = lines := by
  obtain ⟨t', line, col, -, hloading, hloaded⟩ := load_feeds mount t hholds hload hflags
    (by rw [hfeed]; exact Nat.lt_succ_of_le hcount.2)
  rw [hfeed] at hloading
  have hline : line = lines.length := hloading.lineNo
  have hnum : max 1 line = lines.length := by omega
  refine ⟨_, hloaded, hnum, ?_⟩
  refine Eq.trans ?_ hloading.lines
  unfold textOf
  dsimp only
  rw [hnum, Int.toNat_natCast]
  rfl

/-- A text of at most 127 lines of at most 80 characters that fits a file is the same after it
was saved and loaded again, whatever the file had before. -/
theorem save_load (kmalloc : Kmalloc H) {mount : ShellFs H} {path : List UInt8} (t : Editor)
    (hlines : 1 ≤ s.numLines ∧ s.numLines ≤ 127)
    (hlens : ∀ i, 0 ≤ i → i < s.numLines → 0 ≤ s.lineLen i ∧ s.lineLen i ≤ 80)
    (hchars : ∀ line ∈ (textOf s).lines, (10 : UInt8) ∉ line) (htotal : (fileText (textOf s).lines).length ≤ 4096)
    (hsave : vfsResolve ramfsOps mount.fs mount.fsRoot s.filename = some node)
    (hload : vfsResolve ramfsOps mount.fs mount.fsRoot path = some node) (hflags : (mount.fs.node node).flags = .file)
    (hbuf : ∃ buf, (mount.fs.node node).buf = some buf ∧ buf.length = ramfsMaxFilesize) :
    ∃ s' mount' s'', saveFile kmalloc s mount = .ok (s', mount') ∧ loadFile mount' path (bufInit t) = .ok s'' ∧
      s''.numLines = s.numLines ∧ (textOf s'').lines = (textOf s).lines := by
  obtain ⟨gs, hsaved, hholds, honly, -⟩ := save_holds kmalloc (by omega) hlens
    (Nat.le_trans (file_text_drop_le _) htotal) hsave hbuf
  rw [List.take_of_length_le htotal] at hholds
  have hcount : (textOf s).lines.length = s.numLines.toNat := length_tabulate
  have hfeed : (fileText (textOf s).lines).foldl feed ([], []) = ((textOf s).lines, []) := by
    refine feed_lines (fun line hline => ⟨hchars line hline, ?_⟩) []
    obtain ⟨i, hi, rfl⟩ := mem_tabulate.mp hline
    have hlen := hlens i (by omega) (by omega)
    rw [length_row_text]
    omega
  have hresolve : vfsResolve ramfsOps gs mount.fsRoot path = some node := (same_resolve honly.same_tree _ _).trans hload
  obtain ⟨t', hloaded, hnum, htext⟩ := load_holds { mount with fs := gs } t hholds hfeed
    (by omega) hresolve (honly.flags.trans hflags)
  exact ⟨_, _, t', hsaved, hloaded, by omega, htext⟩

/-- An editor for `/etc/motd` with three lines, of which the second is empty, and the cursor in
the last. -/
def motdEditor : Editor :=
  { bufInit blankEditor with
    buf := fun i j => if j < 0 then 0 else if i = 0 ∧ j < 70 then 97 else if i = 2 ∧ j < 60 then 98 else 0
    lineLen := fun i => if i = 0 then 70 else if i = 2 then 60 else 0
    numLines := 3, cy := 2, cx := 5, filename := bytes "/etc/motd" }

theorem motd_lines : (textOf motdEditor).lines = [List.replicate 70 97, [], List.replicate 60 98] := rfl

theorem motd_editor_lens (i : Int) : 0 ≤ motdEditor.lineLen i ∧ motdEditor.lineLen i ≤ 80 := by
  unfold motdEditor
  dsimp only
  split
  · decide
  · split <;> decide

theorem save_load_motd : ∃ s' mount' s'', saveFile everyBlock motdEditor (mountRamfs everyBlock ()) = .ok (s', mount') ∧
    loadFile mount' (bytes "/etc/motd") (bufInit blankEditor) = .ok s'' ∧ s''.numLines = 3 ∧
    (textOf s'').lines = [List.replicate 70 97, [], List.replicate 60 98] := by
  rw [← motd_lines]
  exact save_load everyBlock blankEditor ⟨by decide, by decide⟩ (fun i _ _ => motd_editor_lens i)
    (by rw [motd_lines]; decide) (by rw [motd_lines]; simp [fileText]) motd_resolves motd_resolves motd_flags motd_buffer

end BaSic.Proofs.EditorSave
