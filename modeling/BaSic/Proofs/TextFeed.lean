import BaSic.Kernel.TextCmds
import BaSic.Lib.Parts
import BaSic.Proofs.FileSizes

namespace BaSic.Proofs.TextFeed
open Kernel Fs Lib FileSizes
open EditorSave (Holds toNat_small holds_length_le read_block)

variable {H σ : Type} {goes reads : σ → Bool} {step : σ → UInt8 → Except Fault σ} {s : σ}

theorem feed_stopped (h : goes s = false) (text : List UInt8) : feedText goes step s text = .ok s := by
  cases text with
  | nil => rfl
  | cons c text => simp [feedText, h]

theorem feed_append (s : σ) (text more : List UInt8) :
    feedText goes step s (text ++ more) = feedText goes step s text >>= fun s => feedText goes step s more := by
  induction text generalizing s with
  | nil => rfl
  | cons c text ih =>
    cases hgoes : goes s with
    | false =>
      simp only [feed_stopped hgoes]
      exact (feed_stopped hgoes more).symm
    | true =>
      cases hstep : step s c with
      | error e => simp [feedText, hgoes, hstep, bind, Except.bind]
      | ok s' => simpa [feedText, hgoes, hstep] using ih s'

section Blocks
variable {fs : Ramfs H} {node : Nat} {text : List UInt8} {size : UInt32}

/-- Cut into blocks, the text from an offset on is fed as it is. -/
theorem feed_blocks_holds (h : Holds fs node text) (hsize : 0 < size.toNat ∧ size.toNat ≤ 4096)
    (hstops : ∀ s, reads s = false → goes s = false) {fuel off : Nat} (hoff : off ≤ text.length)
    (hfuel : text.length < off + fuel) (s : σ) :
    feedBlocks fs node size reads goes step fuel (UInt32.ofNat off) s = feedText goes step s (text.drop off) := by
  have hle := holds_length_le h
  induction fuel generalizing off s with
  | zero => omega
  | succ fuel ih =>
    cases hreads : reads s with
    | false => simp [feedBlocks, hreads, feed_stopped (hstops s hreads)]
    | true =>
      have hrun := read_block h hoff hsize.2
      cases hblock : (text.drop off).take size.toNat with
      | nil =>
        have hdrop : text.drop off = [] := by
          cases List.take_eq_nil_iff.mp hblock with
          | inl hzero => omega
          | inr hdrop => exact hdrop
        simp [feedBlocks, hreads, hrun, hdrop, feedText]
      | cons c block =>
        have hlen : ((text.drop off).take size.toNat).length = block.length + 1 := by simp [hblock]
        simp only [List.length_take, List.length_drop] at hlen
        have hnext : UInt32.ofNat off + UInt32.ofNat (c :: block).length = UInt32.ofNat (off + (block.length + 1)) := by
          simp [UInt32.ofNat_add]
        have hsplit : text.drop off = (c :: block) ++ text.drop (off + (block.length + 1)) := by
          have hall := (List.take_append_drop size.toNat (text.drop off)).symm
          rw [hblock, List.drop_drop] at hall
          cases Nat.le_total size.toNat (text.length - off) with
          | inl hfull =>
            rwa [show block.length + 1 = size.toNat by omega]
          | inr hshort =>
            rwa [List.drop_eq_nil_of_le (show text.length ≤ off + (block.length + 1) by omega),
              ← List.drop_eq_nil_of_le (show text.length ≤ off + size.toNat by omega)]
        have hrest : ∀ s, feedBlocks fs node size reads goes step fuel (UInt32.ofNat (off + (block.length + 1))) s =
            feedText goes step s (text.drop (off + (block.length + 1))) := fun s => ih (by omega) (by omega) s
        simp only [feedBlocks, hreads, if_true, hrun, hblock, ok_bind, List.cons_ne_nil, if_false, hnext, hrest]
        rw [hsplit, feed_append]

/-- A command on text is fed the bytes of the file, however they are read. -/
theorem feed_file_eq (h : Sized fs) (node : Nat) (hsize : 0 < size.toNat ∧ size.toNat ≤ 4096)
    (hstops : ∀ s, reads s = false → goes s = false) (s : σ) :
    feedFile fs node size reads goes step s = feedText goes step s (fileBytes fs node) := by
  cases hbuf : (fs.node node).buf with
  | none =>
    have hread := read_none hbuf 0 size
    cases hreads : reads s with
    | false => simp [feedFile, feedBlocks, hreads, feed_stopped (hstops s hreads)]
    | true => simp [feedFile, feedBlocks, hreads, hread, fileBytes, RamfsBounds.contents_none hbuf, feedText]
  | some buf =>
    have hholds := h.holds (n := node) (by simp [hbuf])
    have hlen : (fs.node node).length.toNat = (fileBytes fs node).length := by
      rw [hholds.2, toNat_small (Nat.le_trans (holds_length_le hholds) (by decide))]
    have hrun : feedBlocks fs node size reads goes step ((fs.node node).length.toNat + 1) (UInt32.ofNat 0) s =
        feedText goes step s ((fileBytes fs node).drop 0) :=
      feed_blocks_holds hholds hsize hstops (Nat.zero_le _) (by omega) s
    simpa [feedFile] using hrun

/-- The block that most commands read. -/
theorem block_size : 0 < (128 : UInt32).toNat ∧ (128 : UInt32).toNat ≤ 4096 := by decide

end Blocks

/-- The step splits lines: `R` says what has become of the lines read and of the part of one
begun, while there are fewer than `most` lines and they are no longer than `width`. -/
structure Splits (goes : σ → Bool) (step : σ → UInt8 → Except Fault σ) (most width : Nat)
    (R : σ → List (List UInt8) → List UInt8 → Prop) : Prop where
  goes : ∀ {s lines part}, R s lines part → lines.length < most → goes s = true
  char : ∀ {s lines part c}, R s lines part → part.length < width → c ≠ 10 → c ≠ 0 →
    ∃ s', step s c = .ok s' ∧ R s' lines (part ++ [c])
  newline : ∀ {s lines part}, R s lines part → lines.length < most → part.length ≤ width → 0 ∉ part →
    ∃ s', step s 10 = .ok s' ∧ R s' (lines ++ [part]) []

variable {most width : Nat} {R : σ → List (List UInt8) → List UInt8 → Prop} {lines more : List (List UInt8)}
  {part line : List UInt8}

theorem Splits.feed_part (hsplits : Splits goes step most width R) (h : R s lines part) (hmost : lines.length < most)
    (hline : (10 : UInt8) ∉ line ∧ (0 : UInt8) ∉ line) (hwidth : part.length + line.length ≤ width) :
    ∃ s', feedText goes step s line = .ok s' ∧ R s' lines (part ++ line) := by
  induction line generalizing s part with
  | nil => exact ⟨s, rfl, by simpa using h⟩
  | cons c line ih =>
    simp only [List.mem_cons, not_or, List.length_cons] at hline hwidth
    obtain ⟨s₁, hstep, h₁⟩ := hsplits.char h (by omega) (Ne.symm hline.1.1) (Ne.symm hline.2.1)
    obtain ⟨s', hfeed, h'⟩ := ih h₁ ⟨hline.1.2, hline.2.2⟩ (by simp; omega)
    refine ⟨s', ?_, by simpa using h'⟩
    simpa [feedText, hsplits.goes h hmost, hstep] using hfeed

theorem Splits.feed_lines (hsplits : Splits goes step most width R) (h : R s lines [])
    (hmore : ∀ line ∈ more, ((10 : UInt8) ∉ line ∧ (0 : UInt8) ∉ line) ∧ line.length ≤ width)
    (hmost : lines.length + more.length ≤ most) :
    ∃ s', feedText goes step s (terminated 10 more) = .ok s' ∧ R s' (lines ++ more) [] := by
  induction more generalizing s lines with
  | nil => exact ⟨s, rfl, by simpa using h⟩
  | cons line more ih =>
    simp only [List.forall_mem_cons, List.length_cons] at hmore hmost
    obtain ⟨⟨hline, hwidth⟩, hmore⟩ := hmore
    obtain ⟨s₁, hpart, h₁⟩ := hsplits.feed_part h (by omega) hline (by simpa using hwidth)
    simp only [List.nil_append] at h₁
    obtain ⟨s₂, hstep, h₂⟩ := hsplits.newline h₁ (by omega) hwidth hline.2
    obtain ⟨s', hrest, h'⟩ := ih h₂ hmore (by simp; omega)
    refine ⟨s', ?_, by simpa using h'⟩
    have hgoes := hsplits.goes h₁ (by omega)
    simp [feed_append, hpart, feedText, hgoes, hstep, hrest]

/-- A text without NULs is these lines and the part of one, no more and no longer than that. -/
structure Cut (text : List UInt8) (most width : Nat) (lines : List (List UInt8)) (part : List UInt8) : Prop where
  whole : text = terminated 10 lines ++ part
  begun : ((10 : UInt8) ∉ part ∧ (0 : UInt8) ∉ part) ∧ part.length ≤ width
  ended : ∀ line ∈ lines, ((10 : UInt8) ∉ line ∧ (0 : UInt8) ∉ line) ∧ line.length ≤ width
  count : (lines ++ if part = [] then [] else [part]).length ≤ most

variable {text : List UInt8}

theorem Cut.parts_eq (h : Cut text most width lines part) : parts 10 text = lines ++ if part = [] then [] else [part] := by
  rw [h.whole]
  exact parts_terminated (fun line hline => (h.ended line hline).1.1) h.begun.1.1

/-- Nothing is begun behind the lines of an empty text, and of one that ends with a newline. -/
theorem Cut.whole_iff (h : Cut text most width lines part) : part = [] ↔ text = [] ∨ text.getLast? = some 10 := by
  have hends : (terminated 10 lines ++ part).getLast? = some 10 ↔ part = [] ∧ lines ≠ [] := ends_iff h.begun.1.1
  rw [← h.whole] at hends
  rw [hends]
  constructor
  · intro hpart
    cases hlines : lines with
    | nil => simp [h.whole, hpart, hlines]
    | cons line lines => simp [hpart]
  · rintro (hnone | hpart)
    · have hwhole := h.whole
      rw [hnone] at hwhole
      exact (List.append_eq_nil_iff.mp hwhole.symm).2
    · exact hpart.1

theorem exists_lines (hnul : (0 : UInt8) ∉ text) (hwidth : ∀ line ∈ parts 10 text, line.length ≤ width)
    (hmost : (parts 10 text).length ≤ most) : ∃ lines part, Cut text most width lines part := by
  obtain ⟨lines, part, rfl, hlines, hpart⟩ := exists_cut 10 text
  rw [parts_terminated hlines hpart] at hwidth hmost
  simp only [terminated, List.mem_append, List.mem_flatMap, not_or, not_exists, not_and] at hnul
  refine ⟨lines, part, rfl, ⟨⟨hpart, hnul.2⟩, ?_⟩, ?_, hmost⟩
  · by_cases hnone : part = []
    · simp [hnone]
    · exact hwidth part (by simp [hnone])
  · intro line hline
    refine ⟨⟨hlines line hline, (hnul.1 line hline).1⟩, ?_⟩
    exact hwidth line (List.mem_append_left _ hline)

/-- A text of lines and a part of one is split into these. -/
theorem Splits.feed_text (hsplits : Splits goes step most width R) (h : R s [] [])
    (hcut : Cut text most width lines part) : ∃ s', feedText goes step s text = .ok s' ∧ R s' lines part := by
  have hmost := hcut.count
  rw [List.length_append] at hmost
  obtain ⟨s₁, hfeed, h₁⟩ := hsplits.feed_lines h hcut.ended (by simp; omega)
  rw [List.nil_append] at h₁
  rw [hcut.whole]
  by_cases hnone : part = []
  · exact ⟨s₁, by simpa [hnone] using hfeed, by simpa [hnone] using h₁⟩
  · rw [if_neg hnone, List.length_singleton] at hmost
    obtain ⟨s', hrest, h'⟩ := hsplits.feed_part h₁ (by omega) hcut.begun.1 (by simpa using hcut.begun.2)
    exact ⟨s', by simp [feed_append, hfeed, hrest], by simpa using h'⟩

/-- The path leads to the file. -/
def LeadsTo (s : Shell H) (path : List UInt8) (node : Nat) : Prop :=
  path ≠ [] ∧ ∃ full, makeFull s.cwd path = .ok full ∧ fileAt s.files full.chars = some node

theorem leads_to_of {s : Shell H} {path : List UInt8} {node : Nat} (hpath : path ≠ [])
    (h : (makeFull s.cwd path >>= fun full => .ok (fileAt s.files full.chars)) = .ok (some node)) :
    LeadsTo s path node := by
  obtain ⟨full, hfull, hfile⟩ := bind_ok h
  exact ⟨hpath, full, hfull, Except.ok.inj hfile⟩

theorem motd_leads : LeadsTo ⟨mountRamfs everyBlock (), rootPath, rootPath⟩ (bytes "/etc/motd") 3 := by
  rw [mount_eq, motd_path]
  exact leads_to_of (by decide) (by decide)

theorem on_file_eq {s : Shell H} {path : List UInt8} {node : Nat} (h : LeadsTo s path node) (usage missing : List UInt8)
    (body : Nat → Except Fault (List (List UInt8))) : onFile s path usage missing body = body node := by
  obtain ⟨hpath, full, hfull, hfile⟩ := h
  simp [onFile, hpath, hfull, hfile]

end BaSic.Proofs.TextFeed
