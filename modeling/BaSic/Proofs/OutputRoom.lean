import BaSic.Proofs.CalcPrint
import BaSic.Proofs.TextFeed
import BaSic.Proofs.WorkDir

namespace BaSic.Proofs.OutputRoom
open Kernel Fs Lib Lib.Decimal FileSizes TextFeed CalcPrint WorkDir

variable {H : Type} {s : Shell H} {path out text more : List UInt8} {node size n : Nat}

/-- The prompt has room in the array of those who ask for it. -/
def PromptFits (s : Shell H) : Prop := ∃ out, buildPrompt 48 s.cwd = .ok out

def WcFits (s : Shell H) (path : List UInt8) : Prop := ∃ out, cmdWc s path = .ok out

def isBlank (c : UInt8) : Bool := c = 32 ∨ c = 9 ∨ c = 10

/-- The words of a text are what stands between its blanks. -/
def wordCount (text : List UInt8) : Nat := (text.splitOnP isBlank).countP (· ≠ [])

/-- The three counts in decimal, the path, a blank behind each number, and the NUL. -/
def wcLength (text path : List UInt8) : Nat :=
  (written 10 (text.count 10)).length + (written 10 (wordCount text)).length + (written 10 text.length).length +
    path.length + 4

theorem put_byte_eq (size : Nat) (out : List UInt8) (c : UInt8) : putByte size out c = putBytes size out [c] := by
  simp only [putBytes]
  cases putByte size out c <;> rfl

theorem put_bytes_append (size : Nat) (out text more : List UInt8) :
    putBytes size out (text ++ more) = putBytes size out text >>= fun out => putBytes size out more := by
  induction text generalizing out with
  | nil => rfl
  | cons c text ih =>
    simp only [List.cons_append, putBytes]
    cases putByte size out c with
    | error e => rfl
    | ok out => exact ih out

theorem put_bytes_fits (hout : out.length ≤ size) (text : List UInt8) :
    (∃ r, putBytes size out text = .ok r) ↔ out.length + text.length ≤ size := by
  induction text generalizing out with
  | nil => simpa [putBytes] using hout
  | cons c text ih =>
    by_cases hroom : out.length < size
    · have hmore := @ih (out ++ [c]) (by simpa using hroom)
      simp only [putBytes, putByte, if_pos hroom, ok_bind, hmore, List.length_append, List.length_cons, List.length_nil]
      omega
    · simp only [putBytes, putByte, if_neg hroom]
      constructor
      · rintro ⟨r, hr⟩
        cases hr
      · intro hle
        simp only [List.length_cons] at hle
        omega

/-- The prompt is 14 characters and the directory. -/
theorem prompt_fits_iff (s : Shell H) : PromptFits s ↔ s.cwd.chars.length ≤ 33 := by
  have hprompt : buildPrompt 48 s.cwd =
      putBytes 48 [] (bytes "root" ++ [64] ++ bytes "baSic_" ++ [58] ++ s.cwd.chars ++ [35] ++ [32] ++ [0]) := by
    simp only [buildPrompt, put_byte_eq, put_bytes_append, bind_assoc]
  have hroot : (bytes "root").length = 4 := by decide +kernel
  have hhost : (bytes "baSic_").length = 6 := by decide +kernel
  unfold PromptFits
  rw [hprompt, put_bytes_fits (by simp)]
  simp only [List.length_append, List.length_nil, List.length_singleton, hroot, hhost]
  omega

theorem split_cons (c : UInt8) (text : List UInt8) : ∃ word words, text.splitOnP isBlank = word :: words ∧
    (c :: text).splitOnP isBlank = if isBlank c then [] :: word :: words else (c :: word) :: words := by
  cases hsplit : text.splitOnP isBlank with
  | nil => exact absurd hsplit (List.splitOnP_ne_nil _ _)
  | cons word words => exact ⟨word, words, rfl, by simp [List.splitOnP_cons_eq_if_modifyHead, hsplit]⟩

theorem split_length_le (text : List UInt8) : (text.splitOnP isBlank).length ≤ text.length + 1 := by
  induction text with
  | nil => simp
  | cons c text ih =>
    obtain ⟨word, words, hsplit, hcons⟩ := split_cons c text
    simp only [hsplit, List.length_cons] at ih
    rw [hcons]
    split
    · simpa using ih
    · simp only [List.length_cons]
      omega

theorem word_count_le (text : List UInt8) : wordCount text ≤ text.length + 1 :=
  Nat.le_trans List.countP_le_length (split_length_le text)

/-- The words that begin in a text, if one has begun before it or not. -/
def wordsFrom (inWord : Bool) (text : List UInt8) : Nat :=
  if inWord then (text.splitOnP isBlank).tail.countP (· ≠ []) else wordCount text

theorem words_from_cons (inWord : Bool) (c : UInt8) (text : List UInt8) : wordsFrom inWord (c :: text) =
    if isBlank c then wordsFrom false text else (if inWord then 0 else 1) + wordsFrom true text := by
  obtain ⟨word, words, hsplit, hcons⟩ := split_cons c text
  unfold wordsFrom wordCount
  rw [hcons, hsplit]
  by_cases hblank : isBlank c
  · cases inWord <;> simp [hblank]
  · cases inWord <;> simp [hblank, Nat.add_comm]

/-- What the counts are after a text. -/
theorem wc_counts (counts : Counts) (text : List UInt8) : ∃ inWord, feedText (fun _ => true) wcStep counts text =
    .ok ⟨counts.lines + UInt32.ofNat (text.count 10), counts.words + UInt32.ofNat (wordsFrom counts.inWord text),
      counts.bytes + UInt32.ofNat text.length, inWord⟩ := by
  induction text generalizing counts with
  | nil => exact ⟨counts.inWord, by cases counts; cases ‹Bool› <;> simp [feedText, wordsFrom, wordCount]⟩
  | cons c text ih =>
    obtain ⟨inWord, hrest⟩ := ih ⟨if c = 10 then counts.lines + 1 else counts.lines,
      if isBlank c ∨ counts.inWord then counts.words else counts.words + 1, counts.bytes + 1, !isBlank c⟩
    have hstep : wcStep counts c = .ok ⟨if c = 10 then counts.lines + 1 else counts.lines,
        if isBlank c ∨ counts.inWord then counts.words else counts.words + 1, counts.bytes + 1, !isBlank c⟩ := by
      by_cases hblank : c = 32 ∨ c = 9 ∨ c = 10
      · simp [wcStep, isBlank, hblank]
      · simp [wcStep, isBlank, hblank]
    have hlines : (if c = 10 then counts.lines + 1 else counts.lines) + UInt32.ofNat (text.count 10) =
        counts.lines + UInt32.ofNat ((c :: text).count 10) := by
      by_cases hc : c = 10
      · simp [hc, UInt32.ofNat_add, UInt32.add_assoc, UInt32.add_comm 1]
      · simp [hc]
    have hwords : (if isBlank c ∨ counts.inWord then counts.words else counts.words + 1) +
        UInt32.ofNat (wordsFrom (!isBlank c) text) =
          counts.words + UInt32.ofNat (wordsFrom counts.inWord (c :: text)) := by
      rw [words_from_cons]
      by_cases hblank : isBlank c
      · simp [hblank]
      · cases counts.inWord <;> simp [hblank, UInt32.ofNat_add, UInt32.add_assoc]
    have hbytes : counts.bytes + 1 + UInt32.ofNat text.length = counts.bytes + UInt32.ofNat (c :: text).length := by
      simp [UInt32.ofNat_add, UInt32.add_assoc, UInt32.add_comm 1]
    refine ⟨inWord, ?_⟩
    simp only [feedText, if_true, hstep, ok_bind, hrest, hlines, hwords, hbytes]

theorem wc_loop_eq (left : Nat) (v : UInt32) (text : List UInt8) : wcLoop left v text = uintLoop 10 left v text := by
  have hdigits : ∀ d < 10, (48 + UInt32.ofNat d).toUInt8 = digits.getD d 0 := by decide
  induction left generalizing v text with
  | zero => rfl
  | succ left ih =>
    have hlt : (v % 10).toNat < 10 := by
      rw [UInt32.toNat_mod]
      exact Nat.mod_lt _ (by decide)
    have hdigit := hdigits _ hlt
    rw [UInt32.ofNat_toNat] at hdigit
    simp only [wcLoop, uintLoop, hdigit, ih]

theorem wc_digits_text (hn : n < 4294967296) : wcDigits (UInt32.ofNat n) = .ok (numeralText n) := by
  have hval : (UInt32.ofNat n).toNat = n := UInt32.toNat_ofNat_of_lt' hn
  have hrun := uint_loop_text 11 hn (hn.trans (by decide)) []
  simp only [wcDigits, wc_loop_eq, numeralText, written, ← UInt32.toNat_inj, hval, UInt32.toNat_zero]
  split
  · rfl
  · simpa using hrun

/-- What is written for a text, the NUL with it. -/
def wcOut (text path : List UInt8) : List UInt8 :=
  numeralText (text.count 10) ++ [32] ++ numeralText (wordCount text) ++ [32] ++ numeralText text.length ++ [32] ++
    path ++ [0]

theorem wc_out_length (text path : List UInt8) : (wcOut text path).length = wcLength text path := by
  have hwritten : ∀ n, (numeralText n).length = (written 10 n).length := fun n => List.length_map _
  simp only [wcOut, wcLength, List.length_append, List.length_singleton, hwritten]
  omega

theorem wc_text_out (htext : text.length ≤ 4096) (inWord : Bool) (size : Nat) (path : List UInt8) :
    wcText size ⟨UInt32.ofNat (text.count 10), UInt32.ofNat (wordCount text), UInt32.ofNat text.length, inWord⟩ path =
      putBytes size [] (wcOut text path) := by
  have hcount : text.count 10 ≤ text.length := List.count_le_length
  have hmost := word_count_le text
  have hlines := @wc_digits_text (text.count 10) (by omega)
  have hwords := @wc_digits_text (wordCount text) (by omega)
  have hbytes := @wc_digits_text text.length (by omega)
  simp only [wcText, wcOut, hlines, hwords, hbytes, ok_bind, put_byte_eq, put_bytes_append, bind_assoc]

theorem bytes_length_le {fs : Ramfs H} (h : Sized fs) (node : Nat) : (fileBytes fs node).length ≤ 4096 := by
  cases hbuf : (fs.node node).buf with
  | none => simp [fileBytes, RamfsBounds.contents_none hbuf]
  | some buf => exact EditorSave.holds_length_le (h.holds (by simp [hbuf]))

/-- The text of `cmd_wc` fits exactly when its characters do. -/
theorem wc_fits_iff (hleads : LeadsTo s path node) (hsized : Sized s.files.fs) :
    WcFits s path ↔ wcLength (fileBytes s.files.fs node) path ≤ 64 := by
  obtain ⟨inWord, hfeed⟩ := wc_counts ⟨0, 0, 0, false⟩ (fileBytes s.files.fs node)
  have hwords : wordsFrom false (fileBytes s.files.fs node) = wordCount (fileBytes s.files.fs node) := rfl
  have hroom := @put_bytes_fits [] 64 (Nat.zero_le 64) (wcOut (fileBytes s.files.fs node) path)
  rw [List.length_nil, Nat.zero_add, wc_out_length] at hroom
  rw [← hroom]
  unfold WcFits cmdWc
  simp only [on_file_eq hleads, feed_file_eq hsized node block_size (fun _ h => h), hfeed, ok_bind, UInt32.zero_add,
    hwords, wc_text_out (bytes_length_le hsized node)]
  constructor
  · rintro ⟨out, hout⟩
    obtain ⟨r, hr, -⟩ := bind_ok hout
    exact ⟨r, hr⟩
  · rintro ⟨r, hr⟩
    exact ⟨[lineStr r], by simp [hr]⟩

theorem cd_files (prevNext : Bool) (s : Shell H) (path : List UInt8) : (cmdCd prevNext s path).2.files = s.files := by
  unfold cmdCd
  split
  · rfl
  · split
    · rfl
    · split
      · rfl
      · split
        · rfl
        · rfl

theorem run_files_sized (kmalloc : Kmalloc H) (prevNext : Bool) (heap : H) (lines : List ShellLine) :
    Sized (run (lineStep kmalloc prevNext) (bootShell kmalloc heap) lines).2.files.fs := by
  apply run_invariant (Q := fun _ => True) (I := fun s : Shell H => Sized s.files.fs) _ (fun _ _ => trivial)
    (mount_sized kmalloc heap)
  intro s line _ h
  cases line with
  | cd path => simpa [lineStep, cd_files] using h
  | edit cmd => exact h.step kmalloc s.cwd.chars cmd

/-- In every state reached the prompt fits exactly in front of short directories, and `cmd_wc`
stays in its array exactly for short paths. -/
theorem output_fits_iff (kmalloc : Kmalloc H) (prevNext : Bool) (heap : H) (lines : List ShellLine)
    (hleads : LeadsTo (run (lineStep kmalloc prevNext) (bootShell kmalloc heap) lines).2 path node) :
    let s := (run (lineStep kmalloc prevNext) (bootShell kmalloc heap) lines).2
    (PromptFits s ↔ s.cwd.chars.length ≤ 33) ∧
      (WcFits s path ↔ wcLength (fileBytes s.files.fs node) path ≤ 64) :=
  ⟨prompt_fits_iff _, wc_fits_iff hleads (run_files_sized kmalloc prevNext heap lines)⟩

/-- At boot, and the file with its name in full. -/
theorem output_fits_boot :
    let s := (run (lineStep everyBlock false) (bootShell everyBlock ()) []).2
    (PromptFits s ↔ s.cwd.chars.length ≤ 33) ∧
      (WcFits s (bytes "/etc/motd") ↔ wcLength (fileBytes s.files.fs 3) (bytes "/etc/motd") ≤ 64) :=
  output_fits_iff everyBlock false () [] motd_leads

/-- A file with a name of 58 characters, a directory with one of 33, and the way into it. -/
def longNames : List ShellLine :=
  [.edit (.touch (List.replicate 58 97)), .edit (.mkdir (List.replicate 33 98)), .cd (List.replicate 33 98)]

/-- Neither array is large enough for what can be written to it. -/
theorem output_past_array :
    let s := (run (lineStep everyBlock false) (bootShell everyBlock ()) longNames).2
    let path := slash :: List.replicate 58 97
    ¬ PromptFits s ∧ path.length ≤ 74 ∧ LeadsTo s path 4 ∧ ¬ WcFits s path := by
  have hprompt : buildPrompt 48 (run (lineStep everyBlock false) (bootShell everyBlock ()) longNames).2.cwd =
      .error (.outOfBounds 48) := by decide +kernel
  have hwc : cmdWc (run (lineStep everyBlock false) (bootShell everyBlock ()) longNames).2
      (slash :: List.replicate 58 97) = .error (.outOfBounds 64) := by decide +kernel
  refine ⟨?_, by decide, leads_to_of (by decide) (by decide +kernel), ?_⟩
  · rintro ⟨out, hout⟩
    cases hprompt.symm.trans hout
  · rintro ⟨out, hout⟩
    cases hwc.symm.trans hout

end BaSic.Proofs.OutputRoom
