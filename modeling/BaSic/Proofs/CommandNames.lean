import BaSic.Proofs.CmdEntries

namespace BaSic.Proofs.CommandNames
open Kernel Lib CmdBounds CmdEntries

variable {W : Type} {s : CmdLine} {line name : List UInt8} {e : CmdEntry}

/-- The buffer as `dispatch` has it when it comes to its tests, and the line that these compare;
there is none where it returns before them. -/
def testedLine (s : CmdLine) : Except Fault (CmdLine × Option (List UInt8)) := do
  let s ← s.setChar s.cmdLen 0
  if s.cmdLen = 0 then .ok (s, none)
  else
    match ← expandLast s with
    | none => .ok (s, none)
    | some s => do
      let line ← strAt s.cmdBuf 0
      .ok (s, some line)

/-- The first test that is true of the line. -/
def handlerOf (line : List UInt8) : Option CmdEntry := commandTable.find? (fun e => e.matches line)

/-- The buffer has the line. -/
structure HasLine (s : CmdLine) (line : List UInt8) : Prop where
  len : s.cmdLen = line.length
  chars : ∀ k : Nat, k < line.length → s.cmdBuf k = line.getD k 0

theorem HasLine.tabulate (h : HasLine s line) : tabulate line.length (fun k => s.cmdBuf k) = line := by
  apply List.ext_getElem?
  intro k
  rw [tabulate_get?]
  split
  · rename_i hk
    simp [h.chars k hk, hk]
  · rename_i hk
    simp [Nat.le_of_not_lt hk]

/-- The line with the NUL behind it. -/
def ended (s : CmdLine) : CmdLine := { s with cmdBuf := Function.update s.cmdBuf s.cmdLen 0 }

theorem ended_chars (h : HasLine s line) {k : Nat} (hk : k < line.length) : (ended s).cmdBuf k = line.getD k 0 := by
  simp only [ended, h.len]
  rw [Function.update_of_ne (by omega)]
  exact h.chars k hk

theorem ended_text (h : HasLine s line) (hfits : Fits line) : strAt (ended s).cmdBuf 0 = .ok line := by
  have hnul : ∀ k : Nat, k < line.length → (ended s).cmdBuf k ≠ 0 := by
    intro k hk hzero
    rw [ended_chars h hk, List.getD_eq_getElem _ _ hk] at hzero
    exact hfits.2 (hzero ▸ List.getElem_mem hk)
  have hend : (ended s).cmdBuf line.length = 0 := by simp [ended, h.len]
  have hhas : HasLine (ended s) line := ⟨h.len, fun k hk => ended_chars h hk⟩
  rw [str_at_tabulate hfits.1 hnul hend]
  exact congrArg Except.ok hhas.tabulate

theorem literal_bang : literal "!!" = [33, 33] := utf8_of_chars _

/-- A line other than `!!` stands for itself. -/
theorem ended_expanded (h : HasLine s line) (hbang : line ≠ literal "!!") :
    expandLast (ended s) = .ok (some (ended s)) := by
  have hlen : (ended s).cmdLen = line.length := h.len
  unfold expandLast
  by_cases htwo : (ended s).cmdLen = 2
  · obtain ⟨a, b, rfl⟩ := List.length_eq_two.mp (show line.length = 2 by omega)
    have hno : ¬ ((ended s).cmdBuf 0 = 33 ∧ (ended s).cmdBuf 1 = 33) := by
      have hfirst : (ended s).cmdBuf 0 = a := ended_chars h (k := 0) (by simp)
      have hsecond : (ended s).cmdBuf 1 = b := ended_chars h (k := 1) (by simp)
      rintro ⟨h₀, h₁⟩
      apply hbang
      rw [← hfirst, ← hsecond, h₀, h₁]
      exact literal_bang.symm
    rw [if_pos htwo, char_at_ok (by decide) (by decide), ok_bind, char_at_ok (by decide) (by decide), ok_bind,
      if_neg hno]
  · simp [htwo]

/-- A line is tested as it is, if it is not `!!`. -/
theorem tested_line (h : HasLine s line) (hfits : Fits line) (hsome : line ≠ []) (hbang : line ≠ literal "!!") :
    testedLine s = .ok (ended s, some line) := by
  have hlen := hfits.1
  have hpos := List.length_pos_iff.mpr hsome
  have hset : s.setChar s.cmdLen 0 = .ok (ended s) := by
    apply set_char_ok
    · simp [h.len]
    · simpa [h.len] using hlen
  have hne : (ended s).cmdLen ≠ 0 := by
    have hsame : (ended s).cmdLen = line.length := h.len
    omega
  unfold testedLine
  simp only [hset, ok_bind, hne, if_false, ended_expanded h hbang, ended_text h hfits]

/-- The characters of a line up to the first blank. -/
def firstWord (line : List UInt8) : List UInt8 := line.takeWhile (· ≠ 32)

/-- The name of the command that a test is for. -/
def commandName (e : CmdEntry) : List UInt8 := firstWord e.text

/-- A handler is called only if the first word of the line is its command's name; a line with
another first word is one that is only printed. -/
def NamedRight (s : CmdLine) (line : List UInt8) : Prop :=
  ∃ t, testedLine s = .ok (t, some line) ∧ (∀ e, handlerOf line = some e → firstWord line = commandName e) ∧
    ((∀ e ∈ commandTable, firstWord line ≠ commandName e) → handlerOf line = none)

/-- The names whose tests leave out the blank. -/
def openNames : List (List UInt8) := [literal "kill", literal "grep"]

/-- How a test compares: the name in full, or with the blank behind it, or without. -/
theorem test_kinds : ∀ e ∈ commandTable, e.whole = true ∧ 32 ∉ e.text ∨
    e.whole = false ∧ e.text = commandName e ++ [32] ∨ e.whole = false ∧ e.text = commandName e ∧ e.text ∈ openNames := by
  decide +kernel

/-- Each of them has a test that is true of all that begins so, and no other name does. -/
theorem open_names_spec : ∀ name ∈ openNames, 32 ∉ name ∧ (∃ e ∈ commandTable, e.whole = false ∧ e.text = name) ∧
    ∀ e ∈ commandTable, name <+: commandName e → commandName e = name := by
  decide +kernel

theorem first_word_append (hname : 32 ∉ name) (rest : List UInt8) :
    firstWord (name ++ rest) = name ++ firstWord rest := by
  have hall : ∀ c ∈ name, decide (c ≠ 32) = true := by
    intro c hc
    simp only [decide_eq_true_eq]
    rintro rfl
    exact hname hc
  exact List.takeWhile_append_of_pos hall

theorem name_plain (e : CmdEntry) : 32 ∉ commandName e := by
  intro hmem
  have hne := List.mem_takeWhile_imp hmem
  simp at hne

/-- A test that is true of a line is for the first word of it, or for one of the two names. -/
theorem matched_word (he : e ∈ commandTable) (hmatch : e.matches line = true) :
    firstWord line = commandName e ∨ commandName e ∈ openNames ∧ commandName e <+: line := by
  unfold CmdEntry.matches at hmatch
  rcases test_kinds e he with ⟨hwhole, hplain⟩ | ⟨hwhole, htext⟩ | ⟨hwhole, htext, hopen⟩
  · have hline : line = e.text := by simpa [hwhole] using hmatch
    exact Or.inl (by rw [hline, commandName])
  · have hfront : e.text <+: line := by simpa [hwhole] using hmatch
    obtain ⟨rest, rfl⟩ := hfront
    have hblank : firstWord (32 :: rest) = [] := by simp [firstWord]
    left
    rw [htext, List.append_assoc, List.singleton_append, first_word_append (name_plain e), hblank, List.append_nil]
  · have hfront : e.text <+: line := by simpa [hwhole] using hmatch
    rw [htext] at hopen hfront
    exact Or.inr ⟨hopen, hfront⟩

/-- The test without the blank is true of the line, so its command is the one run. -/
theorem word_of_named (hright : NamedRight s line) {name : List UInt8} (hname : name ∈ openNames)
    (hfront : name <+: line) : firstWord line = name := by
  obtain ⟨-, -, hnamed, -⟩ := hright
  obtain ⟨hplain, ⟨e, he, hwhole, htext⟩, halone⟩ := open_names_spec name hname
  have hmatch : e.matches line = true := by simpa [CmdEntry.matches, hwhole, htext] using hfront
  have hfound : (handlerOf line).isSome := List.find?_isSome.mpr ⟨e, he, hmatch⟩
  obtain ⟨first, hfirst⟩ := Option.isSome_iff_exists.mp hfound
  have hword := hnamed first hfirst
  have hin : name <+: commandName first := by
    rw [← hword]
    obtain ⟨rest, rfl⟩ := hfront
    rw [first_word_append hplain]
    exact List.prefix_append _ _
  exact hword.trans (halone first (List.mem_of_find?_eq_some hfirst) hin)

/-- Only a command whose name is the first word of the line is run, exactly when a line that
begins with `kill` or `grep` has this as its first word. -/
theorem named_right_iff (h : HasLine s line) (hfits : Fits line) (hsome : line ≠ []) (hbang : line ≠ literal "!!") :
    NamedRight s line ↔ ∀ name ∈ openNames, name <+: line → firstWord line = name := by
  constructor
  · intro hright name hname hfront
    exact word_of_named hright hname hfront
  · intro hopen
    have hnamed : ∀ e, handlerOf line = some e → firstWord line = commandName e := by
      intro e he
      unfold handlerOf at he
      have hmatch := List.find?_some he
      rcases matched_word (List.mem_of_find?_eq_some he) hmatch with hword | ⟨hname, hfront⟩
      · exact hword
      · exact hopen _ hname hfront
    refine ⟨_, tested_line h hfits hsome hbang, hnamed, fun hother => ?_⟩
    cases hhandler : handlerOf line with
    | none => rfl
    | some e => exact absurd (hnamed e hhandler) (hother e (List.mem_of_find?_eq_some hhandler))

/-- A line alone in the buffer. -/
def lineOf (line : List UInt8) : CmdLine :=
  { freshLine with cmdBuf := fun i => if 0 ≤ i then line.getD i.toNat 0 else 0, cmdLen := line.length }

theorem line_of_has (line : List UInt8) : HasLine (lineOf line) line := by
  refine ⟨rfl, fun k _ => ?_⟩
  simp [lineOf]

theorem named_right_kill : NamedRight (lineOf (literal "kill 2")) (literal "kill 2") := by
  have hkill : literal "kill 2" = [107, 105, 108, 108, 32, 50] := utf8_of_chars _
  refine (named_right_iff (line_of_has _) ⟨by rw [hkill]; decide, by rw [hkill]; decide⟩ (by rw [hkill]; decide)
    (by rw [hkill, literal_bang]; decide)).mpr ?_
  decide +kernel

/-- A word that begins as the name of a command is taken for the command. -/
theorem killall_kills : ¬ NamedRight (lineOf (literal "killall 2")) (literal "killall 2") := by
  intro hright
  have hline : literal "killall 2" = [107, 105, 108, 108, 97, 108, 108, 32, 50] := utf8_of_chars _
  have hname : literal "kill" = [107, 105, 108, 108] := utf8_of_chars _
  have hword := word_of_named hright (List.mem_cons_self (a := literal "kill")) (by rw [hline, hname]; decide)
  rw [hline, hname] at hword
  exact absurd hword (by decide)

end BaSic.Proofs.CommandNames
