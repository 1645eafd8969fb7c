import BaSic.Proofs.FileSizes
import BaSic.Proofs.MadeNodes

namespace BaSic.Proofs.WriteReplace
open Kernel Fs ShellEdits EditorSave FileSizes MadeNodes

variable {H : Type} {kmalloc : Kmalloc H} {fs gs : Ramfs H} {s : ShellFs H} {n p : Nat} {cwd fname text : List UInt8}

/-- The file that is written is no longer than the text, and has a buffer to take it; a new one
has the buffer there is memory for. -/
def Replaces (kmalloc : Kmalloc H) (fs : Ramfs H) (p : Nat) (fname text : List UInt8) : Prop :=
  match ramfsFinddir fs p fname with
  | some n => (fs.node n).length.toNat ≤ text.length ∧ ((fs.node n).buf.isSome ∨ text = [])
  | none => HasBuffer kmalloc fs.heap ∨ text = []

/-- What is read of a file that a text has been written to. -/
theorem write_cat (h : Sized fs) (htext : text.length ≤ 4096) : ∃ k gs,
    vfsWrite ramfsOps fs (some n) 0 text = .ok (k, gs) ∧
      (catFile gs n = .ok text ↔ (fs.node n).length.toNat ≤ text.length ∧ ((fs.node n).buf.isSome ∨ text = [])) := by
  cases hbuf : (fs.node n).buf with
  | none =>
    refine ⟨0, fs, write_none hbuf 0 text, ?_⟩
    simp [cat_none hbuf, h.no_buffer hbuf, eq_comm]
  | some buf =>
    have hholds : Holds fs n (fileBytes fs n) := h.holds (by simp [hbuf])
    have hle := holds_length_le hholds
    obtain ⟨gs, hw, hnew, -⟩ := write_front hholds htext
    refine ⟨_, gs, hw, ?_⟩
    rw [cat_holds hnew, hholds.2, toNat_small (by omega)]
    simp

/-- The file written, new or not. -/
theorem replaces_iff (hn : (findOrMake kmalloc fs p fname).1 = some n) : Replaces kmalloc fs p fname text ↔
    ((findOrMake kmalloc fs p fname).2.node n).length.toNat ≤ text.length ∧
      (((findOrMake kmalloc fs p fname).2.node n).buf.isSome ∨ text = []) := by
  unfold findOrMake Replaces at *
  cases hfound : ramfsFinddir fs p fname with
  | some m =>
    rw [hfound] at hn
    obtain rfl := Option.some.inj hn
    rfl
  | none =>
    rw [hfound] at hn
    obtain ⟨hmem, rfl⟩ := made_memory hn
    have hdata := add_child_data (withNode kmalloc fs fname .file) p fs.next fs.next
    have hnode : (withNode kmalloc fs fname .file).node fs.next = madeNode kmalloc fs.heap fname .file :=
      set_node_self _ _ _
    simp only [ramfsMkfile, make_some hmem, hdata, hnode]
    by_cases hbuf : HasBuffer kmalloc fs.heap
    · simp [madeNode, hbuf]
    · simp [madeNode, hbuf]

/-- After `write` the file has the text and nothing else, if and only if it was no longer than
the text and has a buffer to take it. -/
theorem write_replaces_iff (hsized : Sized s.fs) (hcwd : cwdNode s cwd = some p)
    (hok : (cmdWrite kmalloc s cwd fname text).1 = .ok "OK") (hn : (findOrMake kmalloc s.fs p fname).1 = some n)
    (htext : text.length < 78) :
    catFile (cmdWrite kmalloc s cwd fname text).2.fs n = .ok text ↔ Replaces kmalloc s.fs p fname text := by
  have hname : fname ≠ [] := by
    rintro rfl
    simp [cmdWrite] at hok
  rw [replaces_iff hn]
  obtain ⟨k, gs, hw, hcat⟩ := write_cat (n := n) (hsized.find_or_make kmalloc p fname)
    (show text.length ≤ 4096 by omega)
  cases hfound : findOrMake kmalloc s.fs p fname with
  | mk node fs =>
    rw [hfound] at hn hw hcat
    obtain rfl : node = some n := hn
    simpa [cmdWrite, hname, hcwd, hfound, hw] using hcat

/-- `/etc/motd`, written from its directory. -/
theorem write_replaces_motd :
    let text := List.replicate 60 97
    catFile (cmdWrite everyBlock (mountRamfs everyBlock ()) (bytes "/etc") (bytes "motd") text).2.fs 3 = .ok text := by
  intro text
  refine (write_replaces_iff (p := 1) (mount_sized everyBlock ()) (by rw [mount_eq]; decide +kernel)
    (by rw [mount_eq]; decide +kernel) (by rw [mount_eq]; decide +kernel) (by decide)).mpr ?_
  have hfound : ramfsFinddir (mountRamfs everyBlock ()).fs 1 (bytes "motd") = some 3 := by
    rw [mount_eq]
    decide +kernel
  unfold Replaces
  rw [hfound]
  exact ⟨by rw [mount_eq]; decide, Or.inl (by rw [mount_eq]; decide)⟩

/-- A shorter text leaves the rest of what the file had. -/
theorem write_leaves_rest : let text := bytes "hi"
    (cmdWrite everyBlock (mountRamfs everyBlock ()) (bytes "/etc") (bytes "motd") text).1 = .ok "OK" ∧
      catFile (cmdWrite everyBlock (mountRamfs everyBlock ()) (bytes "/etc") (bytes "motd") text).2.fs 3 ≠ .ok text := by
  rw [mount_eq]
  decide +kernel

end BaSic.Proofs.WriteReplace
