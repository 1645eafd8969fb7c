import BaSic.Lib.Parts
import BaSic.Proofs.SiblingNames

namespace BaSic.Proofs.PathWalk
open Fs Kernel Lib SiblingNames

section Walk
variable {F N : Type} (ops : VfsOps F N) (fs : F)

/-- The names looked up one after the other. -/
def walk (cur : Option N) (names : List (List UInt8)) : Option N := names.foldl (vfsFinddir ops fs) cur

/-- What `vfs_resolve` is for: the parts of an absolute path looked up from the root. -/
def walkPath (fsRoot : Option N) (path : List UInt8) : Option N :=
  if path.head? ≠ some slash then none else walk ops fs fsRoot (parts slash path.tail)

/-- What the scanner of `vfs_resolve` takes for names. -/
def pieces (path : List UInt8) : List (List UInt8) := (parts slash path).flatMap (cutEvery (vfsNameMax - 1))

@[simp] theorem walk_none (names : List (List UInt8)) : walk ops fs none names = none := by
  induction names with
  | nil => rfl
  | cons name names ih => exact ih

variable {part path : List UInt8}

/-- What stands before the first slash, and what stands behind it. -/
theorem exists_part (hsome : path ≠ []) : ∃ part rest, slash ∉ part ∧ path = part ++ rest ∧
    path.takeWhile (· ≠ slash) = part ∧ ((rest = [] ∧ part ≠ []) ∨ ∃ more, rest = slash :: more) := by
  obtain ⟨lines, part, rfl, hlines, hpart⟩ := exists_cut slash path
  have hall : ∀ part : List UInt8, slash ∉ part → ∀ c ∈ part, decide (c ≠ slash) = true :=
    fun part hno c hc => by simpa using fun heq : c = slash => hno (heq ▸ hc)
  cases lines with
  | nil => exact ⟨part, [], hpart, by simp, List.takeWhile_eq_self_iff.mpr (hall part hpart),
      Or.inl ⟨rfl, by simpa using hsome⟩⟩
  | cons line lines =>
    have hline := hlines line List.mem_cons_self
    refine ⟨line, slash :: (terminated slash lines ++ part), hline, by simp, ?_, Or.inr ⟨_, rfl⟩⟩
    rw [terminated_cons, List.append_assoc, List.takeWhile_append_of_pos (hall line hline)]
    simp

/-- The parts of a path with another first part. -/
theorem parts_first {part rest : List UInt8} (hpart : slash ∉ part)
    (hrest : (rest = [] ∧ part ≠ []) ∨ ∃ more, rest = slash :: more) :
    parts slash (part ++ rest) = part :: parts slash (if rest.head? = some slash then rest.tail else rest) := by
  rcases hrest with ⟨rfl, hsome⟩ | ⟨more, rfl⟩
  · simp [parts_single hpart hsome, parts_nil]
  · simp [parts_cons hpart]

/-- One round of the loop takes the next piece. -/
theorem pieces_round (hsome : path ≠ []) :
    let part := (path.takeWhile (· ≠ slash)).take (vfsNameMax - 1)
    let rest := path.drop part.length
    pieces path = part :: pieces (if rest.head? = some slash then rest.tail else rest) := by
  obtain ⟨part, rest, hpart, rfl, hwhile, hrest⟩ := exists_part hsome
  simp only [hwhile]
  by_cases hfit : part.length ≤ vfsNameMax - 1
  · simp [pieces, List.take_of_length_le hfit, parts_first hpart hrest, cut_every_short hfit]
  · have hlong : vfsNameMax - 1 < part.length := by omega
    have hdrop : slash ∉ part.drop (vfsNameMax - 1) := fun hmem => hpart (List.mem_of_mem_drop hmem)
    have hleft : part.drop (vfsNameMax - 1) ≠ [] := by simpa using hlong
    have hhead : (part.drop (vfsNameMax - 1) ++ rest).head? ≠ some slash := by
      cases hd : part.drop (vfsNameMax - 1) with
      | nil => exact absurd hd hleft
      | cons c more =>
        rw [hd, List.mem_cons, not_or] at hdrop
        simpa using Ne.symm hdrop.1
    have hrest' : (rest = [] ∧ part.drop (vfsNameMax - 1) ≠ []) ∨ ∃ more, rest = slash :: more :=
      hrest.imp (fun h => ⟨h.1, hleft⟩) id
    have hlen : (part.take (vfsNameMax - 1)).length = vfsNameMax - 1 := by
      rw [List.length_take]
      omega
    have hcut : (part ++ rest).drop (vfsNameMax - 1) = part.drop (vfsNameMax - 1) ++ rest :=
      List.drop_append_of_le_length (by omega)
    rw [hlen, hcut, if_neg hhead]
    simp only [pieces, parts_first hpart hrest, parts_first hdrop hrest', List.flatMap_cons,
      cut_every_long (show 0 < vfsNameMax - 1 by decide) hlong, List.cons_append]

/-- One round leaves a shorter path. -/
theorem round_shorter (hsome : path ≠ []) :
    let part := (path.takeWhile (· ≠ slash)).take (vfsNameMax - 1)
    let rest := path.drop part.length
    (if rest.head? = some slash then rest.tail else rest).length < path.length := by
  obtain ⟨c, path, rfl⟩ := List.exists_cons_of_ne_nil hsome
  have hmax : vfsNameMax - 1 = 63 := rfl
  by_cases hc : c = slash
  · simp [hc]
  · simp only [hmax, List.takeWhile_cons, hc, ne_eq, not_false_eq_true, decide_true, if_true, List.take_succ_cons,
      List.length_cons, List.drop_succ_cons]
    split
    · rw [List.length_tail, List.length_drop]
      omega
    · rw [List.length_drop]
      omega

theorem resolve_from_walk {fuel : Nat} (hfuel : path.length ≤ fuel) (cur : Option N) :
    resolveFrom ops fs fuel cur path = walk ops fs cur (pieces path) := by
  induction fuel generalizing path cur with
  | zero =>
    obtain rfl := List.length_eq_zero_iff.mp (Nat.le_zero.mp hfuel)
    simp [resolveFrom, pieces, parts_nil, walk]
  | succ fuel ih =>
    by_cases hsome : path = []
    · simp [resolveFrom, hsome, pieces, parts_nil, walk]
    · cases cur with
      | none => simp [resolveFrom]
      | some cur =>
        have hround := pieces_round hsome
        simp only at hround
        rw [hround]
        have hshorter := round_shorter hsome
        simp only [resolveFrom, hsome, Option.isNone_some, Bool.false_eq_true, or_self, if_false]
        exact ih (by omega) _

/-- `vfs_resolve` looks up the pieces of the path. -/
theorem resolve_eq (fsRoot : Option N) (path : List UInt8) : vfsResolve ops fs fsRoot path =
    if path.head? ≠ some slash then none else walk ops fs fsRoot (pieces path.tail) := by
  simp only [vfsResolve, resolve_from_walk ops fs (Nat.le_refl _)]

end Walk

variable {H : Type} {fs : Ramfs H} {cur : Option Nat} {names : List (List UInt8)} {name path : List UInt8}

/-- The names are those of nodes that lead from one to the next, as `finddir` finds them. -/
inductive Spells (fs : Ramfs H) : Nat → List (List UInt8) → Nat → Prop where
  | here (n : Nat) : Spells fs n [] n
  | down {d c n : Nat} {name : List UInt8} {names : List (List UInt8)} (hc : ramfsFinddir fs d name = some c)
      (rest : Spells fs c names n) : Spells fs d (name :: names) n

theorem walk_spells (d n : Nat) : walk ramfsOps fs (some d) names = some n ↔ Spells fs d names n := by
  induction names generalizing d with
  | nil =>
    constructor
    · intro h
      cases h
      exact Spells.here n
    · intro h
      cases h
      rfl
  | cons name names ih =>
    have hstep : walk ramfsOps fs (some d) (name :: names) = walk ramfsOps fs (ramfsFinddir fs d name) names := rfl
    rw [hstep]
    constructor
    · intro h
      cases hc : ramfsFinddir fs d name with
      | none =>
        rw [hc, walk_none] at h
        cases h
      | some c =>
        rw [hc] at h
        exact Spells.down hc ((ih c).mp h)
    · rintro (_ | ⟨hc, hrest⟩)
      rw [hc]
      exact (ih _).mpr hrest

/-- A name too long for a node is not found. -/
theorem finddir_long (hfit : NamesFit fs) (d : Nat) (hlong : vfsNameMax - 1 < name.length) :
    ramfsFinddir fs d name = none := by
  rw [ramfsFinddir, List.find?_eq_none]
  intro c _ heq
  have hname := hfit c
  rw [eq_of_beq heq] at hname
  omega

theorem walk_long (hfit : NamesFit fs) (hname : name ∈ names) (hlong : vfsNameMax - 1 < name.length) :
    walk ramfsOps fs cur names = none := by
  induction names generalizing cur with
  | nil => cases hname
  | cons first names ih =>
    have hstep : walk ramfsOps fs cur (first :: names) =
        walk ramfsOps fs (vfsFinddir ramfsOps fs cur first) names := rfl
    rw [hstep]
    cases hname with
    | head =>
      have hnone : vfsFinddir ramfsOps fs cur name = none := by
        cases cur with
        | none => rfl
        | some d => exact finddir_long hfit d hlong
      rw [hnone, walk_none]
    | tail _ hname => exact ih hname

/-- A path of short parts has no other pieces. -/
theorem pieces_short (hshort : ∀ name ∈ parts slash path, name.length ≤ vfsNameMax - 1) :
    pieces path = parts slash path := by
  have heach : ∀ name ∈ parts slash path, cutEvery (vfsNameMax - 1) name = [name] :=
    fun name hname => cut_every_short (hshort name hname)
  rw [pieces, List.flatMap_congr heach, List.flatMap_singleton']

theorem walk_eq_none : walk ramfsOps fs cur names = none ↔ ¬ ∃ d n, cur = some d ∧ Spells fs d names n := by
  cases cur with
  | none => simp
  | some d =>
    constructor
    · rintro hnone ⟨d', n, heq, hspells⟩
      obtain rfl := Option.some.inj heq
      rw [(walk_spells d n).mpr hspells] at hnone
      cases hnone
    · intro hno
      by_contra hsome
      obtain ⟨n, hn⟩ := Option.ne_none_iff_exists'.mp hsome
      exact hno ⟨d, n, rfl, (walk_spells d n).mp hn⟩

/-- `vfs_resolve` looks up the parts of a path, if and only if it is not absolute, or each part
has room in the buffer, or no node is found under the pieces that longer ones are cut into. -/
theorem resolve_walks_iff (hfit : NamesFit fs) (fsRoot : Option Nat) (path : List UInt8) :
    vfsResolve ramfsOps fs fsRoot path = walkPath ramfsOps fs fsRoot path ↔ path.head? ≠ some slash ∨
      (∀ name ∈ parts slash path.tail, name.length < vfsNameMax) ∨
      ¬ ∃ root n, fsRoot = some root ∧ Spells fs root (pieces path.tail) n := by
  rw [resolve_eq]
  by_cases habs : path.head? = some slash
  · simp only [walkPath, habs, ne_eq, not_true_eq_false, if_false, false_or]
    by_cases hshort : ∀ name ∈ parts slash path.tail, name.length < vfsNameMax
    · have hpieces := pieces_short (fun name hname => Nat.le_sub_one_of_lt (hshort name hname))
      exact iff_of_true (by rw [hpieces]) (Or.inl hshort)
    · rw [or_iff_right hshort]
      push Not at hshort
      obtain ⟨name, hname, hlong⟩ := hshort
      rw [walk_long hfit hname (Nat.lt_of_lt_of_le (by decide) hlong)]
      exact walk_eq_none
  · simp [walkPath, habs]

/-- 63 characters, as many as there is room for. -/
def longName : List UInt8 := List.replicate 63 97

/-- A file in a directory with the longest name. -/
def deepTree : Ramfs Unit :=
  (ramfsMkfile everyBlock (ramfsMkdir everyBlock bootRamfs (some 0) longName).2 (some 4) [98]).2

theorem deep_names_fit : NamesFit deepTree := by
  have hboot := (mount_settled everyBlock ()).fits 0 (by rw [mount_eq])
  rw [mount_eq] at hboot
  rw [deepTree, boot_ramfs_eq]
  exact make_names_fit _ (make_names_fit _ hboot _ _ _) _ _ _

theorem resolve_walks_deep :
    let path := slash :: longName ++ slash :: [98]
    vfsResolve ramfsOps deepTree (some 0) path = walkPath ramfsOps deepTree (some 0) path ↔
      path.head? ≠ some slash ∨ (∀ name ∈ parts slash path.tail, name.length < vfsNameMax) ∨
        ¬ ∃ root n, some 0 = some root ∧ Spells deepTree root (pieces path.tail) n :=
  resolve_walks_iff deep_names_fit (some 0) _

/-- A name with the file's behind it and no slash between them leads to the file. -/
theorem long_name_split :
    let path := slash :: longName ++ [98]
    NamesFit deepTree ∧ vfsResolve ramfsOps deepTree (some 0) path ≠ walkPath ramfsOps deepTree (some 0) path :=
  ⟨deep_names_fit, by rw [deepTree, boot_ramfs_eq]; decide⟩

end BaSic.Proofs.PathWalk
