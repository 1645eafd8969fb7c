import BaSic.Lib.Forest
import BaSic.Proofs.RamfsTree

namespace BaSic.Proofs.SiblingNames
open Kernel Fs Lib RamfsTree

section Paths

variable {H : Type}

/-- A name that a path can contain. -/
def Component (name : List UInt8) : Prop := name ≠ [] ∧ slash ∉ name

/-- The names lead down from one node to another. -/
inductive Leads (fs : Ramfs H) : Nat → List (List UInt8) → Nat → Prop where
  | here (n : Nat) : Leads fs n [] n
  | down {d c n : Nat} {path : List (List UInt8)} (hc : c ∈ (fs.node d).children)
      (hname : Component (fs.node c).name) (rest : Leads fs c path n) : Leads fs d ((fs.node c).name :: path) n

/-- A slash in front, and one between any two names. -/
def pathText (path : List (List UInt8)) : List UInt8 := slash :: [slash].intercalate path

/-- A directory within reach finds each child by its name. -/
def Finds (fs : Ramfs H) (root : Nat) : Prop :=
  ∀ d c, (tree fs root).Reach d → c ∈ (fs.node d).children → ramfsFinddir fs d (fs.node c).name = some c

/-- `strncpy` left room for the 0 at the end of every name. -/
def NamesFit (fs : Ramfs H) : Prop := ∀ n, (fs.node n).name.length < vfsNameMax

variable {fs : Ramfs H} {root d c n : Nat} {name : List UInt8} {path : List (List UInt8)}

/-- What follows a name in a path. -/
def afterName (path : List (List UInt8)) : List UInt8 := if path = [] then [] else slash :: [slash].intercalate path

theorem intercalate_names (name : List UInt8) (path : List (List UInt8)) :
    [slash].intercalate (name :: path) = name ++ afterName path := by
  unfold afterName
  cases path with
  | nil => simp
  | cons next path => simp

theorem take_name (hname : Component name) (hfit : name.length < vfsNameMax) (path : List (List UInt8)) :
    ((name ++ afterName path).takeWhile (· ≠ slash)).take (vfsNameMax - 1) = name := by
  have hall : ∀ b ∈ name, decide (b ≠ slash) = true := by
    intro b hb
    simpa using fun heq : b = slash => hname.2 (heq ▸ hb)
  have hnone : (afterName path).takeWhile (· ≠ slash) = [] := by
    unfold afterName
    split
    · rfl
    · simp
  rw [List.takeWhile_append_of_pos hall, hnone, List.append_nil]
  exact List.take_of_length_le (Nat.le_sub_one_of_lt hfit)

theorem skip_slash (path : List (List UInt8)) :
    (if (afterName path).head? = some slash then (afterName path).tail else afterName path) =
      [slash].intercalate path := by
  unfold afterName
  by_cases hpath : path = []
  · simp [hpath]
  · simp [hpath]

/-- One round takes one name from the path. -/
theorem resolve_round (hname : Component name) (hfit : name.length < vfsNameMax)
    (hc : ramfsFinddir fs d name = some c) (fuel : Nat) (path : List (List UInt8)) :
    resolveFrom ramfsOps fs (fuel + 1) (some d) ([slash].intercalate (name :: path)) =
      resolveFrom ramfsOps fs fuel (some c) ([slash].intercalate path) := by
  have hmore : ¬ (name ++ afterName path = [] ∨ (some d).isNone = true) := by
    simp [hname.1]
  rw [intercalate_names]
  conv_lhs => unfold resolveFrom
  rw [if_neg hmore]
  dsimp only
  rw [take_name hname hfit path, List.drop_left, skip_slash]
  exact congrArg (fun cur => resolveFrom ramfsOps fs fuel cur _) hc

theorem resolve_leads (hfind : Finds fs root) (hfit : NamesFit fs) (hd : (tree fs root).Reach d)
    (h : Leads fs d path n) {fuel : Nat} (hfuel : ([slash].intercalate path).length ≤ fuel) :
    resolveFrom ramfsOps fs fuel (some d) ([slash].intercalate path) = some n := by
  induction h generalizing fuel with
  | here n =>
    cases fuel with
    | zero => rfl
    | succ fuel => rfl
  | @down d c n path hc hname rest ih =>
    rw [intercalate_names, List.length_append] at hfuel
    have hpos : 0 < (fs.node c).name.length := List.length_pos_of_ne_nil hname.1
    obtain ⟨fuel, rfl⟩ := Nat.exists_eq_add_of_le' (show 1 ≤ fuel by omega)
    rw [resolve_round hname (hfit c) (hfind d c hd hc)]
    refine ih (hd.child hc) ?_
    have hshorter : ([slash].intercalate path).length ≤ (afterName path).length := by
      unfold afterName
      split
      · rename_i hpath
        simp [hpath]
      · simp
    omega

/-- Where every child is found by its name, a path of names resolves to the node they lead to. -/
theorem resolve_path (hfind : Finds fs root) (hfit : NamesFit fs) (h : Leads fs root path n) :
    vfsResolve ramfsOps fs (some root) (pathText path) = some n := by
  unfold vfsResolve pathText
  rw [if_neg (by simp)]
  exact resolve_leads hfind hfit (tree fs root).reach_root h (Nat.le_refl _)

end Paths

section Siblings
open ShellEdits

variable {H : Type}

def nameOf (fs : Ramfs H) (n : Nat) : List UInt8 := (fs.node n).name

/-- No two children of a directory have the same name, so a name or a path that leads to a
node leads to no other. -/
structure Unambiguous (s : ShellFs H) : Prop where
  twinless : ∀ d, Reachable s d → ((s.fs.node d).children.map (nameOf s.fs)).Nodup
  finds : ∀ d c, Reachable s d → c ∈ (s.fs.node d).children → ramfsFinddir s.fs d (nameOf s.fs c) = some c
  resolves : ∀ root path n, s.fsRoot = some root → Leads s.fs root path n →
    vfsResolve ramfsOps s.fs s.fsRoot (pathText path) = some n

/-- There are blocks left for a node and for its data. -/
def HasMemory (kmalloc : Kmalloc H) (heap : H) : Prop :=
  (kmalloc heap nodeSize).1 = true ∧ (kmalloc (kmalloc heap nodeSize).2 dataSize).1 = true

def Untaken (fs : Ramfs H) (d : Nat) (name : List UInt8) : Prop :=
  ∀ c ∈ (fs.node d).children, (fs.node c).name ≠ name

/-- A node that is made, renamed or moved gets a name that no other node in the directory has. -/
def NewName (kmalloc : Kmalloc H) (fs : Ramfs H) : Edit → Prop
  | .make parent name _ =>
    HasMemory kmalloc fs.heap → (fs.node parent).children.length < maxChildren → Untaken fs parent (storedName name)
  | .rename parent node name => ∀ c ∈ (fs.node parent).children, c ≠ node → (fs.node c).name ≠ storedName name
  | .move _ node dstdir => Fits fs node dstdir → Untaken fs dstdir (fs.node node).name
  | _ => True

def shellCall (kmalloc : Kmalloc H) (s : ShellFs H) (op : List UInt8 × ShellCmd) : Except Fault String × ShellFs H :=
  shellStep kmalloc s op.1 op.2

/-- The command gives no node a name that is taken where the node is to be. -/
def TakesNewName (kmalloc : Kmalloc H) (s : ShellFs H) (op : List UInt8 × ShellCmd) : Prop :=
  NewName kmalloc s.fs (editOf s op.1 op.2)

variable {kmalloc : Kmalloc H} {fs gs : Ramfs H} {s : ShellFs H} {op : List UInt8 × ShellCmd} {root p n d : Nat}
  {name : List UInt8} {flags : NodeKind}

theorem not_mem_names : name ∉ (fs.node d).children.map (nameOf fs) ↔ Untaken fs d name := by
  simp [Untaken, nameOf]

theorem add_child_name (fs : Ramfs H) (p c m : Nat) : nameOf (addChild fs p c) m = nameOf fs m :=
  add_child_congr Node.name (fun _ _ _ => rfl) fs p c m

theorem make_made (kmalloc : Kmalloc H) (fs : Ramfs H) (parent : Option Nat) (name : List UInt8) (flags : NodeKind) :
    (ramfsMake kmalloc fs parent name flags).1 = (makeNode kmalloc fs name flags).1 :=
  ramfs_make_rule (P := fun node _ => node = (makeNode kmalloc fs name flags).1) rfl (fun _ _ _ h => h)

/-- A node is made exactly when there is memory for it. -/
theorem made_iff {parent : Option Nat} :
    (ramfsMake kmalloc fs parent name flags).1 ≠ none ↔ HasMemory kmalloc fs.heap := by
  rw [make_made]
  unfold makeNode HasMemory
  cases hnode : (kmalloc fs.heap nodeSize).1 with
  | false => simp [hnode]
  | true =>
    cases hdata : (kmalloc (kmalloc fs.heap nodeSize).2 dataSize).1 with
    | false => simp [hdata]
    | true =>
      cases flags with
      | dir => simp [hnode, hdata]
      | file => simp [hnode, hdata]

/-- The node made has the name given, and the others keep theirs. -/
theorem make_names (kmalloc : Kmalloc H) (fs : Ramfs H) (parent : Option Nat) (name : List UInt8) (flags : NodeKind) :
    (∀ m, m ≠ fs.next → nameOf (ramfsMake kmalloc fs parent name flags).2 m = nameOf fs m) ∧
      ((ramfsMake kmalloc fs parent name flags).1 = none →
        nameOf (ramfsMake kmalloc fs parent name flags).2 = nameOf fs) ∧
      ((ramfsMake kmalloc fs parent name flags).1 ≠ none →
        nameOf (ramfsMake kmalloc fs parent name flags).2 fs.next = storedName name) := by
  rw [make_made]
  unfold ramfsMake
  rcases make_node_cases kmalloc fs name flags with ⟨heap, hmake⟩ | ⟨node, gs, hmake, -, hnode, hname, -, -⟩
  · rw [hmake]
    exact ⟨fun _ _ => rfl, fun _ => rfl, fun h => absurd rfl h⟩
  · have hold : ∀ m, m ≠ fs.next → nameOf gs m = nameOf fs m := by
      intro m hm
      unfold nameOf
      rw [hnode, Function.update_of_ne hm]
    have hnew : nameOf gs fs.next = storedName name := by
      unfold nameOf
      rw [hnode, Function.update_self]
      exact hname
    rw [hmake]
    refine ⟨fun m hm => ?_, fun h => absurd h (Option.some_ne_none _), fun _ => ?_⟩
    · cases parent with
      | none => exact hold m hm
      | some p => exact (add_child_name gs p fs.next m).trans (hold m hm)
    · cases parent with
      | none => exact hnew
      | some p => exact (add_child_name gs p fs.next fs.next).trans hnew

theorem unlink_name (fs : Ramfs H) (p n m : Nat) : nameOf (unlinkChild fs p n) m = nameOf fs m := by
  unfold unlinkChild nameOf
  refine set_node_congr Node.name _ ?_ m
  rfl

theorem link_into_name (fs : Ramfs H) (n d m : Nat) : nameOf (linkInto fs n d) m = nameOf fs m := by
  unfold linkInto nameOf
  dsimp only
  refine (set_node_congr Node.name _ ?_ m).trans (set_node_congr Node.name _ ?_ m)
  · rfl
  · rfl

theorem move_name (kmalloc : Kmalloc H) (fs : Ramfs H) (p n d m : Nat) :
    nameOf (applyEdit kmalloc fs (.move p n d)) m = nameOf fs m := by
  unfold applyEdit
  dsimp only
  split
  · exact (link_into_name _ n d m).trans (unlink_name fs p n m)
  · exact unlink_name fs p n m

/-- An edit keeps the names of the children of every directory apart exactly when it gives a
new name only. -/
theorem twinless_apply_iff (kmalloc : Kmalloc H) (hs : Sound fs root) {e : Edit} (h : Allowed (tree fs root) e)
    (ht : (tree fs root).Twinless (nameOf fs)) :
    (tree (applyEdit kmalloc fs e) root).Twinless (nameOf (applyEdit kmalloc fs e)) ↔ NewName kmalloc fs e := by
  cases e with
  | none => exact iff_of_true ht trivial
  | make p name flags =>
    obtain ⟨hold, -, hnew⟩ := make_names kmalloc fs (some p) name flags
    have hl : ∀ m, (tree fs root).Reach m → nameOf (ramfsMake kmalloc fs (some p) name flags).2 m = nameOf fs m :=
      fun m hm => hold m (Nat.ne_of_lt (hs.made m hm))
    rcases make_forest kmalloc hs h name flags with ⟨hsame, -, hno⟩ | ⟨hsome, hroom, hlink, -⟩
    · refine iff_of_true ((hsame.twinless_iff hl).mpr ht) (fun hmemory hroom => ?_)
      rcases hno with hno | hfull
      · exact absurd hno (made_iff.mpr hmemory)
      · exact absurd hroom (Nat.not_lt.mpr hfull)
    · have hmade : (ramfsMake kmalloc fs (some p) name flags).1 ≠ none := by
        rw [hsome]
        exact Option.some_ne_none _
      have hlabels := hlink.twinless_iff h hs.not_next hl ht
      rw [hnew hmade] at hlabels
      refine hlabels.trans (not_mem_names.trans ⟨fun hfree _ _ => hfree, fun hall => hall ?_ hroom⟩)
      exact made_iff.mp hmade
  | unlink p n =>
    obtain ⟨hp, hn⟩ := h
    exact iff_of_true ((unlink_forest fs root p n).twinless hs.linked hp hn (fun m _ => unlink_name fs p n m) ht) trivial
  | rename p n name =>
    obtain ⟨hp, hn⟩ := h
    refine ((rename_forest fs root n (storedName name)).twinless_iff (fun _ _ => rfl)).trans ?_
    have hother : ∀ m, m ≠ n → nameOf (applyEdit kmalloc fs (.rename p n name)) m = nameOf fs m :=
      fun m hm => congrArg Node.name (set_node_ne fs _ hm)
    have hself : nameOf (applyEdit kmalloc fs (.rename p n name)) n = storedName name :=
      congrArg Node.name (set_node_self fs n _)
    have hlabels := hs.linked.relabel_iff hp hn hother ht
    rw [hself] at hlabels
    exact hlabels
  | move p n d =>
    obtain ⟨hp, hn, hd⟩ := h
    have hl : ∀ m, (tree fs root).Reach m → nameOf (applyEdit kmalloc fs (.move p n d)) m = nameOf fs m :=
      fun m _ => move_name kmalloc fs p n d m
    rcases move_forest hs hp hn hd kmalloc with ⟨hfit, hmove⟩ | ⟨hno, hcut⟩
    · have hlabels := hmove.twinless_iff hs.linked hp hn hd hfit.1 hl ht
      exact hlabels.trans (not_mem_names.trans ⟨fun hfree _ => hfree, fun hall => hall hfit⟩)
    · exact iff_of_true (hcut.twinless hs.linked hp hn hl ht) (fun hfit => absurd hfit hno)

/-- What names are old ones or have been cut to fit. -/
theorem names_fit_of (h : NamesFit fs)
    (hname : ∀ m, (∃ k, nameOf gs m = nameOf fs k) ∨ ∃ name, nameOf gs m = storedName name) : NamesFit gs := by
  intro m
  rcases hname m with ⟨k, hk⟩ | ⟨name, hnew⟩
  · exact (congrArg List.length hk).trans_lt (h k)
  · exact (congrArg List.length hnew).trans_lt (stored_fits name)

theorem make_names_fit (kmalloc : Kmalloc H) (h : NamesFit fs) (parent : Option Nat) (name : List UInt8)
    (flags : NodeKind) : NamesFit (ramfsMake kmalloc fs parent name flags).2 := by
  obtain ⟨hold, hnone, hnew⟩ := make_names kmalloc fs parent name flags
  refine names_fit_of h (fun m => ?_)
  by_cases hm : m = fs.next
  · rw [hm]
    by_cases hmade : (ramfsMake kmalloc fs parent name flags).1 = none
    · exact Or.inl ⟨fs.next, congrFun (hnone hmade) fs.next⟩
    · exact Or.inr ⟨name, hnew hmade⟩
  · exact Or.inl ⟨m, hold m hm⟩

theorem apply_names_fit (kmalloc : Kmalloc H) (h : NamesFit fs) (e : Edit) : NamesFit (applyEdit kmalloc fs e) := by
  cases e with
  | none => exact h
  | make p name flags => exact make_names_fit kmalloc h (some p) name flags
  | unlink p n => exact names_fit_of h (fun m => Or.inl ⟨m, unlink_name fs p n m⟩)
  | rename p n name =>
    refine names_fit_of h (fun m => ?_)
    by_cases hmn : m = n
    · rw [hmn]
      exact Or.inr ⟨name, congrArg Node.name (set_node_self fs n _)⟩
    · exact Or.inl ⟨m, congrArg Node.name (set_node_ne fs _ hmn)⟩
  | move p n d => exact names_fit_of h (fun m => Or.inl ⟨m, move_name kmalloc fs p n d m⟩)

/-- The tree is sound, and every name fits in its node. -/
structure Settled (s : ShellFs H) : Prop where
  sound : ∀ root, s.fsRoot = some root → Sound s.fs root
  fits : ∀ root, s.fsRoot = some root → NamesFit s.fs

theorem finds_of_twinless (ht : (tree fs root).Twinless (nameOf fs)) : Finds fs root := by
  intro d c hd hc
  cases hfound : ramfsFinddir fs d (fs.node c).name with
  | none => exact absurd rfl (finddir_none hfound hc)
  | some c' =>
    obtain ⟨hc', hname⟩ := finddir_some hfound
    exact congrArg some (List.inj_on_of_nodup_map (ht d hd) hc' hc hname)

/-- Names that are apart are found, one by one and along a path. -/
theorem unambiguous_iff (h : Settled s) (hroot : s.fsRoot = some root) :
    Unambiguous s ↔ (tree s.fs root).Twinless (nameOf s.fs) := by
  constructor
  · exact fun hu d hd => hu.twinless d ((reachable_iff hroot).mpr hd)
  · intro ht
    have hfinds := finds_of_twinless ht
    refine ⟨fun d hd => ht d ((reachable_iff hroot).mp hd), fun d c hd hc => ?_, fun root' path n hroot' hleads => ?_⟩
    · exact hfinds d c ((reachable_iff hroot).mp hd) hc
    · obtain rfl := Option.some.inj (hroot.symm.trans hroot')
      rw [hroot]
      exact resolve_path hfinds (h.fits root hroot) hleads

theorem no_root_unambiguous (hroot : s.fsRoot = none) : Unambiguous s := by
  refine ⟨fun d hd => absurd hd (not_reachable hroot), fun d c hd _ => absurd hd (not_reachable hroot), ?_⟩
  intro root path n hsome
  rw [hroot] at hsome
  cases hsome

theorem same_names (h : SameTree fs gs) : nameOf gs = nameOf fs := funext h.name

theorem names_fit_same (h : NamesFit fs) (hsame : SameTree fs gs) : NamesFit gs :=
  names_fit_of h (fun m => Or.inl ⟨m, hsame.name m⟩)

theorem Settled.step (h : Settled s) : Settled (shellCall kmalloc s op).2 := by
  have hsame := step_edit kmalloc s op.1 op.2
  have hkeeps := step_root kmalloc s op.1 op.2
  refine ⟨fun root hroot => ?_, fun root hroot => ?_⟩
  · exact step_sound (hkeeps.symm.trans hroot) (h.sound root (hkeeps.symm.trans hroot)) op.1 op.2
  · exact names_fit_same (apply_names_fit kmalloc (h.fits root (hkeeps.symm.trans hroot)) _) hsame

/-- A command keeps names unambiguous exactly when it gives a new name only. -/
theorem unambiguous_step_iff (h : Settled s) (hu : Unambiguous s) :
    Unambiguous (shellCall kmalloc s op).2 ↔ TakesNewName kmalloc s op := by
  have hstep : (shellCall kmalloc s op).2.fsRoot = s.fsRoot := step_root kmalloc s op.1 op.2
  cases hroot : s.fsRoot with
  | none =>
    refine iff_of_true (no_root_unambiguous (hstep.trans hroot)) ?_
    unfold TakesNewName
    rw [no_edit hroot]
    trivial
  | some root =>
    have hsame := step_edit kmalloc s op.1 op.2
    rw [unambiguous_iff h.step (hstep.trans hroot)]
    refine ((same_forest hsame root).twinless_iff (fun m _ => congrFun (same_names hsame) m)).trans ?_
    exact twinless_apply_iff kmalloc (h.sound root hroot) (edit_allowed hroot op.1 op.2)
      ((unambiguous_iff h hroot).mp hu)

theorem make_twinless (kmalloc : Kmalloc H) (hs : Sound fs root) (hp : (tree fs root).Reach p)
    (ht : (tree fs root).Twinless (nameOf fs)) (name : List UInt8) (flags : NodeKind)
    (hfree : Untaken fs p (storedName name)) :
    (tree (ramfsMake kmalloc fs (some p) name flags).2 root).Twinless
      (nameOf (ramfsMake kmalloc fs (some p) name flags).2) :=
  (twinless_apply_iff kmalloc hs (e := .make p name flags) hp ht).mpr (fun _ _ => hfree)

/-- In an empty directory a new node is the only one. -/
theorem make_only (kmalloc : Kmalloc H) (hs : Sound fs root) (hp : (tree fs root).Reach p)
    (hempty : (fs.node p).children = []) (name : List UInt8) (flags : NodeKind) {c : Nat}
    (hc : c ∈ ((ramfsMake kmalloc fs (some p) name flags).2.node p).children) :
    nameOf (ramfsMake kmalloc fs (some p) name flags).2 c = storedName name := by
  obtain ⟨-, -, hnew⟩ := make_names kmalloc fs (some p) name flags
  rcases make_forest kmalloc hs hp name flags with ⟨hsame, -, -⟩ | ⟨hsome, -, hlink, -⟩
  · have hkids : ((ramfsMake kmalloc fs (some p) name flags).2.node p).children = [] := (hsame.kids p hp).trans hempty
    rw [hkids] at hc
    cases hc
  · have hkids : ((ramfsMake kmalloc fs (some p) name flags).2.node p).children = [] ++ [fs.next] :=
      hempty ▸ hlink.at_parent
    rw [hkids, List.nil_append, List.mem_singleton] at hc
    rw [hc]
    refine hnew ?_
    rw [hsome]
    exact Option.some_ne_none _

theorem untaken_of_empty (h : (fs.node d).children = []) (name : List UInt8) : Untaken fs d name := by
  intro c hc
  rw [h] at hc
  cases hc

/-- What mounting makes has different names. -/
theorem mount_twinless (kmalloc : Kmalloc H) (heap : H) (hroot : (mountRamfs kmalloc heap).fsRoot = some root) :
    (tree (mountRamfs kmalloc heap).fs root).Twinless (nameOf (mountRamfs kmalloc heap).fs) := by
  obtain ⟨gs, hsound, hkids, -, hsame⟩ := mount_steps kmalloc heap hroot
  have hreach := (tree gs root).reach_root
  have hclosed : ∀ d ∈ ({root} : Set Nat), ∀ c ∈ (gs.node d).children, c ∈ ({root} : Set Nat) := by
    rintro d rfl c hc
    rw [hkids] at hc
    cases hc
  have halone : (tree gs root).Twinless (nameOf gs) := by
    intro d hd
    obtain rfl : d = root := hd.mem (S := {root}) rfl hclosed
    unfold tree
    dsimp only
    rw [hkids]
    exact List.nodup_nil
  have hetc := hsound.make hreach kmalloc (bytes "etc") .dir
  have hdev := hetc.make (tree _ root).reach_root kmalloc (bytes "dev") .dir
  have hetc_names := make_twinless kmalloc hsound hreach halone (bytes "etc") .dir (untaken_of_empty hkids _)
  have hdev_names := make_twinless kmalloc hetc (tree _ root).reach_root hetc_names (bytes "dev") .dir (by
    intro c hc heq
    have hother := (make_only kmalloc hsound hreach hkids (bytes "etc") .dir hc).symm.trans heq
    revert hother
    decide +kernel)
  refine ((same_forest hsame root).twinless_iff (fun m _ => congrFun (same_names hsame) m)).mpr ?_
  cases hgiven : (ramfsMake kmalloc gs (some root) (bytes "etc") .dir).1 with
  | none =>
    obtain ⟨hstill, -⟩ := make_no_parent kmalloc hdev (bytes "motd") .file
    refine (hstill.twinless_iff (fun m hm => ?_)).mpr hdev_names
    exact (make_names kmalloc _ none (bytes "motd") .file).1 m (Nat.ne_of_lt (hdev.made m hm))
  | some etc =>
    have hroom : (gs.node root).children.length < maxChildren := by
      rw [hkids]
      decide
    obtain ⟨rfl, hin, hempty⟩ := make_given hsound hreach hroom hgiven
    have hnr : gs.next ≠ root := (Nat.ne_of_lt (hsound.made root hreach)).symm
    have hroot' := (tree (ramfsMake kmalloc gs (some root) (bytes "etc") .dir).2 root).reach_root
    refine make_twinless kmalloc hdev (make_keeps kmalloc hetc hroot' _ _ hin) hdev_names _ _ (untaken_of_empty ?_ _)
    exact (make_kids kmalloc hetc hroot' _ _ hin hnr).trans hempty

theorem mount_settled (kmalloc : Kmalloc H) (heap : H) : Settled (mountRamfs kmalloc heap) := by
  refine ⟨fun root hroot => mount_sound kmalloc heap hroot, fun root hroot => ?_⟩
  obtain ⟨gs, -, -, hfit, hsame⟩ := mount_steps kmalloc heap hroot
  refine names_fit_same (make_names_fit kmalloc ?_ _ _ _) hsame
  exact make_names_fit kmalloc (make_names_fit kmalloc hfit _ _ _) _ _ _

theorem mount_unambiguous (kmalloc : Kmalloc H) (heap : H) : Unambiguous (mountRamfs kmalloc heap) := by
  cases hroot : (mountRamfs kmalloc heap).fsRoot with
  | none => exact no_root_unambiguous hroot
  | some root => exact (unambiguous_iff (mount_settled kmalloc heap) hroot).mpr (mount_twinless kmalloc heap hroot)

/-- After boot names and paths are unambiguous in every state of a run exactly when all
commands give new names only. -/
theorem names_unambiguous_iff (kmalloc : Kmalloc H) (heap : H) (ops : List (List UInt8 × ShellCmd)) :
    Along (After (shellCall kmalloc) Unambiguous) (shellCall kmalloc) (mountRamfs kmalloc heap) ops ↔
      Along (TakesNewName kmalloc) (shellCall kmalloc) (mountRamfs kmalloc heap) ops :=
  Along.after_iff (J := Settled) (fun _ _ h _ _ => h.step) (fun _ _ h hu => unambiguous_step_iff h hu)
    (mount_settled kmalloc heap) (mount_unambiguous kmalloc heap) ops

/-- A second `etc`: no name and no path leads to it. -/
theorem second_etc_hidden :
    let s := (shellCall everyBlock (mountRamfs everyBlock ()) (bytes "/", .mkdir (bytes "etc"))).2
    4 ∈ (s.fs.node 0).children ∧ nameOf s.fs 4 = bytes "etc" ∧ ramfsFinddir s.fs 0 (bytes "etc") = some 1 ∧
      ¬ Unambiguous s := by
  rw [mount_eq]
  intro s
  have hfound : ramfsFinddir s.fs 0 (bytes "etc") = some 1 := by decide +kernel
  have hname : nameOf s.fs 4 = bytes "etc" := by decide +kernel
  have hchild : 4 ∈ (s.fs.node 0).children := by decide +kernel
  have hroot : s.fsRoot = some 0 := by decide +kernel
  refine ⟨hchild, hname, hfound, fun hu => ?_⟩
  have hfinds := hu.finds 0 4 ⟨0, hroot, (tree s.fs 0).reach_root⟩ hchild
  rw [hname, hfound] at hfinds
  cases hfinds

end Siblings

end BaSic.Proofs.SiblingNames
