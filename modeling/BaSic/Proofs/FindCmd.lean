import BaSic.Kernel.TextCmds
import BaSic.Lib.Preorder
import BaSic.Proofs.SiblingNames

namespace BaSic.Proofs.FindCmd
open Kernel Fs Lib ShellEdits RamfsTree SiblingNames

variable {H : Type}

/-- The part of the tree that is searched: what a file lists is not. -/
def searched (fs : Ramfs H) (root : Nat) : Forest Nat where
  root := root
  kids d := if d = root ∨ (fs.node d).flags = .dir then (fs.node d).children else []
  up c := (fs.node c).parent

/-- The path in `cpath` when there is one before it. -/
def childStr (path : PathStr) (name : List UInt8) : PathStr :=
  match path.chars.getLast? with
  | none => path
  | some last => appendPath (withSlash path last) name

/-- What is in `cpath` at the end of a way down. -/
def lineOf (fs : Ramfs H) (path : PathStr) (route : List Nat) : PathStr :=
  route.foldl (fun path c => childStr path (nameOf fs c)) path

def isNamed (fs : Ramfs H) (name : List UInt8) (e : List Nat × Nat) : Bool := nameOf fs e.2 = name

/-- The nodes that have a name, with the ways that lead to them, and what is printed of them. -/
structure Found (s : ShellFs H) (root : Nat) (name : List UInt8) (found : List (List Nat × Nat)) : Prop where
  printed : cmdFind s name = .ok (if found = [] then [bytes "not found."]
    else found.map (fun e => (lineOf s.fs rootPath e.1).chars))
  routes : ∀ e ∈ found, (searched s.fs root).Route root e.1 e.2
  once : (found.map Prod.snd).Nodup
  all : ∀ n, n ∈ found.map Prod.snd ↔ Relation.TransGen (searched s.fs root).Child root n ∧ nameOf s.fs n = name
  resolves : Unambiguous s → ∀ e ∈ found, (∀ c ∈ e.1, Component (nameOf s.fs c)) →
    (pathText (e.1.map (nameOf s.fs))).length < vfsPathMax →
      (lineOf s.fs rootPath e.1).chars = pathText (e.1.map (nameOf s.fs)) ∧
        vfsResolve ramfsOps s.fs s.fsRoot (lineOf s.fs rootPath e.1).chars = some e.2

variable {fs : Ramfs H} {s : ShellFs H} {root d n k : Nat} {name : List UInt8} {path : PathStr} {route : List Nat}

section Search

theorem searched_kids {c : Nat} (hc : c ∈ (searched fs root).kids d) : c ∈ (fs.node d).children := by
  change c ∈ (if d = root ∨ (fs.node d).flags = .dir then (fs.node d).children else []) at hc
  split at hc
  · exact hc
  · cases hc

theorem searched_reach (h : (searched fs root).Reach n) : (tree fs root).Reach n := by
  induction h with
  | refl => exact Relation.ReflTransGen.refl
  | tail _ hc ih => exact ih.child (searched_kids hc)

theorem searched_linked (hs : Sound fs root) : (searched fs root).Linked maxChildren where
  top := hs.linked.top
  nodup d hd := by
    change (if d = root ∨ (fs.node d).flags = .dir then (fs.node d).children else []).Nodup
    split
    · exact hs.linked.nodup d (searched_reach hd)
    · exact List.nodup_nil
  parent d c hd hc := hs.linked.parent d c (searched_reach hd) (searched_kids hc)
  fits d hd := by
    change (if d = root ∨ (fs.node d).flags = .dir then (fs.node d).children else []).length ≤ maxChildren
    split
    · exact hs.linked.fits d (searched_reach hd)
    · exact Nat.zero_le _

theorem searched_made (hs : Sound fs root) (n : Nat) (hn : (searched fs root).Reach n) : n ∈ Finset.range fs.next :=
  Finset.mem_range.mpr (hs.made n (searched_reach hn))

theorem child_path_ok (h : path.chars ≠ []) (name : List UInt8) : childPath path name = .ok (childStr path name) := by
  unfold childPath childStr
  cases hlast : path.chars.getLast? with
  | none => exact absurd (List.getLast?_eq_none_iff.mp hlast) h
  | some last => rfl

theorem child_str_some (h : path.chars ≠ []) (name : List UInt8) : (childStr path name).chars ≠ [] := by
  unfold childStr
  split
  · exact h
  · unfold appendPath withSlash
    dsimp only
    split
    · simp
    · simp [h]

/-- What is printed of a child and of the nodes below it. -/
theorem child_lines (fs : Ramfs H) (path : PathStr) (name : List UInt8) (c : Nat) (rest : List (List Nat × Nat)) :
    ((([c], c) :: rest.map (fun e => (c :: e.1, e.2))).filter (isNamed fs name)).map
        (fun e => (lineOf fs path e.1).chars) =
      (if nameOf fs c = name then [(childStr path (nameOf fs c)).chars] else []) ++
        (rest.filter (isNamed fs name)).map (fun e => (lineOf fs (childStr path (nameOf fs c)) e.1).chars) := by
  have hrest : ((rest.map (fun e => (c :: e.1, e.2))).filter (isNamed fs name)).map (fun e => (lineOf fs path e.1).chars) =
      (rest.filter (isNamed fs name)).map (fun e => (lineOf fs (childStr path (nameOf fs c)) e.1).chars) := by
    rw [List.filter_map, List.map_map]
    rfl
  by_cases hname : nameOf fs c = name
  · have hkept : isNamed fs name ([c], c) = true := decide_eq_true hname
    rw [List.filter_cons_of_pos hkept, List.map_cons, hrest, if_pos hname]
    rfl
  · have hleft : ¬ isNamed fs name ([c], c) = true := by simpa [isNamed] using hname
    rw [List.filter_cons_of_neg hleft, hrest, if_neg hname, List.nil_append]

/-- `find_recurse` prints the paths of the nodes below that have the name, each before those below it. -/
theorem find_recurse_eq (hs : Sound fs root) (hd : (searched fs root).Reach d)
    (hdir : d = root ∨ (fs.node d).flags = .dir) (hpath : path.chars ≠ [])
    (hk : (searched fs root).belowCount (Finset.range fs.next) d < k) :
    findRecurse fs name k d path = .ok ((((searched fs root).routes k d).filter (isNamed fs name)).map
      (fun e => (lineOf fs path e.1).chars)) := by
  induction k generalizing d path with
  | zero => exact absurd hk (Nat.not_lt_zero _)
  | succ k ih =>
    have hlinked := searched_linked hs
    have hkids : (searched fs root).kids d = (fs.node d).children := if_pos hdir
    have hloop : ∀ l : List Nat, (∀ c ∈ l, c ∈ (fs.node d).children) → ∀ out : List (List UInt8),
        l.foldlM (fun (out : List (List UInt8)) (child : Nat) => do
          let cpath ← childPath path (fs.node child).name
          let out := if (fs.node child).name = name then out ++ [cpath.chars] else out
          if (fs.node child).flags = NodeKind.dir then do
            let rest ← findRecurse fs name k child cpath
            .ok (out ++ rest)
          else .ok out) out =
        .ok (out ++ ((l.flatMap (fun (c : Nat) => ([c], c) :: ((searched fs root).routes k c).map (fun e => (c :: e.1, e.2)))).filter
          (isNamed fs name)).map (fun e => (lineOf fs path e.1).chars)) := by
      intro l hl
      induction l with
      | nil =>
        intro out
        simp
        rfl
      | cons c l ihl =>
        intro out
        have hc : c ∈ (searched fs root).kids d := by
          rw [hkids]
          exact hl c List.mem_cons_self
        have hreach := hd.child hc
        have hless := hlinked.below_count_lt (searched_made hs) hd hc
        have hout : (if (fs.node c).name = name then out ++ [(childStr path (fs.node c).name).chars] else out) =
            out ++ (if nameOf fs c = name then [(childStr path (nameOf fs c)).chars] else []) := by
          change (if nameOf fs c = name then out ++ [(childStr path (nameOf fs c)).chars] else out) = _
          split <;> simp
        have hrest := ihl (fun c hc => hl c (List.mem_cons_of_mem _ hc))
        rw [List.foldlM_cons, child_path_ok hpath, ok_bind, hout, List.flatMap_cons, List.filter_append,
          List.map_append, child_lines]
        by_cases hflags : (fs.node c).flags = .dir
        · have hbelow := ih hreach (Or.inr hflags) (child_str_some hpath (fs.node c).name) (by omega)
          rw [if_pos hflags, hbelow, ok_bind, ok_bind, hrest]
          simp only [List.append_assoc]
          rfl
        · have hnone : (searched fs root).routes k c = [] := by
            have hroot : c ≠ root := hlinked.not_root hd hc
            cases k with
            | zero => rfl
            | succ k =>
              have hleaf : (searched fs root).kids c = [] := if_neg (not_or.mpr ⟨hroot, hflags⟩)
              unfold Forest.routes
              rw [hleaf]
              rfl
          rw [if_neg hflags, ok_bind, hrest, hnone]
          simp
    have hall := hloop (fs.node d).children (fun c hc => hc) []
    unfold findRecurse Forest.routes
    rw [hkids]
    exact hall

end Search

section Paths

/-- A path of some names, each behind its slash. -/
theorem path_text_some {names : List (List UInt8)} (h : names ≠ []) :
    pathText names = names.flatMap (fun name => slash :: name) := by
  unfold pathText
  induction names with
  | nil => exact absurd rfl h
  | cons name names ih =>
    rw [intercalate_names, List.flatMap_cons]
    unfold afterName
    by_cases hnil : names = []
    · rw [if_pos hnil, hnil]
      rfl
    · rw [if_neg hnil, ih hnil]
      rfl

theorem path_text_last {names : List (List UInt8)} (h : names ≠ []) (hnames : ∀ name ∈ names, Component name) :
    ∃ last, (pathText names).getLast? = some last ∧ last ≠ slash := by
  obtain ⟨before, name, rfl⟩ := List.eq_nil_or_concat names |>.resolve_left h
  have hname := hnames name (by simp)
  obtain ⟨start, last, rfl⟩ := List.eq_nil_or_concat name |>.resolve_left hname.1
  refine ⟨last, ?_, fun hslash => hname.2 (by simp [hslash])⟩
  have hend : (slash :: (start ++ [last])).getLast? = some last := List.getLast?_concat (l := slash :: start)
  rw [path_text_some h]
  simpa using hend

/-- While it fits, the path of a child is that of its directory and its name. -/
theorem child_str_text {names : List (List UInt8)} (hpath : path.chars = pathText names)
    (hnames : ∀ name ∈ names, Component name) (hname : Component name)
    (hfits : (pathText (names ++ [name])).length < vfsPathMax) : (childStr path name).chars = pathText (names ++ [name]) := by
  obtain ⟨chars, room⟩ := path
  obtain rfl : chars = pathText names := hpath
  have hmax : vfsPathMax = 256 := rfl
  have hpos : 0 < name.length := List.length_pos_of_ne_nil hname.1
  have hall := path_text_some (show names ++ [name] ≠ [] by simp)
  by_cases hnil : names = []
  · subst hnil
    have hroot : pathText [] = [slash] := rfl
    rw [hall] at hfits ⊢
    simp only [List.nil_append, List.flatMap_cons, List.flatMap_nil, List.append_nil, List.length_cons] at hfits ⊢
    unfold childStr
    simp only [hroot, List.getLast?_singleton, withSlash, appendPath]
    rw [dif_neg (by simp)]
    dsimp only
    rw [List.take_of_length_le (by rw [List.length_singleton]; omega)]
    rfl
  · obtain ⟨last, hlast, hne⟩ := path_text_last hnil hnames
    have hbefore := path_text_some hnil
    have htext : pathText (names ++ [name]) = pathText names ++ slash :: name := by
      rw [hall, hbefore, List.flatMap_append]
      simp
    rw [htext, List.length_append, List.length_cons] at hfits
    unfold childStr
    rw [hlast]
    simp only [withSlash, appendPath]
    rw [dif_pos ⟨by omega, hne⟩, htext]
    dsimp only
    rw [List.take_of_length_le (by rw [List.length_append, List.length_singleton]; omega)]
    simp

theorem line_text {names : List (List UInt8)} (hpath : path.chars = pathText names)
    (hnames : ∀ name ∈ names, Component name) (hroute : ∀ c ∈ route, Component (nameOf fs c))
    (hfits : (pathText (names ++ route.map (nameOf fs))).length < vfsPathMax) :
    (lineOf fs path route).chars = pathText (names ++ route.map (nameOf fs)) := by
  induction route generalizing path names with
  | nil => simpa [lineOf] using hpath
  | cons c route ih =>
    have hc := hroute c List.mem_cons_self
    have hsplit : names ++ (c :: route).map (nameOf fs) = (names ++ [nameOf fs c]) ++ route.map (nameOf fs) := by simp
    have hshort : (pathText (names ++ [nameOf fs c])).length < vfsPathMax := by
      have hall := path_text_some (show names ++ (c :: route).map (nameOf fs) ≠ [] by simp)
      rw [hsplit] at hall hfits
      rw [path_text_some (by simp)]
      rw [hall, List.flatMap_append, List.length_append] at hfits
      omega
    have hnext := child_str_text hpath hnames hc hshort
    rw [hsplit] at hfits ⊢
    refine ih hnext (fun name hname => ?_) (fun c hc => hroute c (List.mem_cons_of_mem _ hc)) hfits
    rcases List.mem_append.mp hname with hname | hname
    · exact hnames name hname
    · rw [List.mem_singleton.mp hname]
      exact hc

/-- A way down is spelled by the names of its nodes. -/
theorem route_leads (h : (searched fs root).Route d route n) (hroute : ∀ c ∈ route, Component (nameOf fs c)) :
    Leads fs d (route.map (nameOf fs)) n := by
  induction h with
  | child hc => exact .down (searched_kids hc) (hroute _ List.mem_cons_self) (.here _)
  | down hc _ ih =>
    exact .down (searched_kids hc) (hroute _ List.mem_cons_self) (ih (fun c hc => hroute c (List.mem_cons_of_mem _ hc)))

end Paths

/-- In every settled file system `find` prints the path of each node with the name once, and of no other. -/
theorem find_found (h : Settled s) (hroot : s.fsRoot = some root) (hname : name ≠ []) : ∃ found, Found s root name found := by
  have hs := h.sound root hroot
  have hlinked := searched_linked hs
  have hreach : (searched s.fs root).Reach root := Relation.ReflTransGen.refl
  have hcount := (searched s.fs root).below_count_le (Finset.range s.fs.next) root
  rw [Finset.card_range] at hcount
  have hrun : findRecurse s.fs name (s.fs.next + 1) root rootPath = .ok _ :=
    find_recurse_eq hs hreach (Or.inl rfl) (by decide) (Nat.lt_succ_of_le hcount)
  refine ⟨((searched s.fs root).routes (s.fs.next + 1) root).filter (isNamed s.fs name), ?_, ?_, ?_, ?_, ?_⟩
  · unfold cmdFind
    rw [if_neg hname, hroot]
    dsimp only
    rw [hrun, ok_bind]
    simp only [List.map_eq_nil_iff]
  · exact fun e he => Forest.mem_routes (List.mem_filter.mp he).1
  · exact (hlinked.routes_nodup hreach _).sublist (List.filter_sublist.map _)
  · intro n
    have hall := hlinked.routes_all (n := n) (searched_made hs) hreach (Nat.le_succ_of_le hcount)
    rw [← hall]
    simp only [List.mem_map, List.mem_filter, isNamed, decide_eq_true_eq]
    constructor
    · rintro ⟨e, ⟨he, hnamed⟩, rfl⟩
      exact ⟨⟨e, he, rfl⟩, hnamed⟩
    · rintro ⟨⟨e, he, rfl⟩, hnamed⟩
      exact ⟨e, ⟨he, hnamed⟩, rfl⟩
  · intro hu e he hnames hfits
    have hroute := Forest.mem_routes (List.mem_filter.mp he).1
    have htext := line_text (show rootPath.chars = pathText [] from rfl) (fun name hname => absurd hname List.not_mem_nil)
      hnames hfits
    rw [List.nil_append] at htext
    refine ⟨htext, ?_⟩
    rw [htext]
    exact hu.resolves root _ e.2 hroot (route_leads hroute hnames)

/-- After any commands of the shell `find` comes to an end, and prints the paths of exactly the nodes that have
the name, each once; where no two names clash and a path has room, it leads to its node. -/
theorem find_lists (kmalloc : Kmalloc H) (heap : H) (ops : List (List UInt8 × ShellCmd)) (name : List UInt8) (root : Nat)
    (hroot : (run (shellCall kmalloc) (mountRamfs kmalloc heap) ops).2.fsRoot = some root) (hname : name ≠ []) :
    ∃ found, Found (run (shellCall kmalloc) (mountRamfs kmalloc heap) ops).2 root name found :=
  find_found (run_invariant (Q := fun _ => True) (fun _ _ _ h => h.step) (fun _ _ => trivial)
    (mount_settled kmalloc heap)) hroot hname

theorem find_lists_motd : ∃ found, Found (run (shellCall everyBlock) (mountRamfs everyBlock ()) []).2 0 (bytes "motd") found :=
  find_lists everyBlock () [] (bytes "motd") 0 (by rw [mount_eq]; rfl) (by decide +kernel)

end BaSic.Proofs.FindCmd
