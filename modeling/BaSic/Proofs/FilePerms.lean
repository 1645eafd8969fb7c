import BaSic.Kernel.Filemeta
import BaSic.Lib.SlotTable
import BaSic.Lib.Steps

namespace BaSic.Proofs.FilePerms
open Kernel Lib

/-- The permissions most recently set for each path. -/
abbrev Perms := List UInt8 → Option UInt8

/-- What `filemeta_init` sets. -/
def initPerms : Perms :=
  Function.update (Function.update (fun _ => none) etcMotd.chars (some permRead)) etcInit.chars (some (permRead ||| permExec))

/-- The table, and what has been set. -/
structure Watched where
  table : MetaTable
  perms : Perms

def bootMeta : Watched := ⟨filemetaInit, initPerms⟩

/-- A `chmod` with the text after it on the command line. -/
def chmodStep (w : Watched) (arg : CStr) : String × Watched :=
  ((cmdChmod w.table arg).1, ⟨(cmdChmod w.table arg).2,
    match chmodArgs arg with
    | none => w.perms
    | some (path, mode) => Function.update w.perms path.chars (some (chmodPerms mode))⟩)

/-- Every path has the permissions set last, or the default ones. -/
def AllRight (w : Watched) : Prop :=
  ∀ path : CStr, filemetaGet w.table path = (w.perms path.chars).getD permDefault

/-- The default permissions are set, or the path fits its entry and has one, or finds one free. -/
def Kept (w : Watched) (arg : CStr) : Prop :=
  ∀ path mode, chmodArgs arg = some (path, mode) → chmodPerms mode = permDefault ∨
    path.chars.length ≤ 63 ∧ ((∃ i, metaMatches path (w.table i) = true) ∨ ∃ i, (w.table i).used = false)

/-- An entry in use has the path and the permissions, an entry that is not in use none. -/
def Shows (e : Filemeta) : Option (List UInt8 × UInt8) → Prop
  | none => e.used = false
  | some (k, v) => e.used = true ∧ HoldsFrom e.path 0 k ∧ 0 ∉ k ∧ k.length ≤ 63 ∧ e.perms = v

def Refines (t : MetaTable) (u : SlotTable metaMax (List UInt8) UInt8) : Prop := ∀ i, Shows (t i) (u i)

variable {t : MetaTable} {u : SlotTable metaMax (List UInt8) UInt8} {path : CStr} {i : Fin metaMax} {e : Filemeta}
  {o : Option (List UInt8 × UInt8)} {w : Watched} {perms : UInt8} {m : Perms}

theorem shows_matches (h : Shows e o) (path : CStr) : metaMatches path e = o.any (·.1 = path.chars) := by
  unfold metaMatches
  cases o with
  | none =>
    have hused : e.used = false := h
    rw [hused]
    rfl
  | some kv =>
    rw [h.1, Bool.true_and, strcmp_holds h.2.1 h.2.2.1 path]
    rfl

theorem shows_free (h : Shows e o) : (!e.used) = o.isNone := by
  cases o with
  | none =>
    have hused : e.used = false := h
    rw [hused]
    rfl
  | some kv =>
    rw [h.1]
    rfl

theorem Refines.find (h : Refines t u) (path : CStr) :
    Fin.find? (fun i => metaMatches path (t i)) = u.slotOf path.chars :=
  congrArg Fin.find? (funext (fun i => shows_matches (h i) path))

theorem Refines.find_free (h : Refines t u) : Fin.find? (fun i => !(t i).used) = u.freeSlot :=
  congrArg Fin.find? (funext (fun i => shows_free (h i)))

theorem Refines.get (h : Refines t u) (path : CStr) : filemetaGet t path = (u.lookup path.chars).getD permDefault := by
  unfold filemetaGet SlotTable.lookup
  rw [h.find]
  cases hi : u.slotOf path.chars with
  | none => rfl
  | some i =>
    obtain ⟨v, hv⟩ := any_key (SlotTable.slot_of_some.mp hi).1
    have hshows := h i
    rw [hv] at hshows
    rw [Option.bind_some, hv]
    exact hshows.2.2.2.2

theorem Refines.write (h : Refines t u) {k : List UInt8} {v : UInt8} (hshows : Shows e (some (k, v))) :
    Refines (Function.update t i e) (u.write i k v) := SlotTable.write_shown h hshows

/-- What `filemeta_set` does to the slots. A new path gets the first free one, cut to 63 characters. -/
theorem set_cases (h : Refines t u) (path : CStr) (perms : UInt8) :
    (∃ i, u.slotOf path.chars = some i ∧ Refines (filemetaSet t path perms).2 (u.write i path.chars perms)) ∨
      (∃ i, u.slotOf path.chars = none ∧ u.freeSlot = some i ∧
        Refines (filemetaSet t path perms).2 (u.write i (path.chars.take 63) perms)) ∨
      u.slotOf path.chars = none ∧ u.freeSlot = none ∧ (filemetaSet t path perms).2 = t := by
  unfold filemetaSet
  rw [h.find, h.find_free]
  cases hi : u.slotOf path.chars with
  | some i =>
    obtain ⟨v, hv⟩ := any_key (SlotTable.slot_of_some.mp hi).1
    have hshows := h i
    rw [hv] at hshows
    exact Or.inl ⟨i, rfl, h.write ⟨hshows.1, hshows.2.1, hshows.2.2.1, hshows.2.2.2.1, rfl⟩⟩
  | none =>
    cases hfree : u.freeSlot with
    | some i =>
      have hcopy := copy_cut_holds (t i).path path 63
      have hnul := take_no_nul path 63
      have hlen := List.length_take_le 63 path.chars
      exact Or.inr (Or.inl ⟨i, rfl, rfl, h.write ⟨rfl, hcopy, hnul, hlen, rfl⟩⟩)
    | none => exact Or.inr (Or.inr ⟨rfl, rfl, rfl⟩)

/-- The table has slots without gaps. -/
def Noted (w : Watched) : Prop := ∃ u, Refines w.table u ∧ u.Packed

theorem set_noted (h : Refines t u) (hpacked : u.Packed) (path : CStr) (perms : UInt8) :
    ∃ u', Refines (filemetaSet t path perms).2 u' ∧ u'.Packed := by
  rcases set_cases h path perms with ⟨i, hi, hnext⟩ | ⟨i, -, hfree, hnext⟩ | ⟨-, -, hsame⟩
  · obtain ⟨v, hv⟩ := any_key (SlotTable.slot_of_some.mp hi).1
    exact ⟨_, hnext, hpacked.rewrite (Option.isSome_iff_exists.mpr ⟨_, hv⟩) _ _⟩
  · exact ⟨_, hnext, hpacked.insert hfree _ _⟩
  · refine ⟨u, ?_, hpacked⟩
    rw [hsame]
    exact h

theorem Noted.step (h : Noted w) (arg : CStr) : Noted (chmodStep w arg).2 := by
  obtain ⟨u, hrefines, hpacked⟩ := h
  unfold chmodStep cmdChmod
  cases chmodArgs arg with
  | none => exact ⟨u, hrefines, hpacked⟩
  | some x => exact set_noted hrefines hpacked x.1 (chmodPerms x.2)

/-- An entry written for another path does not matter, except where it is the only one. -/
theorem right_after (hm : ∀ path : CStr, (u.lookup path.chars).getD permDefault = (m path.chars).getD permDefault)
    {u' : SlotTable metaMax (List UInt8) UInt8} (path : CStr) (perms : UInt8)
    (hother : ∀ k, k ≠ path.chars → (u'.lookup k).getD permDefault = (u.lookup k).getD permDefault) :
    (∀ p : CStr, (u'.lookup p.chars).getD permDefault =
        ((Function.update m path.chars (some perms)) p.chars).getD permDefault) ↔
      (u'.lookup path.chars).getD permDefault = perms := by
  constructor
  · intro h
    have hpath := h path
    rwa [Function.update_self] at hpath
  · intro h p
    by_cases hp : p.chars = path.chars
    · rw [hp, Function.update_self]
      exact h
    · rw [Function.update_of_ne hp, hother _ hp, hm]

/-- A path too long is stored under its first 63 characters and not found again. -/
theorem cut_right_iff (hpacked : u.Packed)
    (hm : ∀ path : CStr, (u.lookup path.chars).getD permDefault = (m path.chars).getD permDefault)
    (hi : u.slotOf path.chars = none) (hslot : u.freeSlot = some i) (hlen : ¬ path.chars.length ≤ 63) {perms : UInt8} :
    (∀ p : CStr, ((u.write i (path.chars.take 63) perms).lookup p.chars).getD permDefault =
        ((Function.update m path.chars (some perms)) p.chars).getD permDefault) ↔ perms = permDefault := by
  have hnone : ∀ k, (u i).any (·.1 = k) = false := by
    intro k
    rw [SlotTable.free_slot_some hslot]
    rfl
  have hcut : path.chars ≠ path.chars.take 63 := by
    intro heq
    have hcutlen := List.length_take_le 63 path.chars
    rw [← heq] at hcutlen
    exact hlen hcutlen
  have hpath : (u.write i (path.chars.take 63) perms).lookup path.chars = none := by
    rw [SlotTable.lookup_write_ne (hnone _) hcut, SlotTable.lookup_none, hi]
  constructor
  · intro hall
    have hright := hall path
    rw [hpath, Function.update_self] at hright
    exact hright.symm
  · rintro rfl
    refine (right_after hm path permDefault (fun k hk => ?_)).mpr (by rw [hpath]; rfl)
    by_cases hk' : k = path.chars.take 63
    · subst hk'
      cases hq : u.slotOf (path.chars.take 63) with
      | none => rw [SlotTable.lookup_write_new hq, SlotTable.lookup_none.mpr hq]; rfl
      | some j => rw [hpacked.lookup_insert hslot hq]
    · rw [SlotTable.lookup_write_ne (hnone k) hk']

/-- One `filemeta_set` keeps all permissions right exactly when it is one of the kind kept. -/
theorem set_right_iff (h : Refines t u) (hpacked : u.Packed)
    (hm : ∀ path : CStr, filemetaGet t path = (m path.chars).getD permDefault) (path : CStr) (perms : UInt8) :
    (∀ p : CStr, filemetaGet (filemetaSet t path perms).2 p =
        ((Function.update m path.chars (some perms)) p.chars).getD permDefault) ↔
      perms = permDefault ∨ path.chars.length ≤ 63 ∧
        ((∃ i, metaMatches path (t i) = true) ∨ ∃ i, (t i).used = false) := by
  have hm' : ∀ p : CStr, (u.lookup p.chars).getD permDefault = (m p.chars).getD permDefault :=
    fun p => (h.get p).symm.trans (hm p)
  have hfound : (∃ i, metaMatches path (t i) = true) ↔ u.slotOf path.chars ≠ none := by
    rw [ne_eq, SlotTable.slot_of_none, not_forall]
    exact exists_congr (fun i => by rw [shows_matches (h i), Bool.not_eq_false])
  have hfree : (∃ i, (t i).used = false) ↔ u.freeSlot ≠ none := by
    rw [ne_eq, SlotTable.free_slot_none, not_forall]
    refine exists_congr (fun i => ?_)
    have hi := shows_free (h i)
    rw [← Option.not_isSome] at hi
    rw [Bool.not_eq_true, Bool.not_inj hi]
  have hget : ∀ {u' : SlotTable metaMax (List UInt8) UInt8}, Refines (filemetaSet t path perms).2 u' →
      ((∀ p : CStr, filemetaGet (filemetaSet t path perms).2 p =
          ((Function.update m path.chars (some perms)) p.chars).getD permDefault) ↔
        ∀ p : CStr, (u'.lookup p.chars).getD permDefault =
          ((Function.update m path.chars (some perms)) p.chars).getD permDefault) :=
    fun hnext => forall_congr' (fun p => by rw [hnext.get])
  rw [hfound, hfree]
  rcases set_cases h path perms with ⟨i, hi, hnext⟩ | ⟨i, hi, hslot, hnext⟩ | ⟨hi, hslot, hsame⟩
  · obtain ⟨v, hv⟩ := any_key (SlotTable.slot_of_some.mp hi).1
    have hshows := h i
    rw [hv] at hshows
    have hother : ∀ k, k ≠ path.chars → (u i).any (·.1 = k) = false := by
      intro k hk
      rw [hv]
      simpa using Ne.symm hk
    rw [hget hnext, right_after hm' path perms (fun k hk => by rw [SlotTable.lookup_write_ne (hother k hk) hk]),
      SlotTable.lookup_write_same hi, hi]
    exact iff_of_true rfl (Or.inr ⟨hshows.2.2.2.1, Or.inl (fun h => by cases h)⟩)
  · have hnone : ∀ k, (u i).any (·.1 = k) = false := by
      intro k
      rw [SlotTable.free_slot_some hslot]
      rfl
    rw [hget hnext, hslot]
    by_cases hlen : path.chars.length ≤ 63
    · rw [List.take_of_length_le hlen, right_after hm' path perms
        (fun k hk => by rw [SlotTable.lookup_write_ne (hnone k) hk]), SlotTable.lookup_write_new hi]
      exact iff_of_true rfl (Or.inr ⟨hlen, Or.inr (fun h => by cases h)⟩)
    · rw [cut_right_iff hpacked hm' hi hslot hlen]
      exact ⟨Or.inl, fun hkept => hkept.resolve_right (fun h => hlen h.1)⟩
  · have hlookup : u.lookup path.chars = none := SlotTable.lookup_none.mpr hi
    have hnext : Refines (filemetaSet t path perms).2 u := by
      rw [hsame]
      exact h
    rw [hget hnext, right_after hm' path perms (fun _ _ => rfl), hlookup, hi, hslot]
    constructor
    · exact fun h => Or.inl h.symm
    · exact fun h => (h.resolve_right (fun h => h.2.elim (fun h => h rfl) (fun h => h rfl))).symm

/-- One `chmod` keeps all permissions right exactly when it is one of the kind kept. -/
theorem right_step_iff (h : Noted w) (hright : AllRight w) (arg : CStr) : AllRight (chmodStep w arg).2 ↔ Kept w arg := by
  obtain ⟨u, hrefines, hpacked⟩ := h
  unfold AllRight Kept chmodStep cmdChmod
  cases hargs : chmodArgs arg with
  | none => exact iff_of_true hright (fun _ _ h => by cases h)
  | some x =>
    obtain ⟨path, mode⟩ := x
    refine (set_right_iff hrefines hpacked hright path (chmodPerms mode)).trans ⟨?_, fun h => h path mode rfl⟩
    rintro hkept path' mode' ⟨⟩
    exact hkept

theorem clear_refines : Refines metaClear (fun _ => none) := fun _ => rfl

theorem clear_packed : SlotTable.Packed (fun _ => none : SlotTable metaMax (List UInt8) UInt8) :=
  fun _ _ _ h => by cases h

/-- Two entries set on an empty table are both right, as is every path that has none. -/
theorem set_twice (path path' : CStr) (perms perms' : UInt8) (hlen : path.chars.length ≤ 63)
    (hlen' : path'.chars.length ≤ 63)
    (hfree : ∃ i, ((filemetaSet metaClear path perms).2 i).used = false) (m : Perms)
    (hm : m = Function.update (Function.update (fun _ => none) path.chars (some perms)) path'.chars (some perms')) :
    Noted ⟨(filemetaSet (filemetaSet metaClear path perms).2 path' perms').2, m⟩ ∧
      AllRight ⟨(filemetaSet (filemetaSet metaClear path perms).2 path' perms').2, m⟩ := by
  obtain ⟨u, hrefines, hpacked⟩ := set_noted clear_refines clear_packed path perms
  have hclear : ∀ p : CStr, filemetaGet metaClear p = ((fun _ => none : Perms) p.chars).getD permDefault := by
    intro p
    rw [clear_refines.get, SlotTable.lookup_none.mpr (SlotTable.slot_of_none.mpr (fun _ => rfl))]
  have hfirst : ∀ p : CStr, filemetaGet (filemetaSet metaClear path perms).2 p =
      ((Function.update (fun _ => none) path.chars (some perms)) p.chars).getD permDefault :=
    (set_right_iff clear_refines clear_packed hclear path perms).mpr
      (Or.inr ⟨hlen, Or.inr ⟨⟨0, by decide⟩, rfl⟩⟩)
  have hsecond := (set_right_iff hrefines hpacked hfirst path' perms').mpr (Or.inr ⟨hlen', Or.inr hfree⟩)
  rw [← hm] at hsecond
  have hnoted := set_noted hrefines hpacked path' perms'
  unfold Noted AllRight
  dsimp only
  exact ⟨hnoted, hsecond⟩

/-- With one entry set, the second is free. -/
theorem set_clear_free (path : CStr) (perms : UInt8) :
    ∃ i, ((filemetaSet metaClear path perms).2 i).used = false := by
  refine ⟨⟨1, by decide⟩, ?_⟩
  have hnone : Fin.find? (fun i => metaMatches path (metaClear i)) = none :=
    Fin.find?_eq_none_iff.mpr (fun _ => rfl)
  have hfree : Fin.find? (fun i => !(metaClear i).used) = some ⟨0, by decide⟩ := by decide
  unfold filemetaSet
  rw [hnone, hfree]
  rfl

theorem boot_right : Noted bootMeta ∧ AllRight bootMeta :=
  set_twice etcMotd etcInit permRead (permRead ||| permExec) (by decide) (by decide) (set_clear_free _ _) _ rfl

/-- The command names a path of the set, of at most 63 characters. -/
def Names (S : Set (List UInt8)) (arg : CStr) : Prop :=
  ∀ path mode, chmodArgs arg = some (path, mode) → path.chars ∈ S ∧ path.chars.length ≤ 63

/-- The entries in use are for different paths of the set. -/
def Within (S : Set (List UInt8)) (t : MetaTable) : Prop :=
  ∃ u, Refines t u ∧ u.Apart ∧ {k | u.lookup k ≠ none} ⊆ S

variable {S : Set (List UInt8)}

theorem Within.set (h : Within S t) (hpath : path.chars ∈ S) (hlen : path.chars.length ≤ 63) (perms : UInt8) :
    Within S (filemetaSet t path perms).2 := by
  obtain ⟨u, hrefines, hapart, hkeys⟩ := h
  have hwrite : ∀ i, (∀ k, k ≠ path.chars → (u i).any (·.1 = k) = false) →
      {k | (u.write i path.chars perms).lookup k ≠ none} ⊆ S := by
    intro i hi k hk
    by_cases hkp : k = path.chars
    · rwa [hkp]
    · rw [Set.mem_ofPred_eq, SlotTable.lookup_write_ne (hi k hkp) hkp] at hk
      exact hkeys hk
  rcases set_cases hrefines path perms with ⟨i, hi, hnext⟩ | ⟨i, hnone, hfree, hnext⟩ | ⟨-, -, hsame⟩
  · obtain ⟨v, hv⟩ := any_key (SlotTable.slot_of_some.mp hi).1
    refine ⟨_, hnext, hapart.rewrite hi, hwrite i (fun k hk => ?_)⟩
    rw [hv]
    simpa using Ne.symm hk
  · rw [List.take_of_length_le hlen] at hnext
    refine ⟨_, hnext, hapart.insert hnone, hwrite i (fun k _ => ?_)⟩
    rw [SlotTable.free_slot_some hfree]
    rfl
  · rw [hsame]
    exact ⟨u, hrefines, hapart, hkeys⟩

/-- Among at most 64 paths, one without an entry finds one free. -/
theorem Within.finds (h : Within S t) (hfinite : S.Finite) (hcard : S.ncard ≤ metaMax) (hpath : path.chars ∈ S) :
    (∃ i, metaMatches path (t i) = true) ∨ ∃ i, (t i).used = false := by
  obtain ⟨u, hrefines, hapart, hkeys⟩ := h
  by_contra hfull
  push Not at hfull
  have hnone : u.slotOf path.chars = none := by
    rw [← hrefines.find]
    exact Fin.find?_eq_none_iff.mpr (fun i => Bool.eq_false_iff.mpr (hfull.1 i))
  have hfree : u.freeSlot = none := by
    rw [← hrefines.find_free]
    refine Fin.find?_eq_none_iff.mpr (fun i => ?_)
    rw [Bool.not_eq_false', ← Bool.not_eq_false]
    exact hfull.2 i
  have hproper : {k | u.lookup k ≠ none} ⊂ S :=
    (Set.ssubset_iff_of_subset hkeys).mpr ⟨path.chars, hpath, fun h => h (SlotTable.lookup_none.mpr hnone)⟩
  have hless := Set.ncard_lt_ncard hproper hfinite
  rw [hapart.full_iff.mp hfree] at hless
  exact absurd hcard (Nat.not_le_of_lt hless)

theorem clear_within (S : Set (List UInt8)) : Within S metaClear := by
  refine ⟨_, clear_refines, fun _ _ _ h => absurd h Bool.false_ne_true, fun k hk => ?_⟩
  exact absurd (SlotTable.lookup_none.mpr (SlotTable.slot_of_none.mpr (fun _ => rfl))) hk

theorem Within.kept (hfinite : S.Finite) (hcard : S.ncard ≤ metaMax) {args : List CStr}
    (hargs : ∀ arg ∈ args, Names S arg) {w : Watched} (hw : Within S w.table) : Along Kept chmodStep w args := by
  induction args generalizing w with
  | nil => trivial
  | cons arg args ih =>
    have harg : Names S arg := hargs arg List.mem_cons_self
    refine ⟨fun path mode hpath => ?_, ih (fun a ha => hargs a (List.mem_cons_of_mem _ ha)) ?_⟩
    · obtain ⟨hmem, hlen⟩ := harg path mode hpath
      exact Or.inr ⟨hlen, hw.finds hfinite hcard hmem⟩
    · unfold chmodStep cmdChmod
      cases hchmod : chmodArgs arg with
      | none => exact hw
      | some x => exact hw.set (harg x.1 x.2 hchmod).1 (harg x.1 x.2 hchmod).2 (chmodPerms x.2)

theorem boot_within (hmotd : etcMotd.chars ∈ S) (hinit : etcInit.chars ∈ S) : Within S bootMeta.table := by
  have hfirst := (clear_within S).set hmotd (by decide) permRead
  have hsecond := hfirst.set hinit (by decide) (permRead ||| permExec)
  unfold bootMeta filemetaInit
  dsimp only
  exact hsecond

/-- As long as at most 64 distinct paths are set, those of the boot included, and all have at
most 63 characters, every `chmod` is of the kind kept. -/
theorem short_paths_kept (hfinite : S.Finite) (hcard : S.ncard ≤ metaMax) (hmotd : etcMotd.chars ∈ S)
    (hinit : etcInit.chars ∈ S) {args : List CStr} (hargs : ∀ arg ∈ args, Names S arg) :
    Along Kept chmodStep bootMeta args :=
  Within.kept hfinite hcard hargs (boot_within hmotd hinit)

/-- In every state of a run after boot all permissions are right exactly when every `chmod`
is of the kind kept. -/
theorem perms_right_iff (args : List CStr) :
    Along (After chmodStep AllRight) chmodStep bootMeta args ↔ Along Kept chmodStep bootMeta args :=
  Along.after_iff (J := Noted) (fun _ arg h _ _ => h.step arg) (fun _ arg h hright => right_step_iff h hright arg)
    boot_right.1 boot_right.2 args

/-- `chmod` of a path of 64 characters, and what makes it executable only. -/
def longChmod : CStr := ⟨List.replicate 64 97 ++ [32, 120], by decide⟩

def longPath : CStr := ⟨List.replicate 64 97, by decide⟩

/-- The entry made for a path of 64 characters is not found under it. -/
theorem long_path_lost : longChmod.chars.length + 6 ≤ 77 ∧ chmodArgs longChmod = some (longPath, [120]) ∧
    ¬ Along (After chmodStep AllRight) chmodStep bootMeta [longChmod] := by
  have hargs : chmodArgs longChmod = some (longPath, [120]) := rfl
  refine ⟨by decide, hargs, fun h => ?_⟩
  have hkept := (right_step_iff boot_right.1 boot_right.2 longChmod).mp h.1
  rcases hkept longPath [120] hargs with hperms | ⟨hlen, -⟩
  · exact absurd hperms (by decide)
  · exact absurd hlen (by decide)

end BaSic.Proofs.FilePerms
