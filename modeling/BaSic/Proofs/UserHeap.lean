import BaSic.Kernel.Syscall
import BaSic.Lib.Steps

namespace BaSic.Proofs.UserHeap
open Kernel Fs Lib

/-- The break is within the user heap. -/
def InHeap (brk : UInt32) : Prop := 0x700000 ≤ brk.toNat ∧ brk.toNat ≤ 0x800000

instance (brk : UInt32) : Decidable (InHeap brk) := inferInstanceAs (Decidable (_ ∧ _))

/-- The call moves the break by the increment and returns the old one, or refuses. -/
def Exact (brk : UInt32) (increment : Int32) : Prop :=
  (sysSbrk brk increment).1 = brk.toNat ∧ ((sysSbrk brk increment).2.toNat : Int) = brk.toNat + increment.toInt ∨
    sysSbrk brk increment = (-1, brk)

/-- The region a call returned. -/
def region (brk : UInt32) (increment : Int32) : Set Int :=
  Set.Ico (sysSbrk brk increment).1 ((sysSbrk brk increment).1 + increment.toInt)

/-- Regions returned by two growing calls, with no shrinking one between them, are disjoint. -/
def Apart (brk : UInt32) (increments : List Int32) : Prop :=
  ∀ before x mid y after, increments = before ++ x :: mid ++ y :: after → 0 < x.toInt → 0 < y.toInt →
    (∀ z ∈ mid, 0 ≤ z.toInt) →
    let b := (run sysSbrk brk before).2
    let c := (run sysSbrk (sysSbrk b x).2 mid).2
    (sysSbrk b x).1 ≠ -1 → (sysSbrk c y).1 ≠ -1 → Disjoint (region b x) (region c y)

/-- What is promised of a sequence of calls from the start. -/
structure Sound (increments : List Int32) : Prop where
  within : Along (After sysSbrk InHeap) sysSbrk usrHeapBase increments
  exact : Along Exact sysSbrk usrHeapBase increments
  apart : Apart usrHeapBase increments

/-- The call does not take the break to an address below the heap. -/
def Floored (brk : UInt32) (increment : Int32) : Prop :=
  (brk.toNat : Int) + increment.toInt < 0 ∨ 0x700000 ≤ (brk.toNat : Int) + increment.toInt

instance (brk : UInt32) (increment : Int32) : Decidable (Floored brk increment) :=
  inferInstanceAs (Decidable (_ ∨ _))

variable {brk : UInt32} {x y : Int32} {ops : List Int32}

theorem int_bounds (x : Int32) : x.toInt = x.toUInt32.toNat ∨ x.toInt = (x.toUInt32.toNat : Int) - 4294967296 := by
  have h : x.toInt = if 2 * x.toUInt32.toNat < 4294967296 then (x.toUInt32.toNat : Int)
      else (x.toUInt32.toNat : Int) - 4294967296 := BitVec.toInt_eq_toNat_cond x.toBitVec
  rw [h]
  split
  · exact Or.inl rfl
  · exact Or.inr rfl

theorem signed_low (h : brk.toNat ≤ 0x800000) : signedInt brk = brk.toNat := by
  unfold signedInt
  rw [BitVec.toInt_eq_toNat_cond]
  exact if_pos (show 2 * brk.toNat < 4294967296 by omega)

/-- Below the limit the sum does not wrap round unnoticed: a call moves the break by exactly
the increment when that leads to an address up to the limit, and refuses otherwise. -/
theorem sbrk_cases (h : brk.toNat ≤ 0x800000) (x : Int32) :
    (0 ≤ (brk.toNat : Int) + x.toInt ∧ (brk.toNat : Int) + x.toInt ≤ 0x800000 ∧
        (sysSbrk brk x).1 = brk.toNat ∧ ((sysSbrk brk x).2.toNat : Int) = brk.toNat + x.toInt) ∨
      (((brk.toNat : Int) + x.toInt < 0 ∨ 0x800000 < (brk.toNat : Int) + x.toInt) ∧
        sysSbrk brk x = (-1, brk)) := by
  have hsum : (brk + x.toUInt32).toNat = (brk.toNat + x.toUInt32.toNat) % 4294967296 := UInt32.toNat_add ..
  have hlt := x.toUInt32.toNat_lt
  have hx := int_bounds x
  have hlow : -2147483648 ≤ x.toInt ∧ x.toInt < 2147483648 := ⟨Int32.le_toInt x, Int32.toInt_lt x⟩
  have hmax : brk + x.toUInt32 > usrHeapMax ↔ 0x800000 < (brk + x.toUInt32).toNat := UInt32.lt_iff_toNat_lt
  unfold sysSbrk
  split
  · rename_i hz
    subst hz
    have hzero : (0 : Int32).toInt = 0 := rfl
    refine Or.inl ⟨by omega, by omega, signed_low h, ?_⟩
    simp [hzero]
  · simp only [hmax]
    split
    · rename_i hbig
      exact Or.inr ⟨by omega, rfl⟩
    · rename_i hsmall
      refine Or.inl ⟨by omega, by omega, signed_low h, ?_⟩
      simp only
      omega

theorem sbrk_low (h : brk.toNat ≤ 0x800000) (x : Int32) : (sysSbrk brk x).2.toNat ≤ 0x800000 := by
  rcases sbrk_cases h x with ⟨-, hmax, -, hmove⟩ | ⟨-, hrefuse⟩
  · omega
  · rw [hrefuse]
    exact h

theorem run_low (h : brk.toNat ≤ 0x800000) (ops : List Int32) : (run sysSbrk brk ops).2.toNat ≤ 0x800000 :=
  run_invariant (I := fun b : UInt32 => b.toNat ≤ 0x800000) (Q := fun _ => True) (fun _ x _ hb => sbrk_low hb x)
    (fun _ _ => trivial) h

theorem sbrk_exact (h : brk.toNat ≤ 0x800000) (x : Int32) : Exact brk x := by
  rcases sbrk_cases h x with ⟨-, -, hr, hmove⟩ | ⟨-, hrefuse⟩
  · exact Or.inl ⟨hr, hmove⟩
  · exact Or.inr hrefuse

/-- Without a shrinking call the break does not go back. -/
theorem run_grows (h : brk.toNat ≤ 0x800000) (hops : ∀ z ∈ ops, 0 ≤ z.toInt) :
    brk.toNat ≤ (run sysSbrk brk ops).2.toNat := by
  induction ops generalizing brk with
  | nil => exact Nat.le_refl _
  | cons x ops ih =>
    have hx := hops x List.mem_cons_self
    have hstep : brk.toNat ≤ (sysSbrk brk x).2.toNat := by
      rcases sbrk_cases h x with ⟨-, -, -, hmove⟩ | ⟨-, hrefuse⟩
      · omega
      · rw [hrefuse]
    have hrest := ih (sbrk_low h x) (fun z hz => hops z (List.mem_cons_of_mem _ hz))
    exact hstep.trans hrest

theorem regions_apart (h : brk.toNat ≤ 0x800000) (ops : List Int32) : Apart brk ops := by
  rintro before x mid y after - - - hmid b c hx hy
  have hb : b.toNat ≤ 0x800000 := run_low h before
  have hc : c.toNat ≤ 0x800000 := run_low (sbrk_low hb x) mid
  have hgrow : (sysSbrk b x).2.toNat ≤ c.toNat := run_grows (sbrk_low hb x) hmid
  rcases sbrk_cases hb x with ⟨-, -, hr, hmove⟩ | ⟨-, hrefuse⟩
  · rcases sbrk_cases hc y with ⟨-, -, hr', -⟩ | ⟨-, hrefuse⟩
    · -- the first region ends where the break was left
      refine Set.disjoint_left.mpr (fun a ha ha' => ?_)
      have hend := ha.2
      have hstart := ha'.1
      rw [hr] at hend
      rw [hr'] at hstart
      omega
    · rw [hrefuse] at hy
      exact absurd rfl hy
  · rw [hrefuse] at hx
    exact absurd rfl hx

/-- From within the heap a call leaves it exactly when it goes below the base. -/
theorem within_iff (h : InHeap brk) (x : Int32) : After sysSbrk InHeap brk x ↔ Floored brk x := by
  obtain ⟨hbase, hmax⟩ := h
  unfold After InHeap Floored
  rcases sbrk_cases hmax x with ⟨hpos, htop, -, hmove⟩ | ⟨hout, hrefuse⟩
  · constructor
    · rintro ⟨hlow, -⟩
      right
      omega
    · intro hfloor
      omega
  · rw [hrefuse]
    simp only
    constructor
    · intro _
      omega
    · intro _
      exact ⟨hbase, hmax⟩

/-- A sequence of calls keeps what is promised if and only if none of them takes the break
to an address below the base of the heap. -/
theorem sbrk_sound_iff (ops : List Int32) : Sound ops ↔ Along Floored sysSbrk usrHeapBase ops := by
  have hstart : InHeap usrHeapBase := by decide
  have hwithin : Along (After sysSbrk InHeap) sysSbrk usrHeapBase ops ↔ Along Floored sysSbrk usrHeapBase ops :=
    Along.after_iff (I := InHeap) (J := fun _ => True) (fun _ _ _ _ _ => trivial)
      (fun _ x _ hb => within_iff hb x) trivial hstart ops
  have hexact : Along Exact sysSbrk usrHeapBase ops := by
    refine Along.iff_split.mpr (fun before x after _ => ?_)
    exact sbrk_exact (run_low hstart.2 before) x
  constructor
  · intro h
    exact hwithin.mp h.within
  · intro h
    exact ⟨hwithin.mpr h, hexact, regions_apart hstart.2 ops⟩

/-- The very first call can take the break below the heap. -/
theorem shrink_below_base : sysSbrk usrHeapBase (-1) = (0x700000, 0x6FFFFF) ∧ ¬ Sound [-1] := by
  refine ⟨by decide, fun h => ?_⟩
  have hin : InHeap (sysSbrk usrHeapBase (-1)).2 := h.within.1
  revert hin
  decide

end BaSic.Proofs.UserHeap
