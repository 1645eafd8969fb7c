import BaSic.Mm.FirstFit
import BaSic.Lib.Tiling
import BaSic.Lib.Links

namespace BaSic.Proofs.HeapBlocks
open Mm Lib

def heapEnd : Nat := heapStart + heapSize

/-- A `next` pointer to the block at `a`, which is NULL past the last block. -/
def link (a : Nat) : Nat := if a = heapEnd then 0 else a

/-- The header stored at `a` describes the block `b`. -/
structure Hdr (m : Mem) (a : Nat) (b : Block) : Prop where
  magic : magicOf m a = heapMagic
  size : sizeOfBlock m a = b.size
  free : freeOf m a = if b.free then 1 else 0
  next : nextOf m a = link (a + hdrSize + b.size)

/-- The blocks `bs` are stored one behind another from `a` up to `e`. -/
def Seg (m : Mem) : Nat → List Block → Nat → Prop
  | a, [], e => a = e
  | a, b :: bs, e => Hdr m a b ∧ b.size % 8 = 0 ∧ Seg m (a + hdrSize + b.size) bs e

variable {m m' : Mem} {a c e : Nat} {b : Block} {bs cs : List Block}

theorem link_of_lt (h : a < heapEnd) : link a = a := if_neg (by omega)

theorem link_lt (h : a ≤ heapEnd) : link a < 4294967296 := by
  have hend : heapEnd = 4194304 := rfl
  unfold link
  split <;> omega

theorem Hdr.free_ne (h : Hdr m a b) : freeOf m a ≠ 0 ↔ b.free = true := by
  rw [h.free]
  cases b.free <;> decide

theorem read32_set_free (m : Mem) (a b : Nat) (v : UInt8) (h : b + 8 < a ∨ a + 4 ≤ b + 8) :
    read32 (setFree m b v) a = read32 m a :=
  read32_congr (fun i _ _ => if_neg (by omega))

theorem set_free_outside (m : Mem) (b i : Nat) (v : UInt8) (h : i ≠ b + 8) :
    setFree m b v i = m i := if_neg h

theorem Hdr.congr (h : Hdr m a b) (hm : ∀ i, a ≤ i → i < a + hdrSize → m' i = m i) :
    Hdr m' a b := by
  simp only [hdrSize] at hm
  refine ⟨?_, ?_, ?_, ?_⟩
  · exact (read32_congr (fun i _ _ => hm i (by omega) (by omega))).trans h.magic
  · exact (read32_congr (fun i _ _ => hm i (by omega) (by omega))).trans h.size
  · exact (hm (a + 8) (by omega) (by omega)).trans h.free
  · exact (read32_congr (fun i _ _ => hm i (by omega) (by omega))).trans h.next

theorem Seg.le (h : Seg m a bs e) : a ≤ e := by
  induction bs generalizing a with
  | nil => exact Nat.le_of_eq h
  | cons b bs ih =>
    have ht := ih h.2.2
    omega

theorem Seg.cons_link (h : Seg m a (b :: bs) heapEnd) : link a = a ∧ a ≠ heapEnd := by
  have hle := h.2.2.le
  have hne : a ≠ heapEnd := by simp only [hdrSize] at hle; omega
  exact ⟨if_neg hne, hne⟩

theorem Seg.cons_lt (h : Seg m a (b :: bs) e) : a + hdrSize + b.size ≤ e := h.2.2.le

/-- A stretch of blocks only depends on its header bytes. -/
theorem Seg.congr_hdrs (h : Seg m a bs e)
    (hm : ∀ x b, (x, b) ∈ layout a bs → ∀ i, x ≤ i → i < x + hdrSize → m' i = m i) :
    Seg m' a bs e := by
  induction bs generalizing a with
  | nil => exact h
  | cons b bs ih =>
    obtain ⟨hh, hs, ht⟩ := h
    refine ⟨hh.congr (hm a b List.mem_cons_self), hs, ih ht ?_⟩
    exact fun x d hx => hm x d (List.mem_cons_of_mem _ hx)

theorem layout_start {x : Nat} (h : (x, b) ∈ layout a bs) : a ≤ x := by
  induction bs generalizing a with
  | nil => simp [layout] at h
  | cons d bs ih =>
    rcases List.mem_cons.mp h with he | h
    · cases he
      exact Nat.le_refl _
    · have hx := ih h
      omega

theorem layout_unique {x : Nat} {d : Block} (h : (x, b) ∈ layout a bs)
    (h' : (x, d) ∈ layout a bs) : b = d := by
  have hH : hdrSize = 16 := rfl
  induction bs generalizing a with
  | nil => simp [layout] at h
  | cons c bs ih =>
    rcases List.mem_cons.mp h with he | h <;> rcases List.mem_cons.mp h' with he' | h'
    · cases he
      cases he'
      rfl
    · cases he
      have hx := layout_start h'
      omega
    · cases he'
      have hx := layout_start h
      omega
    · exact ih h h'

/-- The extents of the blocks of a stretch tile it. -/
theorem Seg.tiles (h : Seg m a bs e) :
    Tiles a ((layout a bs).map (fun (x, b) => (x, hdrSize + b.size))) e := by
  induction bs generalizing a with
  | nil => exact h
  | cons b bs ih =>
    refine ⟨rfl, ?_⟩
    rw [← Nat.add_assoc]
    exact ih h.2.2

theorem Seg.hdr (h : Seg m a bs e) {x : Nat} (hx : (x, b) ∈ layout a bs) : Hdr m x b := by
  induction bs generalizing a with
  | nil => simp [layout] at hx
  | cons d bs ih =>
    rcases List.mem_cons.mp hx with he | hx
    · cases he
      exact h.1
    · exact ih h.2.2 hx

theorem Seg.aligned (h : Seg m a bs e) (ha : a % 8 = 0) {x : Nat} (hx : (x, b) ∈ layout a bs) :
    x % 8 = 0 := by
  induction bs generalizing a with
  | nil => simp [layout] at hx
  | cons d bs ih =>
    rcases List.mem_cons.mp hx with he | hx
    · cases he
      exact ha
    · refine ih h.2.2 ?_ hx
      have hs := h.2.1
      simp only [hdrSize]
      omega

theorem Seg.bounds (h : Seg m a bs e) {x : Nat} (hx : (x, b) ∈ layout a bs) :
    a ≤ x ∧ x + hdrSize + b.size ≤ e := by
  have hb := h.tiles.bounds (List.mem_map.mpr ⟨(x, b), hx, rfl⟩)
  omega

theorem Seg.congr (h : Seg m a bs e) (hm : ∀ i, a ≤ i → i < e → m' i = m i) : Seg m' a bs e := by
  refine h.congr_hdrs (fun x b hx i hi hi' => ?_)
  have hb := h.bounds hx
  exact hm i (by omega) (by omega)

theorem Seg.apart (h : Seg m a bs e) {d : Block} {x y : Nat} (hx : (x, b) ∈ layout a bs)
    (hy : (y, d) ∈ layout a bs) (hne : x ≠ y) :
    x + hdrSize + b.size ≤ y ∨ y + hdrSize + d.size ≤ x := by
  have hb := h.tiles.apart (List.mem_map.mpr ⟨(x, b), hx, rfl⟩)
    (List.mem_map.mpr ⟨(y, d), hy, rfl⟩) hne
  omega

/-- Following the `next` pointers visits the headers of the blocks in order. -/
theorem Seg.path (h : Seg m a bs heapEnd) :
    Path (nextOf m) (link a) ((layout a bs).map Prod.fst) 0 := by
  induction bs generalizing a with
  | nil =>
    cases h
    exact if_pos rfl
  | cons b bs ih =>
    have hle := h.cons_lt
    refine ⟨if_neg (by simp only [hdrSize] at hle; omega), ?_⟩
    rw [h.1.next]
    exact ih h.2.2

theorem Seg.length_le (h : Seg m a bs e) : bs.length * hdrSize ≤ e - a := by
  induction bs generalizing a with
  | nil => simp
  | cons b bs ih =>
    have ht := ih h.2.2
    have hle := h.cons_lt
    rw [List.length_cons, Nat.add_mul, Nat.one_mul]
    omega

end BaSic.Proofs.HeapBlocks
