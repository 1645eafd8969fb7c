import BaSic.Mm.Heap

namespace BaSic.Mm

/-- A heap block seen from outside: its usable size and whether it is free. -/
structure Block where
  size : Nat
  free : Bool

/-- What a free block becomes when `size` bytes are taken from it. -/
def place (size : Nat) (b : Block) : List Block :=
  if size + hdrSize + 8 ≤ b.size then [⟨size, false⟩, ⟨b.size - size - hdrSize, true⟩]
  else [⟨b.size, false⟩]

/-- First fit over the blocks laid out from address `a`: the payload handed out
and the blocks afterwards. -/
def firstFit (size : Nat) : Nat → List Block → Option (Nat × List Block)
  | _, [] => none
  | a, b :: bs =>
    if b.free ∧ size ≤ b.size then some (a + hdrSize, place size b ++ bs)
    else (firstFit size (a + hdrSize + b.size) bs).map (fun (p, bs') => (p, b :: bs'))

/-- Merging runs of free blocks, as one pass over the list. -/
def coalesce : List Block → List Block
  | [] => []
  | [b] => [b]
  | a :: b :: bs =>
    if a.free ∧ b.free then coalesce (⟨a.size + (hdrSize + b.size), true⟩ :: bs)
    else a :: coalesce (b :: bs)
termination_by bs => bs.length

/-- The block whose payload starts at `p` is marked free. -/
def release (p : Nat) : Nat → List Block → List Block
  | _, [] => []
  | a, b :: bs =>
    (if a + hdrSize = p then { b with free := true } else b) :: release p (a + hdrSize + b.size) bs

/-- What a request for `size` bytes is answered with, and the blocks after it. -/
def grant (size : UInt32) (bs : List Block) : Nat × List Block :=
  if size = 0 then (0, bs)
  else match firstFit (align8 size) heapStart bs with
    | none => (0, bs)
    | some found => found

/-- Giving back the block whose payload starts at `p`. -/
def giveBack (p : Nat) (bs : List Block) : List Block := coalesce (release p heapStart bs)

/-- Where each block starts. -/
def layout : Nat → List Block → List (Nat × Block)
  | _, [] => []
  | a, b :: bs => (a, b) :: layout (a + hdrSize + b.size) bs

variable {size a p : Nat} {b : Block} {bs cs : List Block}

/-- First fit takes the first block, or goes on behind it. -/
theorem first_fit_cons (h : firstFit size a (b :: bs) = some (p, cs)) :
    ((b.free = true ∧ size ≤ b.size) ∧ p = a + hdrSize ∧ cs = place size b ++ bs) ∨
      (¬ (b.free = true ∧ size ≤ b.size) ∧
        ∃ ds, firstFit size (a + hdrSize + b.size) bs = some (p, ds) ∧ cs = b :: ds) := by
  unfold firstFit at h
  split at h
  · cases h
    exact Or.inl ⟨‹_›, rfl, rfl⟩
  · obtain ⟨⟨q, ds⟩, hq, he⟩ := Option.map_eq_some_iff.mp h
    cases he
    exact Or.inr ⟨‹_›, ds, hq, rfl⟩

/-- Placing leaves the blocks behind where they are. -/
theorem layout_place (size a : Nat) (b : Block) (bs : List Block) :
    layout a (place size b ++ bs) = layout a (place size b) ++ layout (a + hdrSize + b.size) bs := by
  unfold place
  split
  · have hnext : a + hdrSize + size + hdrSize + (b.size - size - hdrSize) = a + hdrSize + b.size := by omega
    simp only [layout, List.cons_append, List.nil_append, hnext]
  · rfl

/-- The block placed, which is in front of the rest. -/
theorem place_front (size a : Nat) (b : Block) :
    ∃ d rest, layout a (place size b) = (a, d) :: rest ∧ d.free = false ∧ (size ≤ b.size → size ≤ d.size) ∧
      ∀ x ∈ rest, x.2.free = true := by
  unfold place
  split
  · refine ⟨_, _, rfl, rfl, fun _ => Nat.le_refl _, fun x hx => ?_⟩
    rw [List.mem_singleton.mp hx]
  · exact ⟨_, _, rfl, rfl, id, fun _ hx => absurd hx List.not_mem_nil⟩

end BaSic.Mm
