import Mathlib

namespace BaSic.Lib

/-- Byte-addressed 32-bit memory; addresses wrap around. -/
abbrev Mem32 := UInt32 → UInt8

/-- The little-endian word at `a`. -/
def load32 (m : Mem32) (a : UInt32) : UInt32 :=
  UInt32.ofNat ((m a).toNat + 256 * (m (a + 1)).toNat + 65536 * (m (a + 2)).toNat
    + 16777216 * (m (a + 3)).toNat)

def store32 (m : Mem32) (a v : UInt32) : Mem32 := fun x =>
  if x = a then UInt8.ofNat v.toNat
  else if x = a + 1 then UInt8.ofNat (v.toNat / 256)
  else if x = a + 2 then UInt8.ofNat (v.toNat / 65536)
  else if x = a + 3 then UInt8.ofNat (v.toNat / 16777216)
  else m x

/-- The words `ws`, one after the other from `a` up. -/
def storeWords (m : Mem32) : UInt32 → List UInt32 → Mem32
  | _, [] => m
  | a, w :: ws => store32 (storeWords m (a + 4) ws) a w

def HoldsWords (m : Mem32) : UInt32 → List UInt32 → Prop
  | _, [] => True
  | a, w :: ws => load32 m a = w ∧ HoldsWords m (a + 4) ws

/-- The registers of a 32-bit CPU in one privilege level, and its memory. -/
structure Cpu where
  eax : UInt32
  ecx : UInt32
  edx : UInt32
  ebx : UInt32
  esp : UInt32
  ebp : UInt32
  esi : UInt32
  edi : UInt32
  eip : UInt32
  cs : UInt32
  eflags : UInt32
  mem : Mem32

inductive Instr where
  | push (v : UInt32)
  | pushEsp
  | pusha
  | popa
  | addEsp (n : UInt32)
  | cli
  | sti
  | iret

def Cpu.push (c : Cpu) (v : UInt32) : Cpu :=
  { c with esp := c.esp - 4, mem := store32 c.mem (c.esp - 4) v }

/-- The word `i` words above the top of the stack. -/
def Cpu.word (c : Cpu) (i : UInt32) : UInt32 := load32 c.mem (c.esp + 4 * i)

def interruptFlag : UInt32 := 0x200

/-- `popa` takes `esp`'s own word off the stack without loading it; `iret` stays in one
privilege level, so it takes three words. -/
def Cpu.exec (c : Cpu) : Instr → Cpu
  | .push v => c.push v
  | .pushEsp => c.push c.esp
  | .pusha =>
    [c.eax, c.ecx, c.edx, c.ebx, c.esp, c.ebp, c.esi, c.edi].foldl Cpu.push c
  | .popa => { c with
      edi := c.word 0, esi := c.word 1, ebp := c.word 2
      ebx := c.word 4, edx := c.word 5, ecx := c.word 6, eax := c.word 7
      esp := c.esp + 32 }
  | .addEsp n => { c with esp := c.esp + n }
  | .cli => { c with eflags := c.eflags &&& ~~~interruptFlag }
  | .sti => { c with eflags := c.eflags ||| interruptFlag }
  | .iret => { c with eip := c.word 0, cs := c.word 1, eflags := c.word 2, esp := c.esp + 12 }

def Cpu.execAll (c : Cpu) (is : List Instr) : Cpu := is.foldl Cpu.exec c

/-- What the CPU does on an interrupt through an interrupt gate at `entry`. -/
def Cpu.interrupt (c : Cpu) (entry : UInt32) : Cpu :=
  let pushed := ((c.push c.eflags).push c.cs).push c.eip
  { pushed with eip := entry, eflags := c.eflags &&& ~~~interruptFlag }

/-- The words on the stack, the top first. -/
def Cpu.Stacked (c : Cpu) (ws : List UInt32) : Prop := HoldsWords c.mem c.esp ws

variable {m : Mem32} {a b v w : UInt32} {d : Cpu} {ws : List UInt32} {c : Cpu}

theorem load32_store32 (m : Mem32) (a v : UInt32) : load32 (store32 m a v) a = v := by
  have h1 : a + 1 ≠ a := by simp
  have h2 : a + 2 ≠ a := by simp
  have h3 : a + 3 ≠ a := by simp
  have h21 : a + 2 ≠ a + 1 := by simp
  have h31 : a + 3 ≠ a + 1 := by simp
  have h32 : a + 3 ≠ a + 2 := by simp
  have hv := v.toNat_lt
  apply UInt32.toNat_inj.mp
  simp only [load32, store32, h1, h2, h3, h21, h31, h32, if_true, if_false, UInt8.toNat_ofNat',
    UInt32.toNat_ofNat']
  omega

theorem store32_outside (h : 4 ≤ (b - a).toNat) : store32 m a v b = m b := by
  have hne : ∀ i : UInt32, i.toNat < 4 → b ≠ a + i := by
    rintro i hi rfl
    have hsub : a + i - a = i := by simp
    rw [hsub] at h
    omega
  have h0 : b ≠ a := by
    rintro rfl
    simp at h
  unfold store32
  rw [if_neg h0, if_neg (hne 1 (by decide)), if_neg (hne 2 (by decide)), if_neg (hne 3 (by decide))]

/-- Words four or more bytes apart, around the end of memory too, do not meet. -/
theorem load32_store32_apart (h : 4 ≤ (b - a).toNat) (h' : 4 ≤ (a - b).toNat) :
    load32 (store32 m a v) b = load32 m b := by
  have hout : ∀ i : UInt32, i.toNat < 4 → store32 m a v (b + i) = m (b + i) := by
    intro i hi
    have ha := a.toNat_lt
    have hb := b.toNat_lt
    apply store32_outside
    rw [UInt32.toNat_sub] at h h' ⊢
    rw [UInt32.toNat_add]
    omega
  have h0 : store32 m a v b = m b := store32_outside h
  unfold load32
  rw [h0, hout 1 (by decide), hout 2 (by decide), hout 3 (by decide)]

/-- Storing a word below a block of words, or anywhere off it, leaves the block alone. -/
theorem HoldsWords.store (h : HoldsWords m a ws) (hb : 4 ≤ (a - b).toNat)
    (hlen : (a - b).toNat + 4 * ws.length ≤ 4294967296) : HoldsWords (store32 m b v) a ws := by
  induction ws generalizing a with
  | nil => trivial
  | cons w ws ih =>
    obtain ⟨hw, hws⟩ := h
    rw [List.length_cons] at hlen
    refine ⟨?_, ?_⟩
    · rw [load32_store32_apart hb ?_]
      · exact hw
      · have hlt := a.toNat_lt
        have hlt' := b.toNat_lt
        rw [UInt32.toNat_sub] at hb hlen ⊢
        omega
    · cases ws with
      | nil => trivial
      | cons w' ws =>
        rw [List.length_cons] at hlen
        have hnext : (a + 4 - b).toNat = (a - b).toNat + 4 := by
          have ha := a.toNat_lt
          have hb := b.toNat_lt
          rw [UInt32.toNat_sub] at hlen ⊢
          rw [UInt32.toNat_sub, UInt32.toNat_add]
          have h4 : (4 : UInt32).toNat = 4 := rfl
          omega
        apply ih hws
        · omega
        · rw [List.length_cons]
          omega

theorem holds_store_words (m : Mem32) (a : UInt32) (ws : List UInt32) (h : 4 * ws.length ≤ 4294967296) :
    HoldsWords (storeWords m a ws) a ws := by
  induction ws generalizing a with
  | nil => trivial
  | cons w ws ih =>
    rw [List.length_cons] at h
    have hsub : (a + 4 - a).toNat = 4 := by simp
    refine ⟨load32_store32 .., (ih (a + 4) (by omega)).store ?_ ?_⟩
    · rw [hsub]
    · rw [hsub]
      omega

theorem Cpu.Stacked.push (h : c.Stacked ws) (hlen : 4 * (ws.length + 1) ≤ 4294967296) (v : UInt32) :
    (c.push v).Stacked (v :: ws) := by
  have hback : c.esp - 4 + 4 = c.esp := by simp
  have hsub : (c.esp - (c.esp - 4)).toNat = 4 := by simp
  refine ⟨load32_store32 .., ?_⟩
  unfold Cpu.push
  dsimp only
  rw [hback]
  apply HoldsWords.store h
  · rw [hsub]
  · rw [hsub]
    omega

theorem Cpu.Stacked.congr (h : c.Stacked ws) (hmem : d.mem = c.mem) (hesp : d.esp = c.esp) : d.Stacked ws := by
  unfold Cpu.Stacked
  rw [hmem, hesp]
  exact h

/-- Words pushed one after the other end up with the last one on top. -/
theorem Cpu.Stacked.push_all (h : c.Stacked ws) (vs : List UInt32)
    (hlen : 4 * (vs.length + ws.length) ≤ 4294967296) : (vs.foldl Cpu.push c).Stacked (vs.reverse ++ ws) := by
  induction vs generalizing c ws with
  | nil => exact h
  | cons v vs ih =>
    rw [List.length_cons] at hlen
    have hpush : (c.push v).Stacked (v :: ws) := h.push (by omega) v
    have hrest := ih hpush (by rw [List.length_cons]; omega)
    rw [List.reverse_cons, List.append_assoc]
    exact hrest

end BaSic.Lib
