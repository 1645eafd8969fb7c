import BaSic.Kernel.Fat12
import BaSic.Lib.Words

namespace BaSic.Proofs.FatTable
open Kernel Lib

/-- A byte of `fat_data`, 0 past its end. -/
def byteAt (data : Fin fatBytes → UInt8) (i : Nat) : Nat :=
  if h : i < fatBytes then (data ⟨i, h⟩).toNat else 0

/-- The table of 12-bit entries packed into `fat_data`. Entry 682 is what is
left of byte 1023; there are none beyond it. -/
def fatEntry (data : Fin fatBytes → UInt8) (cluster : Nat) : Nat :=
  let offset := cluster + cluster / 2
  if cluster % 2 = 1 then byteAt data offset / 16 + 16 * byteAt data (offset + 1)
  else byteAt data offset + 256 * (byteAt data (offset + 1) % 16)

/-- The last cluster number both of whose bytes are in `fat_data`. -/
def lastCluster : Nat := 681

variable {f : FatCache} {data data' : Fin fatBytes → UInt8} {c v : Nat}

theorem byte_at_lt (data : Fin fatBytes → UInt8) (i : Nat) : byteAt data i < 256 := by
  unfold byteAt
  split
  · exact UInt8.toNat_lt _
  · omega

theorem fat_byte_eq {i : Nat} (h : i < fatBytes) : fatByte f i = .ok (f.data ⟨i, h⟩) := dif_pos h

theorem byte_at_eq {i : Nat} (h : i < fatBytes) : byteAt data i = (data ⟨i, h⟩).toNat := dif_pos h

theorem set_fat_byte_eq {i : Nat} (b : UInt8) (h : i < fatBytes) :
    setFatByte f i b = .ok { f with data := Function.update f.data ⟨i, h⟩ b } := dif_pos h

theorem byte_at_update {i j : Nat} (b : UInt8) (h : i < fatBytes) :
    byteAt (Function.update data ⟨i, h⟩ b) j = if j = i then b.toNat else byteAt data j := by
  unfold byteAt
  split
  · rename_i hj
    rw [Function.update_apply]
    simp only [Fin.mk.injEq]
    split <;> rfl
  · rename_i hj
    rw [if_neg (by omega)]

theorem fat12_get_eq (h : c ≤ lastCluster) : fat12Get f c = .ok (fatEntry f.data c) := by
  have hl : lastCluster = 681 := rfl
  have hb : fatBytes = 1024 := rfl
  have h0 := byte_at_lt f.data (c + c / 2)
  have h1 := byte_at_lt f.data (c + c / 2 + 1)
  unfold fat12Get fatEntry
  dsimp only
  rw [fat_byte_eq (by omega), fat_byte_eq (by omega)]
  simp only [bind, Except.bind, pure, Except.pure, ← byte_at_eq]
  congr 1
  rw [show (0x0FFF : Nat) = 2 ^ 12 - 1 from rfl, Nat.and_two_pow_sub_one_eq_mod]
  split
  · rw [Nat.shiftRight_eq_div_pow, or_shl_of_lt (by omega)]
    omega
  · rw [show (0x0F : Nat) = 2 ^ 4 - 1 from rfl, Nat.and_two_pow_sub_one_eq_mod,
      or_shl_of_lt (by omega)]
    omega

theorem fat12_get_out (h : lastCluster < c) : ∃ i, fat12Get f c = .error (.outOfBounds i) := by
  have hl : lastCluster = 681 := rfl
  have hb : fatBytes = 1024 := rfl
  unfold fat12Get
  simp only [bind, Except.bind]
  cases h0 : fatByte f (c + c / 2) with
  | error e =>
    unfold fatByte at h0
    split at h0
    · cases h0
    · cases h0
      exact ⟨_, rfl⟩
  | ok lo =>
    have h1 : fatByte f (c + c / 2 + 1) = .error (.outOfBounds (c + c / 2 + 1)) := dif_neg (by omega)
    rw [h1]
    exact ⟨_, rfl⟩

/-- The low byte of a pair replaced, then the high one. -/
def setPair (f : FatCache) (i : Nat) (lo hi : UInt8) (h : i + 1 < fatBytes) : FatCache where
  data := Function.update (Function.update f.data ⟨i, by omega⟩ lo) ⟨i + 1, h⟩ hi
  dirty := true

/-- The two bytes `fat12_set` stores. -/
theorem fat12_set_pair (c v : Nat) (h : c + c / 2 + 1 < fatBytes) :
    fat12Set f c v = .ok (setPair f (c + c / 2)
      (if c % 2 = 1 then .ofNat (byteAt f.data (c + c / 2) % 16 + v * 16) else .ofNat v)
      (if c % 2 = 1 then .ofNat (v / 16)
        else .ofNat (byteAt f.data (c + c / 2 + 1) / 16 * 16 + v / 256 % 16)) h) := by
  have h0 := byte_at_lt f.data (c + c / 2)
  have h1 := byte_at_lt f.data (c + c / 2 + 1)
  have hlo : ∀ b : Nat, b &&& 0x0F = b % 16 := fun b => Nat.and_two_pow_sub_one_eq_mod b 4
  have hhi : ∀ b : Nat, b < 256 → ∀ w, b &&& 0xF0 ||| w % 16 = b / 16 * 16 + w % 16 := by
    intro b hb w
    have hmask : ∀ b, b < 256 → b &&& 0xF0 = (b / 16) <<< 4 := by decide +kernel
    have hjoin : (b / 16) <<< 4 ||| w % 16 = b / 16 * 16 + w % 16 :=
      shl_or_of_lt (Nat.mod_lt _ (by decide)) _
    rw [hmask b hb, hjoin]
  have hv : UInt8.ofNat (v &&& 0xFF) = UInt8.ofNat v := by
    rw [show (0xFF : Nat) = 2 ^ 8 - 1 from rfl, Nat.and_two_pow_sub_one_eq_mod]
    exact UInt8.ofNat_mod_size
  unfold fat12Set
  dsimp only
  rw [fat_byte_eq (by omega), fat_byte_eq h]
  simp only [bind, Except.bind, pure, Except.pure, ← byte_at_eq]
  split
  · rw [set_fat_byte_eq _ (by omega)]
    simp only
    rw [set_fat_byte_eq _ h, hlo, or_shl_of_lt (by omega), Nat.shiftRight_eq_div_pow]
    rfl
  · rw [set_fat_byte_eq _ (by omega)]
    simp only
    rw [set_fat_byte_eq _ h, hv, hlo, hhi _ h1, Nat.shiftRight_eq_div_pow]
    rfl

/-- Setting an entry is a point update of the table. -/
theorem fat12_set_eq (h : c ≤ lastCluster) (v : Nat) :
    ∃ f', fat12Set f c v = .ok f' ∧ f'.dirty = true ∧
      fatEntry f'.data = Function.update (fatEntry f.data) c (v % 4096) := by
  have hl : lastCluster = 681 := rfl
  have hb : fatBytes = 1024 := rfl
  refine ⟨_, fat12_set_pair c v (by omega), rfl, ?_⟩
  funext x
  have h0 := byte_at_lt f.data (c + c / 2)
  have h1 := byte_at_lt f.data (c + c / 2 + 1)
  rw [Function.update_apply]
  unfold fatEntry setPair
  simp only [byte_at_update, apply_ite UInt8.toNat, UInt8.toNat_ofNat']
  by_cases hx : x = c
  · subst hx
    split_ifs <;> omega
  · rw [if_neg hx]
    -- only the other cluster of the pair shares a byte with `c`
    by_cases hnext : c % 2 = 0 ∧ x = c + 1
    · obtain ⟨hpar, rfl⟩ := hnext
      rw [show c + 1 + (c + 1) / 2 = c + c / 2 + 1 by omega]
      split_ifs <;> omega
    · by_cases hprev : x % 2 = 0 ∧ c = x + 1
      · obtain ⟨hpar, rfl⟩ := hprev
        rw [show x + 1 + (x + 1) / 2 = x + x / 2 + 1 by omega] at h0 ⊢
        split_ifs <;> omega
      · split_ifs <;> omega

/-- No byte changes but the two that hold the entry. -/
theorem fat12_set_outside {f' : FatCache} (hset : fat12Set f c v = .ok f') (h : c ≤ lastCluster) {i : Fin fatBytes}
    (hlo : i.val ≠ c + c / 2) (hhi : i.val ≠ c + c / 2 + 1) : f'.data i = f.data i := by
  have hl : lastCluster = 681 := rfl
  have hb : fatBytes = 1024 := rfl
  rw [fat12_set_pair c v (by omega)] at hset
  obtain rfl := Except.ok.inj hset
  unfold setPair
  dsimp only
  rw [Function.update_of_ne (fun he => hhi (congrArg Fin.val he)), Function.update_of_ne (fun he => hlo (congrArg Fin.val he))]

/-- Entries set one after the other. -/
def fat12Sets (f : FatCache) : List (Nat × Nat) → Except Fault FatCache
  | [] => .ok f
  | (c, v) :: sets => do
    let f ← fat12Set f c v
    fat12Sets f sets

/-- The value that was set last at a cluster. -/
def lastSet (sets : List (Nat × Nat)) (c : Nat) : Option Nat :=
  (sets.reverse.find? (fun s => s.1 = c)).map Prod.snd

theorem last_set_cons (c v : Nat) (sets : List (Nat × Nat)) (x : Nat) :
    lastSet ((c, v) :: sets) x = (lastSet sets x).or (if c = x then some v else none) := by
  unfold lastSet
  rw [List.reverse_cons, List.find?_append, Option.map_or]
  by_cases hx : c = x <;> simp [hx]

/-- The packed table is an array of 12-bit entries: each has the last value set, less its upper
bits, or the one it had, and the bytes of the others stay as they are. -/
theorem packed_table (f : FatCache) (sets : List (Nat × Nat)) (h : ∀ s ∈ sets, s.1 ≤ lastCluster) :
    ∃ f', fat12Sets f sets = .ok f' ∧
      (∀ c, c ≤ lastCluster → fat12Get f' c =
        match lastSet sets c with
        | some v => .ok (v % 4096)
        | none => fat12Get f c) ∧
      ∀ i : Fin fatBytes, (∀ s ∈ sets, i.val ≠ s.1 + s.1 / 2 ∧ i.val ≠ s.1 + s.1 / 2 + 1) → f'.data i = f.data i := by
  induction sets generalizing f with
  | nil => exact ⟨f, rfl, fun _ _ => rfl, fun _ _ => rfl⟩
  | cons s sets ih =>
    obtain ⟨c, v⟩ := s
    have hc : c ≤ lastCluster := h (c, v) List.mem_cons_self
    obtain ⟨f₁, hset, -, hentry⟩ := fat12_set_eq (f := f) hc v
    obtain ⟨f', hsets, hget, hbytes⟩ := ih f₁ (fun s hs => h s (List.mem_cons_of_mem _ hs))
    refine ⟨f', by rw [fat12Sets, hset, ok_bind, hsets], fun x hx => ?_, fun i hi => ?_⟩
    · rw [hget x hx, last_set_cons]
      cases lastSet sets x with
      | some w => rfl
      | none =>
        rw [fat12_get_eq hx, hentry]
        by_cases hcx : c = x
        · simp [hcx]
        · simp [hcx, Ne.symm hcx, fat12_get_eq hx]
    · obtain ⟨hlo, hhi⟩ := hi (c, v) List.mem_cons_self
      rw [hbytes i (fun s hs => hi s (List.mem_cons_of_mem _ hs)), fat12_set_outside hset hc hlo hhi]

/-- An odd cluster and the even one that shares a byte with it. -/
theorem packed_table_shared : ∃ f', fat12Sets ⟨fun _ => 0xFF, false⟩ [(3, 0x123), (2, 0xF456)] = .ok f' ∧
    (∀ c, c ≤ lastCluster → fat12Get f' c =
      match lastSet [(3, 0x123), (2, 0xF456)] c with
      | some v => .ok (v % 4096)
      | none => fat12Get ⟨fun _ => 0xFF, false⟩ c) ∧
    ∀ i : Fin fatBytes, (∀ s ∈ [(3, 0x123), (2, 0xF456)], i.val ≠ s.1 + s.1 / 2 ∧ i.val ≠ s.1 + s.1 / 2 + 1) →
      f'.data i = 0xFF :=
  packed_table ⟨fun _ => 0xFF, false⟩ [(3, 0x123), (2, 0xF456)] (by decide)

/-- The table determines every byte of the array. -/
theorem fat_data_ext (h : fatEntry data = fatEntry data') : data = data' := by
  have hb : fatBytes = 1024 := rfl
  have hbyte : ∀ d : Fin fatBytes → UInt8, ∀ j, byteAt d (3 * j) = fatEntry d (2 * j) % 256 ∧
      byteAt d (3 * j + 1) = fatEntry d (2 * j) / 256 + 16 * (fatEntry d (2 * j + 1) % 16) ∧
      byteAt d (3 * j + 2) = fatEntry d (2 * j + 1) / 16 := by
    intro d j
    have h0 := byte_at_lt d (3 * j)
    have h1 := byte_at_lt d (3 * j + 1)
    have h2 := byte_at_lt d (3 * j + 2)
    have heven : fatEntry d (2 * j) = byteAt d (3 * j) + 256 * (byteAt d (3 * j + 1) % 16) := by
      unfold fatEntry
      rw [if_neg (by omega), show 2 * j + 2 * j / 2 = 3 * j by omega]
    have hodd : fatEntry d (2 * j + 1) = byteAt d (3 * j + 1) / 16 + 16 * byteAt d (3 * j + 2) := by
      unfold fatEntry
      rw [if_pos (by omega), show 2 * j + 1 + (2 * j + 1) / 2 = 3 * j + 1 by omega]
    omega
  funext i
  have heq : byteAt data i.val = byteAt data' i.val := by
    obtain ⟨d0, d1, d2⟩ := hbyte data (i.val / 3)
    obtain ⟨e0, e1, e2⟩ := hbyte data' (i.val / 3)
    rw [h] at d0 d1 d2
    have hi : i.val = 3 * (i.val / 3) ∨ i.val = 3 * (i.val / 3) + 1 ∨ i.val = 3 * (i.val / 3) + 2 := by
      omega
    rcases hi with hi | hi | hi <;> rw [hi] <;> omega
  rw [byte_at_eq i.isLt, byte_at_eq i.isLt] at heq
  exact UInt8.toNat_inj.mp heq

end BaSic.Proofs.FatTable
