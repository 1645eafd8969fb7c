import BaSic.Kernel.Net

namespace BaSic.Proofs.Checksum
open Kernel Lib

/-- The sum does not overflow on as little as fits in a frame. -/
theorem ip_sum_small (data : List UInt8) {sum : Nat} (hlen : sum + 65535 * data.length < 4294967296) :
    ipSum sum data = sum + wordSum data := by
  induction data using wordSum.induct generalizing sum with
  | case1 => rfl
  | case2 b =>
    have hb := b.toNat_lt
    rw [List.length_singleton] at hlen
    rw [ipSum, wordSum, u32_of_lt (by omega)]
  | case3 lo hi data ih =>
    have hlo := lo.toNat_lt
    have hhi := hi.toNat_lt
    rw [List.length_cons, List.length_cons] at hlen
    rw [ipSum, wordSum, u32_of_lt (by omega), ih (by omega), Nat.add_assoc]

theorem ip_checksum_to_nat {data : List UInt8} (hlen : data.length ≤ 65535) :
    (ipChecksum data).toNat = 65535 - foldCarries (wordSum data) := by
  have hfold := fold_carries_lt (wordSum data)
  unfold ipChecksum
  rw [ip_sum_small data (by omega), Nat.zero_add, UInt16.toNat_not, UInt16.toNat_ofNat_of_lt' hfold]
  rfl

theorem word_sum_u16 (v : UInt16) : wordSum (u16Bytes v) = v.toNat := by
  have hv := v.toNat_lt
  unfold u16Bytes
  rw [wordSum, wordSum, UInt16.toNat_toUInt8, UInt16.toNat_toUInt8, UInt16.toNat_shiftRight]
  simp only [UInt16.reduceToNat, Nat.reduceMod, Nat.shiftRight_eq_div_pow]
  omega

theorem word_sum_field {before : List UInt8} (heven : before.length % 2 = 0) (v : UInt16) (after : List UInt8) :
    wordSum (before ++ u16Bytes v ++ after) = wordSum (before ++ u16Bytes 0 ++ after) + v.toNat := by
  have hsum : ∀ w : UInt16, wordSum (before ++ u16Bytes w ++ after) = wordSum before + w.toNat + wordSum after := by
    intro w
    have hfield : (before ++ u16Bytes w).length % 2 = 0 := by
      rw [List.length_append]
      exact (Nat.add_mod_right _ 2).trans heven
    rw [word_sum_append hfield, word_sum_append heven, word_sum_u16]
  rw [hsum, hsum, UInt16.toNat_zero]
  omega

/-- A checksum stored at an even offset, where the field was zero when it was computed. -/
theorem checksum_verifies {before after : List UInt8} (heven : before.length % 2 = 0)
    (hlen : before.length + after.length ≤ 65533) :
    ipChecksum (before ++ u16Bytes (ipChecksum (before ++ u16Bytes 0 ++ after)) ++ after) = 0 := by
  have hfield : ∀ v : UInt16, (before ++ u16Bytes v ++ after).length ≤ 65535 := by
    intro v
    have htwo : (u16Bytes v).length = 2 := rfl
    rw [List.length_append, List.length_append, htwo]
    omega
  apply UInt16.toNat_inj.mp
  rw [ip_checksum_to_nat (hfield _), word_sum_field heven, ip_checksum_to_nat (hfield 0), fold_carries_complement]
  rfl

variable {m : Mem} {base : Nat} {a b b' c : List UInt8}

theorem store_bytes_holds (m : Mem) (base : Nat) (bytes : List UInt8) :
    HoldsBytes (storeBytes m base bytes) base bytes := by
  intro j hj
  unfold storeBytes
  rw [if_pos (Nat.le_add_right base j), Nat.add_sub_cancel_left, List.getD_eq_getElem _ _ hj]

theorem store_bytes_outside {i : Nat} (h : i < base ∨ base + b.length ≤ i) : storeBytes m base b i = m i := by
  unfold storeBytes
  rcases h with h | h
  · rw [if_neg (by omega)]
  · rw [if_pos (by omega), List.getD_eq_default _ _ (by omega)]

/-- A store replaces the bytes that are as many and at the same offset. -/
theorem store_splice (h : HoldsBytes m base (a ++ b ++ c)) (hlen : b'.length = b.length) :
    HoldsBytes (storeBytes m (base + a.length) b') base (a ++ b' ++ c) := by
  simp only [holds_bytes_append, List.length_append] at h ⊢
  obtain ⟨⟨ha, -⟩, hc⟩ := h
  refine ⟨⟨?_, store_bytes_holds m (base + a.length) b'⟩, ?_⟩
  · intro j hj
    rw [store_bytes_outside (by omega)]
    exact ha j hj
  · intro j hj
    rw [store_bytes_outside (by omega), hlen]
    exact hc j hj

/-- What `ip_checksum` returns over bytes that the memory holds. -/
theorem checksum_at_holds {bytes : List UInt8} (h : HoldsBytes m base bytes) :
    (ipChecksumAt m base bytes.length).val = ipChecksum bytes := congrArg ipChecksum (read_cells_holds h)

/-- Any bytes in memory are cut by a field of two bytes. -/
theorem holds_cut (m : Mem) (base : Nat) {len off : Nat} (hfield : off + 2 ≤ len) : ∃ before field after : List UInt8,
    before.length = off ∧ field.length = 2 ∧ before.length + 2 + after.length = len ∧
      HoldsBytes m base (before ++ field ++ after) := by
  refine ⟨(List.range off).map (fun j => m (base + j)), (List.range 2).map (fun j => m (base + off + j)),
    (List.range (len - off - 2)).map (fun j => m (base + off + 2 + j)), by simp, by simp, ?_, ?_⟩
  · simp only [List.length_map, List.length_range]
    omega
  · simp only [holds_bytes_append, List.length_append, List.length_map, List.length_range]
    refine ⟨⟨fun j hj => ?_, fun j hj => ?_⟩, fun j hj => ?_⟩ <;> simp [Nat.add_assoc]

/-- The checksum that is computed while its field is zero makes that of the whole 0. -/
theorem stored_checksum_verifies (m : Mem) (base : Nat) {len k : Nat} (hfield : 2 * k + 2 ≤ len) (hlen : len ≤ 1500) :
    let zeroed := storeBytes m (base + 2 * k) (u16Bytes 0)
    let summed := storeBytes zeroed (base + 2 * k) (u16Bytes (ipChecksumAt zeroed base len).val)
    (ipChecksumAt summed base len).val = 0 := by
  obtain ⟨before, field, after, hoff, htwo, rfl, hholds⟩ := holds_cut m base hfield
  have hsize : ∀ v, (u16Bytes v).length = 2 := fun _ => rfl
  have hwhole : ∀ v, (before ++ u16Bytes v ++ after).length = before.length + 2 + after.length := by
    intro v
    rw [List.length_append, List.length_append, hsize]
  intro zeroed summed
  have hzeroed : HoldsBytes zeroed base (before ++ u16Bytes 0 ++ after) := by
    have hsplice := store_splice hholds ((hsize 0).trans htwo.symm)
    rwa [hoff] at hsplice
  have hstored : ∀ v, HoldsBytes (storeBytes zeroed (base + 2 * k) (u16Bytes v)) base (before ++ u16Bytes v ++ after) := by
    intro v
    have hsplice := store_splice hzeroed ((hsize v).trans (hsize 0).symm)
    rwa [hoff] at hsplice
  have hcheck := checksum_at_holds hzeroed
  have hverify := checksum_at_holds (hstored (ipChecksumAt zeroed base (before.length + 2 + after.length)).val)
  rw [hwhole] at hcheck hverify
  rw [hverify, hcheck]
  exact checksum_verifies (by omega) (by omega)

/-- Odd bytes, with the field over the second word. -/
theorem stored_checksum_verifies_five :
    let zeroed := storeBytes (fun _ => 1) (10 + 2 * 1) (u16Bytes 0)
    let summed := storeBytes zeroed (10 + 2 * 1) (u16Bytes (ipChecksumAt zeroed 10 5).val)
    (ipChecksumAt summed 10 5).val = 0 :=
  stored_checksum_verifies (fun _ => 1) 10 (by decide) (by decide)

end BaSic.Proofs.Checksum
