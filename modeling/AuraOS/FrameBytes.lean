import AuraOS.Syscalls

namespace AuraOS.PageTables

open PhysicalFrames Syscalls

theorem byteMask_getLsbD (k : Nat) : (0xFF#64).getLsbD k = decide (k < 8) := by
  rw [BitVec.getLsbD_ofNat, show 255 = 2 ^ 8 - 1 by rfl, Nat.testBit_two_pow_sub_one]
  by_cases hk : k < 8
  · have hlow : k < 64 := by omega
    simp [hk, hlow]
  · simp [hk]

theorem setByte_getByte (word : BitVec 64) (byte : BitVec 8) {r r' : Nat} (hr' : r' < 8) :
    ((((word &&& ~~~ (0xFF#64 <<< (8 * r))) ||| (byte.setWidth 64 <<< (8 * r))) >>>
      (8 * r')).setWidth 8 : BitVec 8) =
        if r' = r then byte else (word >>> (8 * r')).setWidth 8 := by
  refine BitVec.eq_of_getLsbD_eq fun j hj => ?_
  have hlow : 8 * r' + j < 64 := by omega
  simp only [BitVec.getLsbD_setWidth, BitVec.getLsbD_ushiftRight, BitVec.getLsbD_or,
    BitVec.getLsbD_and, BitVec.getLsbD_not, BitVec.getLsbD_shiftLeft, byteMask_getLsbD, hj, hlow,
    decide_true, Bool.true_and]
  -- bit j of byte r' is under the mask exactly when r' = r
  by_cases heq : r' = r
  · subst heq
    have hshift : 8 * r' + j - 8 * r' = j := by omega
    have hmin : ¬ 8 * r' + j < 8 * r' := by omega
    have hj' : j < 64 := by omega
    simp only [hshift, hmin, hj, hj', if_true, decide_true, decide_false, Bool.not_false,
      Bool.not_true, Bool.and_true, Bool.and_false, Bool.false_or, Bool.true_and]
  · rw [if_neg heq, BitVec.getLsbD_setWidth, BitVec.getLsbD_ushiftRight]
    by_cases hlt : 8 * r' + j < 8 * r
    · simp only [hlt, hj, decide_true, Bool.not_true, Bool.false_and, Bool.not_false,
        Bool.and_true, Bool.or_false, Bool.true_and]
    · have hfar : ¬ 8 * r' + j - 8 * r < 8 := by omega
      have hout : byte.getLsbD (8 * r' + j - 8 * r) = false :=
        BitVec.getLsbD_of_ge _ _ (by omega)
      simp only [hlt, hfar, hout, hj, decide_true, decide_false, Bool.not_false, Bool.and_false,
        Bool.and_true, Bool.or_false, Bool.true_and]

theorem readByte_writeByte (mem : Mem) (frame : Nat) {offset offset' : Nat} (byte : BitVec 8)
    (h : offset < pageSize) (h' : offset' < pageSize) :
    readByte (mem.writeByte frame offset byte) frame offset' =
      if offset' = offset then byte else readByte mem frame offset' := by
  rw [readByte, Mem.writeByte, setEntry_apply]
  by_cases hword : offset' / 8 = offset / 8
  · have hslot : frame = frame ∧ Fin.ofNat 512 (offset' / 8) = Fin.ofNat 512 (offset / 8) :=
      ⟨rfl, by rw [hword]⟩
    rw [if_pos hslot, setByte_getByte _ _ (by omega), ← hslot.2]
    exact if_congr (by omega) rfl rfl
  · have hslot : ¬ (frame = frame ∧ Fin.ofNat 512 (offset' / 8) = Fin.ofNat 512 (offset / 8)) := by
      rintro ⟨-, heq⟩
      have hval := congrArg Fin.val heq
      grind
    rw [if_neg hslot, if_neg (by rintro rfl; exact hword rfl), readByte]

theorem readByte_copyBytes (frame : Nat) {offset offset' : Nat} (bytes : List (BitVec 8))
    (mem : Mem)
    (h : offset + bytes.length ≤ pageSize) (h' : offset' < pageSize) :
    readByte (mem.copyBytes frame offset bytes) frame offset' =
      if offset ≤ offset' then (bytes[offset' - offset]?).getD (readByte mem frame offset')
      else readByte mem frame offset' := by
  induction bytes generalizing offset mem with
  | nil => simp [Mem.copyBytes]
  | cons byte rest ih =>
    rw [List.length_cons] at h
    rw [Mem.copyBytes, ih (mem.writeByte frame offset byte) (by omega),
      readByte_writeByte mem frame byte (by omega) h']
    -- the byte is one of the rest, the first one, or before them
    rcases Nat.lt_trichotomy offset' offset with hlt | rfl | hgt
    · rw [if_neg (by omega), if_neg (by omega), if_neg (by omega)]
    · rw [if_neg (by omega), if_pos rfl, if_pos le_rfl, Nat.sub_self]
      rfl
    · have hindex : offset' - offset = offset' - (offset + 1) + 1 := by omega
      rw [if_pos (by omega), if_neg (by omega), if_pos (by omega), hindex, List.getElem?_cons_succ]

theorem frame_clear_iff (mem : Mem) (frame : Nat) :
    (∀ i, mem frame i = 0) ↔ ∀ offset < pageSize, readByte mem frame offset = 0 := by
  constructor
  · intro h offset _
    rw [readByte, h]
    simp
  · intro h i
    refine BitVec.eq_of_getLsbD_eq fun j hj => ?_
    have hbyte := h (8 * i.val + j / 8) (by grind)
    have hindex : Fin.ofNat 512 ((8 * i.val + j / 8) / 8) = i := by
      refine Fin.ext ?_
      grind
    have hbit := congrArg (fun b : BitVec 8 => b.getLsbD (j % 8)) hbyte
    rw [readByte, hindex] at hbit
    have hlow : j % 8 < 8 := Nat.mod_lt _ (by omega)
    have hshift : 8 * ((8 * i.val + j / 8) % 8) + j % 8 = j := by omega
    simp only [BitVec.getLsbD_setWidth, BitVec.getLsbD_ushiftRight, hlow, hshift, decide_true,
      Bool.true_and] at hbit
    rw [hbit, BitVec.ofNat_eq_ofNat, BitVec.ofNat_eq_ofNat, BitVec.getLsbD_zero,
      BitVec.getLsbD_zero]

end AuraOS.PageTables
