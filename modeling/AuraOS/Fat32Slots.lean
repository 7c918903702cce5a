import AuraOS.Fat32Directories

namespace AuraOS.Fat32

open LittleEndian

variable {view : View} {p : Nat × Nat} {slot : Slot} {bytes : List UInt8}
  {name : List UInt8 × List UInt8} {b : UInt8}

structure Puts (view : View) (p : Nat × Nat) (slot : Slot) (view' : View) : Prop where
  fat : view'.fat = view.fat
  data : ∀ x, x ≠ p.1 → view'.data x = view.data x
  slot : view'.slotAt p = slot
  others : ∀ i, i ≠ p.2 → view'.slotAt (p.1, i) = view.slotAt (p.1, i)

theorem Puts.slotAt_of_ne {view' : View} {q : Nat × Nat} (h : Puts view p slot view') (hq : q ≠ p) :
    view'.slotAt q = view.slotAt q := by
  obtain ⟨x, i⟩ := q
  by_cases hx : x = p.1
  · subst hx
    exact h.others i fun hi => hq (by rw [hi])
  · rw [View.slotAt, View.slotAt, h.data x hx]

def Slot.copyAt (slot : Slot) (offset : Nat) (bytes : List UInt8) : Slot := fun k =>
  if k < offset then slot k else bytes.getD (k - offset) (slot k)

section Copies

theorem slot_copyAt (buf : Sector) (i offset : Nat) (bytes : List UInt8) :
    (buf.copyAt (32 * i + offset) bytes).slot i = (buf.slot i).copyAt offset bytes := by
  funext k
  have hoffset : 32 * i + k - (32 * i + offset) = k - offset := by omega
  simp only [Sector.slot, Sector.copyAt, Slot.copyAt, hoffset, Nat.add_lt_add_iff_left]

theorem slot_copyAt_of_ne (buf : Sector) (i offset : Nat) {j : Nat}
    (hfits : offset + bytes.length ≤ 32) (h : j ≠ i) :
    (buf.copyAt (32 * i + offset) bytes).slot j = buf.slot j := by
  funext k
  refine copyAt_outside buf ?_
  omega

theorem puts_copyAt (view : View) (p : Nat × Nat) (offset : Nat)
    (hfits : offset + bytes.length ≤ 32) :
    Puts view p ((view.slotAt p).copyAt offset bytes)
      (view.setData p.1 ((view.data p.1).copyAt (32 * p.2 + offset) bytes)) where
  fat := rfl
  data x hx := Function.update_of_ne hx _ _
  slot := by
    rw [View.slotAt, View.setData_data, Function.update_self, slot_copyAt]
    rfl
  others i hi := by
    rw [View.slotAt, View.setData_data, Function.update_self, slot_copyAt_of_ne _ _ _ hfits hi]
    rfl

theorem Puts.trans {view₁ view₂ : View} {slot' : Slot} (h : Puts view p slot view₁)
    (h' : Puts view₁ p slot' view₂) : Puts view p slot' view₂ where
  fat := h'.fat.trans h.fat
  data x hx := (h'.data x hx).trans (h.data x hx)
  slot := h'.slot
  others i hi := (h'.others i hi).trans (h.others i hi)

theorem Puts.copyAt {buf : Sector} (h : Puts view p slot (view.setData p.1 buf)) (offset : Nat)
    (hfits : offset + bytes.length ≤ 32) :
    Puts view p (slot.copyAt offset bytes)
      (view.setData p.1 (buf.copyAt (32 * p.2 + offset) bytes)) := by
  have hnext := puts_copyAt (view.setData p.1 buf) p offset hfits
  rw [h.slot] at hnext
  have hview : (view.setData p.1 buf).setData p.1
      (((view.setData p.1 buf).data p.1).copyAt (32 * p.2 + offset) bytes) =
      view.setData p.1 (buf.copyAt (32 * p.2 + offset) bytes) := by
    simp [View.setData]
  rw [hview] at hnext
  exact h.trans hnext

end Copies

def Slot.deleted (slot : Slot) : Slot := slot.copyAt 0 [0xE5]

def entrySlot (name : List UInt8 × List UInt8) (attr : UInt8) (firstCluster fileSize : Nat) :
    Slot :=
  fun k => (entryBytes name.1 name.2 attr firstCluster fileSize).getD k 0

def Slot.updated (slot : Slot) (firstCluster fileSize : Nat) : Slot :=
  ((slot.copyAt 20 (leBytes 2 (clusterHigh firstCluster))).copyAt 26
    (leBytes 2 (clusterLow firstCluster))).copyAt 28 (leBytes 4 fileSize)

section Written

variable (view : View) (p : Nat × Nat)

theorem puts_deleted :
    Puts view p (view.slotAt p).deleted
      (view.setData p.1 ((view.data p.1).copyAt (32 * p.2) [0xE5])) :=
  puts_copyAt view p 0 (by decide)

theorem puts_updated (firstCluster fileSize : Nat) :
    Puts view p ((view.slotAt p).updated firstCluster fileSize)
      (view.setData p.1 (updateEntry (view.data p.1) p.2 firstCluster fileSize)) := by
  have hfits (count value : Nat) (offset : Nat) (h : offset + count ≤ 32) :
      offset + (leBytes count value).length ≤ 32 := by
    rw [length_leBytes]
    exact h
  have hhigh := puts_copyAt view p 20 (hfits 2 (clusterHigh firstCluster) 20 (by decide))
  have hlow := hhigh.copyAt 26 (hfits 2 (clusterLow firstCluster) 26 (by decide))
  exact hlow.copyAt 28 (hfits 4 fileSize 28 (by decide))

@[simp]
theorem length_padTo (len : Nat) (bytes : List UInt8) : (padTo len bytes).length = len := by
  simp only [padTo, List.length_append, List.length_replicate, List.length_take]
  omega

theorem length_entryBytes {name ext : List UInt8} (hname : name.length = 8) (hext : ext.length = 3)
    (attr : UInt8) (firstCluster fileSize : Nat) :
    (entryBytes name ext attr firstCluster fileSize).length = 32 := by
  simp [entryBytes, hname, hext]

theorem copyAt_entryBytes (hname : name.1.length = 8) (hext : name.2.length = 3) (attr : UInt8)
    (firstCluster fileSize : Nat) (slot : Slot) :
    slot.copyAt 0 (entryBytes name.1 name.2 attr firstCluster fileSize) =
      entrySlot name attr firstCluster fileSize := by
  have hlength := length_entryBytes hname hext attr firstCluster fileSize
  funext k
  have hk : k.val < (entryBytes name.1 name.2 attr firstCluster fileSize).length := by omega
  simp only [Slot.copyAt, entrySlot, Nat.not_lt_zero, if_false, Nat.sub_zero,
    List.getD_eq_getElem _ _ hk]

theorem puts_entrySlot (hname : name.1.length = 8) (hext : name.2.length = 3) (attr : UInt8)
    (firstCluster fileSize : Nat) :
    Puts view p (entrySlot name attr firstCluster fileSize)
      (view.setData p.1 ((view.data p.1).copyAt (32 * p.2)
        (entryBytes name.1 name.2 attr firstCluster fileSize))) := by
  have hlength := length_entryBytes hname hext attr firstCluster fileSize
  rw [← copyAt_entryBytes hname hext attr firstCluster fileSize (view.slotAt p)]
  exact puts_copyAt view p 0 (by omega)

end Written

section Fields

theorem isLive_deleted (slot : Slot) : slot.deleted.isLive = false := rfl

theorem updated_of_lt (slot : Slot) (firstCluster fileSize : Nat) {k : Fin 32} (hk : k < 20) :
    slot.updated firstCluster fileSize k = slot k := by
  have h20 : k.val < 20 := hk
  have h26 : k.val < 26 := by omega
  have h28 : k.val < 28 := by omega
  simp [Slot.updated, Slot.copyAt, h20, h26, h28]

theorem fullName_updated (slot : Slot) (firstCluster fileSize : Nat) :
    (slot.updated firstCluster fileSize).fullName = slot.fullName := by
  simp only [Slot.fullName]
  repeat rw [updated_of_lt slot firstCluster fileSize (by decide)]

theorem attr_updated (slot : Slot) (firstCluster fileSize : Nat) :
    (slot.updated firstCluster fileSize).attr = slot.attr :=
  updated_of_lt slot firstCluster fileSize (by decide)

theorem isLive_updated (slot : Slot) (firstCluster fileSize : Nat) :
    (slot.updated firstCluster fileSize).isLive = slot.isLive := by
  simp only [Slot.isLive, Slot.isFree, Slot.isSkipped, attr_updated]
  rw [updated_of_lt slot firstCluster fileSize (by decide)]

theorem leValue_halves {cluster : Nat} (h : cluster < 2 ^ 32) :
    leValue (leBytes 2 (clusterLow cluster)) + 2 ^ 16 * leValue (leBytes 2 (clusterHigh cluster)) =
      cluster := by
  rw [leValue_leBytes, leValue_leBytes]
  simp only [clusterLow, clusterHigh]
  omega

theorem firstCluster_updated (slot : Slot) {firstCluster : Nat} (fileSize : Nat)
    (h : firstCluster < 2 ^ 32) :
    (slot.updated firstCluster fileSize).firstCluster = firstCluster :=
  leValue_halves h

end Fields

section EntrySlots

variable {name : List UInt8 × List UInt8} (hname : name.1.length = 8) (hext : name.2.length = 3)
  (attr : UInt8) (firstCluster fileSize : Nat)
include hname hext

theorem entrySlot_fields :
    let slot := entrySlot name attr firstCluster fileSize
    slot.attr = attr ∧
      [slot 0, slot 1, slot 2, slot 3, slot 4, slot 5, slot 6, slot 7] = name.1 ∧
      [slot 8, slot 9, slot 10] = name.2 ∧
      [slot 26, slot 27] = leBytes 2 (clusterLow firstCluster) ∧
      [slot 20, slot 21] = leBytes 2 (clusterHigh firstCluster) ∧
      [slot 28, slot 29, slot 30, slot 31] = leBytes 4 fileSize := by
  obtain ⟨base, ext⟩ := name
  match base, ext, hname, hext with
  | [_, _, _, _, _, _, _, _], [_, _, _], _, _ => exact ⟨rfl, rfl, rfl, rfl, rfl, rfl⟩

theorem attr_entrySlot : (entrySlot name attr firstCluster fileSize).attr = attr :=
  (entrySlot_fields hname hext attr firstCluster fileSize).1

theorem fullName_entrySlot :
    (entrySlot name attr firstCluster fileSize).fullName =
      let base := trimEnd (fromUtf8OrEmpty name.1)
      let ext := trimEnd (fromUtf8OrEmpty name.2)
      if ext = [] then base else base ++ dot :: ext := by
  obtain ⟨-, hbase, hext', -⟩ := entrySlot_fields hname hext attr firstCluster fileSize
  simp only [Slot.fullName, hbase, hext']

theorem firstCluster_entrySlot (h : firstCluster < 2 ^ 32) :
    (entrySlot name attr firstCluster fileSize).firstCluster = firstCluster := by
  obtain ⟨-, -, -, hlow, hhigh, -⟩ := entrySlot_fields hname hext attr firstCluster fileSize
  rw [Slot.firstCluster, hlow, hhigh, leValue_halves h]

end EntrySlots

section Names

theorem dropWhiteSpace_suffix {rest : List UInt8} (h : dropWhiteSpace bytes = some rest) :
    rest <:+ bytes := by
  unfold dropWhiteSpace at h
  split at h
  · cases h
  · split at h
    · cases h
      exact List.suffix_cons _ _
    · split at h
      · cases h
      · split at h
        · cases h
          exact (List.suffix_cons _ _).trans (List.suffix_cons _ _)
        · split at h
          · cases h
          · split at h
            · cases h
              exact ((List.suffix_cons _ _).trans (List.suffix_cons _ _)).trans
                (List.suffix_cons _ _)
            · cases h

theorem trimEndFrom_suffix (fuel : Nat) (bytes : List UInt8) :
    trimEndFrom fuel bytes <:+ bytes := by
  induction fuel generalizing bytes with
  | zero => exact List.suffix_refl bytes
  | succ fuel ih =>
    rw [trimEndFrom]
    cases h : dropWhiteSpace bytes with
    | none => exact List.suffix_refl bytes
    | some rest => exact (ih rest).trans (dropWhiteSpace_suffix h)

theorem trimEnd_subset (bytes : List UInt8) : trimEnd bytes ⊆ bytes := by
  intro b hb
  have := (trimEndFrom_suffix bytes.length bytes.reverse).subset (List.mem_reverse.mp hb)
  exact List.mem_reverse.mp this

theorem mem_of_mem_fromUtf8OrEmpty (h : b ∈ fromUtf8OrEmpty bytes) : b ∈ bytes := by
  rw [fromUtf8OrEmpty] at h
  split at h
  · exact h
  · cases h

theorem mem_padTo {len : Nat} (h : b ∈ padTo len bytes) : b ∈ bytes ∨ b = space := by
  rcases List.mem_append.mp h with htake | hpad
  · exact .inl (List.mem_of_mem_take htake)
  · exact .inr (List.eq_of_mem_replicate hpad)

theorem dot_notMem_toShortName (name : List UInt8) :
    dot ∉ (toShortName name).1 ∧ dot ∉ (toShortName name).2 := by
  constructor <;>
  · intro h
    rcases mem_padTo h with hbytes | hspace
    · exact absurd (List.mem_takeWhile_imp hbytes) (by decide)
    · exact absurd hspace (by decide)

theorem fullName_entrySlot_ne (name : List UInt8) (attr : UInt8) (firstCluster fileSize : Nat) :
    (entrySlot (toShortName name) attr firstCluster fileSize).fullName ≠ [dot] ∧
      (entrySlot (toShortName name) attr firstCluster fileSize).fullName ≠ [dot, dot] := by
  obtain ⟨hbase, hext⟩ := dot_notMem_toShortName name
  rw [fullName_entrySlot (length_padTo 8 _) (length_padTo 3 _)]
  have hbase' : dot ∉ trimEnd (fromUtf8OrEmpty (toShortName name).1) := fun h =>
    hbase (mem_of_mem_fromUtf8OrEmpty (trimEnd_subset _ h))
  have hext' : dot ∉ trimEnd (fromUtf8OrEmpty (toShortName name).2) := fun h =>
    hext (mem_of_mem_fromUtf8OrEmpty (trimEnd_subset _ h))
  generalize trimEnd (fromUtf8OrEmpty (toShortName name).1) = base at *
  simp only
  split
  · refine ⟨?_, ?_⟩ <;>
    · rintro rfl
      exact hbase' (.head _)
  · rename_i hne
    cases base with
    | nil =>
      refine ⟨fun h => hne (List.cons.inj h).2, fun h => hext' ?_⟩
      rw [(List.cons.inj h).2]
      exact .head _
    | cons b base =>
      refine ⟨fun h => ?_, fun h => hbase' ?_⟩
      · exact absurd (congrArg List.length h) (by simp)
      · rw [(List.cons.inj h).1]
        exact .head _

end Names

section DirSector

variable (newCluster parentTarget : Nat)

def dotSlot (name : List UInt8) (cluster : Nat) : Slot :=
  entrySlot (padTo 8 name, padTo 3 []) attrDirectory cluster 0

theorem copyAt_dotBytes (name : List UInt8) (cluster : Nat) (slot : Slot) :
    slot.copyAt 0 (entryBytes (padTo 8 name) (padTo 3 []) attrDirectory cluster 0) =
      dotSlot name cluster := by
  have hname : (padTo 8 name, padTo 3 []).1.length = 8 := length_padTo 8 name
  exact copyAt_entryBytes hname (length_padTo 3 []) attrDirectory cluster 0 slot

theorem slot_dirSector_zero :
    (dirSector newCluster parentTarget).slot 0 = dotSlot [dot] newCluster := by
  have hlength := length_entryBytes (length_padTo 8 [dot, dot]) (length_padTo 3 []) attrDirectory
    parentTarget 0
  refine (slot_copyAt_of_ne _ 1 0 (by omega) (by decide)).trans ?_
  refine (slot_copyAt zeroSector 0 0 _).trans ?_
  exact copyAt_dotBytes [dot] newCluster _

theorem slot_dirSector_one :
    (dirSector newCluster parentTarget).slot 1 = dotSlot [dot, dot] parentTarget := by
  refine (slot_copyAt _ 1 0 _).trans ?_
  exact copyAt_dotBytes [dot, dot] parentTarget _

theorem slot_dirSector_of_two_le {i : Nat} (h : 2 ≤ i) :
    (dirSector newCluster parentTarget).slot i = zeroSector.slot i := by
  have hfirst := length_entryBytes (length_padTo 8 [dot]) (length_padTo 3 []) attrDirectory
    newCluster 0
  have hsecond := length_entryBytes (length_padTo 8 [dot, dot]) (length_padTo 3 []) attrDirectory
    parentTarget 0
  refine (slot_copyAt_of_ne _ 1 0 (by omega) (by omega)).trans ?_
  exact slot_copyAt_of_ne _ 0 0 (by omega) (by omega)

theorem fullName_dotSlot : (dotSlot [dot] newCluster).fullName = [dot] := by
  rw [dotSlot, fullName_entrySlot (length_padTo 8 [dot]) (length_padTo 3 [])]
  decide

theorem fullName_dotDotSlot : (dotSlot [dot, dot] parentTarget).fullName = [dot, dot] := by
  rw [dotSlot, fullName_entrySlot (length_padTo 8 [dot, dot]) (length_padTo 3 [])]
  decide

end DirSector

end AuraOS.Fat32
