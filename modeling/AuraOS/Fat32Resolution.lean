import AuraOS.Fat32Trees

namespace AuraOS.Fat32

open NameGraphs

variable {path name : List UInt8} {slot : Slot} {dir : Nat} {p : Nat × Nat} {o : Obj}

def NotDots (name : List UInt8) : Prop :=
  toAsciiUppercase name ≠ [dot] ∧ toAsciiUppercase name ≠ [dot, dot]

theorem not_isDots_of_name (hname : NotDots name)
    (h : toAsciiUppercase slot.fullName = toAsciiUppercase name) : ¬ slot.isDots := by
  rintro (hself | hup)
  · rw [hself] at h
    exact hname.1 h.symm
  · rw [hup] at h
    exact hname.2 h.symm

section Search

variable {fs : Fat32Fs} {disk : Disk} {objs : Objs} (layout : Layout fs)
  (sound : Sound fs (fs.view disk) objs) (tidy : Tidy (fs.view disk) objs)
include layout sound tidy

theorem find_of_entry (hentry : EntryAt (fs.view disk) objs dir p slot)
    (hname : toAsciiUppercase slot.fullName = toAsciiUppercase name) :
    fs.findEntryInDir disk dir name = .ok (some (slot.entry, fs.clusterToLba p.1, p.2)) := by
  obtain ⟨o, ho, hkind, hp⟩ := hentry.inDir
  have hslot := hentry.slotAt
  subst hslot
  rw [findEntryInDir_eq layout name (sound.valid ho) (sound.follows ho)]
  have hfound : ((fs.view disk).slotAt p).hasName (toAsciiUppercase name) = true :=
    Bool.and_eq_true_iff.mpr ⟨hentry.live, beq_iff_eq.mpr hname⟩
  have hvisible := tidy.packed dir o ho hkind p hp hentry.live
  cases hfind : ((fs.view disk).visible o.chain).find? fun p =>
      ((fs.view disk).slotAt p).hasName (toAsciiUppercase name) with
  | none => exact absurd hfound (List.find?_eq_none.mp hfind p hvisible)
  | some q =>
    have hq := List.find?_some hfind
    have hqmem := (List.takeWhile_prefix _).subset (List.mem_of_find?_eq_some hfind)
    -- An entry with the name of an entry is no dot entry, and so it is that entry.
    have hnotDots : NotDots name := by
      obtain ⟨legal, hlegal, hfull⟩ := tidy.legal hentry
      rw [hfull, toAsciiUppercase_toAsciiUppercase] at hname
      rw [NotDots, ← hname]
      exact hlegal.not_dots
    have hsame := (upper_of_hasName hq).trans hname.symm
    obtain rfl := tidy.distinct ⟨⟨o, ho, hkind, hqmem⟩, rfl, isLive_of_hasName hq,
      not_isDots_of_name hnotDots (upper_of_hasName hq)⟩ hentry hsame
    rfl

theorem target_of_entry (hparent : fs.parentOf disk path = .ok dir)
    (hentry : EntryAt (fs.view disk) objs dir p slot)
    (hname : toAsciiUppercase slot.fullName = toAsciiUppercase (lastPart path)) :
    fs.target disk path = some slot.entry := by
  have hfind := find_of_entry layout sound tidy hentry hname
  rw [Fat32Fs.parentOf] at hparent
  rw [lastPart] at hfind
  simp only [Fat32Fs.target, hparent, hfind]

end Search

end AuraOS.Fat32
