import AuraOS.Fat32Objects

namespace AuraOS.Fat32

open LinkedChains

variable {view : View} {dir : Nat}

inductive Attached (view : View) (objs : Objs) : Nat → Prop
  | root : Attached view objs rootCluster
  | child {dir : Nat} {p : Nat × Nat} {k : Nat} (parent : Attached view objs dir)
      (refers : Refers view objs dir p k) : Attached view objs k

/-- A directory in which a path is looked up: one that can be reached, or nothing, where the
parent of a directory in the root leads. -/
def DirAt (view : View) (objs : Objs) (cluster : Nat) : Prop :=
  cluster = 0 ∨ Attached view objs cluster ∧ ∃ o, objs cluster = some o ∧ o.isDir = true

section Resolution

variable {fs : Fat32Fs} {disk : Disk} {objs : Objs}

theorem Attached.parent (sound : Sound fs view objs) {k : Nat} {o : Obj} (h : Attached view objs k)
    (hk : k ≠ rootCluster) (ho : objs k = some o) :
    DirAt view objs (if o.parent = rootCluster then 0 else o.parent) := by
  cases h with
  | root => exact absurd rfl hk
  | child hparent href =>
    obtain ⟨_, o', ho', _, hdir⟩ := sound.child href
    rw [ho, Option.some.injEq] at ho'
    subst ho'
    rw [hdir]
    split
    · exact .inl rfl
    · obtain ⟨dirObj, hdirObj, hkind, _⟩ := href.inDir
      exact .inr ⟨hparent, dirObj, hdirObj, hkind⟩

theorem DirAt.next (sound : Sound fs view objs) {p : Nat × Nat} (hdir : Attached view objs dir)
    (hp : InDir objs dir p) (hlive : (view.slotAt p).isLive = true)
    (hkind : (view.slotAt p).isDir = true) : DirAt view objs (view.slotAt p).firstCluster := by
  obtain ⟨o, ho, hisDir, hmem⟩ := hp
  have hdots := sound.dots ho hisDir hmem hlive
  by_cases hself : (view.slotAt p).fullName = [dot]
  · obtain ⟨_, _, htarget⟩ := hdots.self hself
    rw [htarget]
    exact .inr ⟨hdir, o, ho, hisDir⟩
  · by_cases hup : (view.slotAt p).fullName = [dot, dot]
    · obtain ⟨hroot, _, htarget⟩ := hdots.up hup
      rw [htarget]
      exact hdir.parent sound hroot ho
    · have href : Refers view objs dir p (view.slotAt p).firstCluster :=
        ⟨⟨o, ho, hisDir, hmem⟩, hlive, fun h => h.elim hself hup, rfl⟩
      obtain ⟨_, child, hchild, hchildKind, _⟩ := sound.child href
      exact .inr ⟨hdir.child href, child, hchild, hchildKind.trans hkind⟩

theorem DirAt.root (sound : Sound fs view objs) : DirAt view objs rootCluster :=
  .inr ⟨.root, sound.root⟩

variable (layout : Layout fs) (sound : Sound fs (fs.view disk) objs)
include layout sound

theorem findEntryInDir_cases (hdir : DirAt (fs.view disk) objs dir) (name : List UInt8) :
    fs.findEntryInDir disk dir name = .ok none ∨
      ∃ p, Attached (fs.view disk) objs dir ∧ InDir objs dir p ∧
        ((fs.view disk).slotAt p).hasName (toAsciiUppercase name) = true ∧
        fs.findEntryInDir disk dir name =
          .ok (some (((fs.view disk).slotAt p).entry, fs.clusterToLba p.1, p.2)) := by
  rcases hdir with rfl | ⟨hattached, o, ho, hkind⟩
  · exact .inl (findEntryInDir_zero fs disk name)
  · rw [findEntryInDir_eq layout name (sound.valid ho) (sound.follows ho)]
    cases hfind : ((fs.view disk).visible o.chain).find? fun p =>
        ((fs.view disk).slotAt p).hasName (toAsciiUppercase name) with
    | none => exact .inl rfl
    | some p =>
      have hmem := (List.takeWhile_prefix _).subset (List.mem_of_find?_eq_some hfind)
      have hfound := List.find?_some hfind
      exact .inr ⟨p, hattached, ⟨o, ho, hkind, hmem⟩, hfound, rfl⟩

omit layout sound in
theorem isLive_of_hasName {slot : Slot} {nameUpper : List UInt8}
    (h : slot.hasName nameUpper = true) : slot.isLive = true :=
  (Bool.and_eq_true_iff.mp h).1

theorem resolveFrom_dirAt (hdir : DirAt (fs.view disk) objs dir) {path : List (List UInt8)}
    {entry : FatDirEntry} {parent : Nat}
    (h : fs.resolveFrom disk dir path = .ok (some entry, parent))
    (hkind : entry.isDirectory = true) :
    DirAt (fs.view disk) objs entry.firstCluster := by
  induction path generalizing dir with
  | nil => cases h
  | cons segment rest ih =>
    rcases findEntryInDir_cases layout sound hdir segment with
      hnone | ⟨p, hattached, hp, hname, hfind⟩
    · cases rest with
      | nil =>
        rw [Fat32Fs.resolveFrom, hnone] at h
        cases h
      | cons next rest =>
        rw [Fat32Fs.resolveFrom, hnone] at h
        · cases h
        · exact nofun
    · have hlive := isLive_of_hasName hname
      cases rest with
      | nil =>
        rw [Fat32Fs.resolveFrom, hfind] at h
        cases h
        exact DirAt.next sound hattached hp hlive hkind
      | cons next rest =>
        rw [Fat32Fs.resolveFrom, hfind] at h
        · simp only at h
          split at h
          · rename_i hnext
            exact ih (DirAt.next sound hattached hp hlive hnext) h
          · cases h
        · exact nofun

theorem resolveParent_dirAt {parentDir : List UInt8}
    (h : fs.resolveParent disk parentDir = .ok dir) :
    DirAt (fs.view disk) objs dir := by
  rw [Fat32Fs.resolveParent] at h
  cases hresolve : fs.resolvePath disk parentDir with
  | error stop =>
    rw [hresolve] at h
    cases h
  | ok result =>
    rw [hresolve] at h
    obtain ⟨entry, parent⟩ := result
    cases entry with
    | none => cases h
    | some entry =>
      simp only at h
      split at h
      · rename_i hkind
        cases h
        rw [Fat32Fs.resolvePath] at hresolve
        split at hresolve
        · cases hresolve
          rw [layout.rootCluster]
          exact DirAt.root sound
        · refine resolveFrom_dirAt layout sound ?_ hresolve hkind
          rw [layout.rootCluster]
          exact DirAt.root sound
      · cases h

end Resolution

end AuraOS.Fat32
