import AuraOS.GuardedRuns
import AuraOS.Fat32Formatted

namespace AuraOS.Fat32

open GuardedRuns LinkedChains

variable {chain way : List Nat} {o : Obj} {entry : FatDirEntry}

/-- The root directory, as `resolve_path` returns it. -/
def Fat32Fs.rootEntry (fs : Fat32Fs) : FatDirEntry :=
  ⟨[slash], true, fs.rootCluster, 0, attrDirectory⟩

/-- The entries that can be reached from the root through entries other than dot entries, with
their places in the listings on the way. -/
inductive Reachable (fs : Fat32Fs) (disk : Disk) : List Nat → FatDirEntry → Prop
  | root : Reachable fs disk [] fs.rootEntry
  | entry {way : List Nat} {parent entry : FatDirEntry} {entries : List FatDirEntry} {i : Nat}
      (above : Reachable fs disk way parent) (isDirectory : parent.isDirectory = true)
      (listed : fs.listDirectoryCluster disk parent.firstCluster = .ok entries)
      (place : entries[i]? = some entry) (notSelf : entry.name ≠ [dot])
      (notUp : entry.name ≠ [dot, dot]) : Reachable fs disk (i :: way) entry

def fatEndMark : Nat := 0x0FFFFFF8

structure HasChain (fs : Fat32Fs) (disk : Disk) (first : Nat) (chain : List Nat) : Prop where
  nonempty : chain ≠ []
  clusters : ∀ c ∈ chain, isCluster c = true
  follows : ∃ mark, fatEndMark ≤ mark ∧ Follows (fs.readFatEntry disk) mark first chain

structure StructurallySafe (fs : Fat32Fs) (disk : Disk) : Prop where
  chain : ∀ {way entry}, Reachable fs disk way entry →
    ∃ chain, HasChain fs disk entry.firstCluster chain ∧ chain.Nodup ∧
      ∀ c ∈ chain, fs.readFatEntry disk c ≠ fatFree
  disjoint : ∀ {way way' entry entry' chain chain' c}, Reachable fs disk way entry →
    Reachable fs disk way' entry' → HasChain fs disk entry.firstCluster chain →
    HasChain fs disk entry'.firstCluster chain' → c ∈ chain → c ∈ chain' → way = way'

section Places

theorem nodup_clusterPositions (x : Nat) : (clusterPositions x).Nodup :=
  List.nodup_range.map fun _ _ h => (Prod.mk.inj h).2

theorem nodup_positions (h : chain.Nodup) : (positions chain).Nodup := by
  refine List.nodup_flatMap.mpr ⟨fun x _ => nodup_clusterPositions x, ?_⟩
  refine h.imp fun {x y} hne p hx hy => hne ?_
  rw [← (mem_clusterPositions.mp hx).1, ← (mem_clusterPositions.mp hy).1]

theorem nodup_entriesAt (view : View) (h : chain.Nodup) : (view.entriesAt chain).Nodup :=
  ((nodup_positions h).sublist (List.takeWhile_sublist _)).filter _

theorem mem_entriesAt {view : View} {p : Nat × Nat} (h : p ∈ view.entriesAt chain) :
    p ∈ positions chain ∧ (view.slotAt p).isLive = true := by
  obtain ⟨hvisible, hlive⟩ := List.mem_filter.mp h
  exact ⟨(List.takeWhile_prefix _).subset hvisible, hlive⟩

end Places

section Reach

variable {fs : Fat32Fs} {disk : Disk} {objs : Objs} (layout : Layout fs)
  (sound : Sound fs (fs.view disk) objs)
include layout sound

theorem hasChain_of_obj {k : Nat} (ho : objs k = some o) : HasChain fs disk k o.chain where
  nonempty := List.ne_nil_of_mem (sound.first ho)
  clusters c hc := layout.isCluster (sound.valid ho c hc)
  follows := ⟨fatEoc, by decide, (sound.follows ho).congr fun c hc =>
    readFatEntry_view layout disk (sound.valid ho c hc)⟩

omit layout sound in
theorem HasChain.unique {first : Nat} {chain' : List Nat} (h : HasChain fs disk first chain)
    (h' : HasChain fs disk first chain') : chain = chain' := by
  obtain ⟨mark, hmark, hfollows⟩ := h.follows
  obtain ⟨mark', hmark', hfollows'⟩ := h'.follows
  have hnot {value : Nat} (hvalue : fatEndMark ≤ value) : isCluster value = false := by
    have hbad : fatBad ≤ value := le_trans (by decide) hvalue
    rw [isCluster, decide_eq_false (Nat.not_lt.mpr hbad), Bool.and_false]
  refine hfollows.unique hfollows' (fun hmem => ?_) fun hmem => ?_
  · have hcluster := h'.clusters mark hmem
    rw [hnot hmark] at hcluster
    cases hcluster
  · have hcluster := h.clusters mark' hmem
    rw [hnot hmark'] at hcluster
    cases hcluster

theorem refers_of_listed {dir : Nat} {entries : List FatDirEntry} {i : Nat} (ho : objs dir = some o)
    (hdir : o.isDir = true) (hlisted : fs.listDirectoryCluster disk dir = .ok entries)
    (hplace : entries[i]? = some entry) (hself : entry.name ≠ [dot])
    (hup : entry.name ≠ [dot, dot]) :
    ∃ p, ((fs.view disk).entriesAt o.chain)[i]? = some p ∧
      entry = ((fs.view disk).slotAt p).entry ∧
      Refers (fs.view disk) objs dir p entry.firstCluster := by
  rw [listDirectoryCluster_eq layout (sound.valid ho) (sound.follows ho),
    Except.ok.injEq] at hlisted
  rw [← hlisted, List.getElem?_map, Option.map_eq_some_iff] at hplace
  obtain ⟨p, hp, rfl⟩ := hplace
  obtain ⟨hmem, hlive⟩ := mem_entriesAt (List.mem_of_getElem? hp)
  exact ⟨p, hp, rfl, ⟨o, ho, hdir, hmem⟩, hlive, fun hdots => hdots.elim hself hup, rfl⟩

theorem Reachable.obj (h : Reachable fs disk way entry) :
    ∃ o, objs entry.firstCluster = some o ∧ o.isDir = entry.isDirectory := by
  induction h with
  | root =>
    obtain ⟨o, ho, hdir⟩ := sound.root
    have hroot : fs.rootEntry.firstCluster = rootCluster := layout.rootCluster
    rw [hroot]
    exact ⟨o, ho, hdir⟩
  | entry _ hdir hlisted hplace hself hup ih =>
    obtain ⟨o, ho, hkind⟩ := ih
    obtain ⟨p, _, rfl, href⟩ := refers_of_listed layout sound ho (hkind.trans hdir) hlisted hplace
      hself hup
    obtain ⟨_, child, hchild, hchildKind, _⟩ := sound.child href
    exact ⟨child, hchild, hchildKind⟩

theorem Reachable.way_unique {way' : List Nat} {entry' : FatDirEntry}
    (h : Reachable fs disk way entry) (h' : Reachable fs disk way' entry')
    (hsame : entry.firstCluster = entry'.firstCluster) : way = way' := by
  induction h generalizing way' entry' with
  | root =>
    cases h' with
    | root => rfl
    | entry above hdir hlisted hplace hself hup =>
      obtain ⟨o, ho, hkind⟩ := above.obj layout sound
      obtain ⟨p, _, _, href⟩ := refers_of_listed layout sound ho (hkind.trans hdir) hlisted
        hplace hself hup
      exact absurd (hsame.symm.trans layout.rootCluster) (sound.child href).1
  | entry above hdir hlisted hplace hself hup ih =>
    obtain ⟨o, ho, hkind⟩ := above.obj layout sound
    obtain ⟨p, hp, _, href⟩ := refers_of_listed layout sound ho (hkind.trans hdir) hlisted hplace
      hself hup
    cases h' with
    | root => exact absurd (hsame.trans layout.rootCluster) (sound.child href).1
    | entry above' hdir' hlisted' hplace' hself' hup' =>
      obtain ⟨o', ho', hkind'⟩ := above'.obj layout sound
      obtain ⟨p', hp', _, href'⟩ := refers_of_listed layout sound ho' (hkind'.trans hdir')
        hlisted' hplace' hself' hup'
      -- Both are the one entry that leads to the cluster.
      rw [← hsame] at href'
      obtain rfl := sound.single href href'
      have hparent := href.inDir.unique sound href'.inDir
      obtain rfl := ih above' hparent
      rw [hparent, ho', Option.some.injEq] at ho
      subst ho
      have hnodup := nodup_entriesAt (fs.view disk)
        ((sound.follows ho').nodup (layout.stop_notMem (sound.valid ho')))
      have hlt := (List.getElem?_eq_some_iff.mp hp).1
      rw [(List.getElem?_inj hlt hnodup).mp (hp.trans hp'.symm)]

theorem structurallySafe_of_sound : StructurallySafe fs disk := by
  refine ⟨fun {way entry} h => ?_, fun {way way' entry entry' chain chain' c} h h' hchain hchain' hc
    hc' => ?_⟩
  · obtain ⟨o, ho, _⟩ := h.obj layout sound
    refine ⟨o.chain, hasChain_of_obj layout sound ho,
      (sound.follows ho).nodup (layout.stop_notMem (sound.valid ho)), fun c hc => ?_⟩
    rw [readFatEntry_view layout disk (sound.valid ho c hc)]
    exact sound.owned_ne_free ⟨_, o, ho, hc⟩
  · obtain ⟨o, ho, _⟩ := h.obj layout sound
    obtain ⟨o', ho', _⟩ := h'.obj layout sound
    rw [hchain.unique (hasChain_of_obj layout sound ho)] at hc
    rw [hchain'.unique (hasChain_of_obj layout sound ho')] at hc'
    exact h.way_unique layout sound h' (sound.disjoint ho ho' hc hc')

end Reach

section Runs

def Fat32Fs.Consistent (fs : Fat32Fs) (disk : Disk) : Prop :=
  ∃ objs, Sound fs (fs.view disk) objs

variable {fs : Fat32Fs} (layout : Layout fs)
include layout

theorem consistent_step (disk : Disk) (call : Call) (h : fs.Consistent disk)
    (hcall : fs.Careful disk call) : fs.Consistent (fs.step disk call) := by
  obtain ⟨objs, sound⟩ := h
  obtain ⟨effect, objs', hperformed⟩ := perform_performed layout sound call hcall
  exact ⟨objs', hperformed.change.sound layout sound⟩

end Runs

theorem format_eq {disk disk₀ : Disk} {lbaStart totalSectors : Nat} {label : List UInt8}
    {fs : Fat32Fs} (h : format disk lbaStart totalSectors label = (.ok fs, disk₀)) :
    formatGeometry lbaStart totalSectors = .ok fs ∧
      disk₀ = fs.formatSectors totalSectors (padTo 11 label) disk := by
  rw [format] at h
  cases hgeometry : formatGeometry lbaStart totalSectors with
  | error stop =>
    rw [hgeometry] at h
    cases h
  | ok fs' =>
    rw [hgeometry] at h
    cases h
    exact ⟨rfl, rfl⟩

/-- On a volume whose clusters all have numbers below the mark for bad clusters, any calls that
neither replace a directory nor delete a dot entry that leads to a cluster, also ones that
fail, leave every chain intact. -/
theorem chains_intact {disk disk₀ : Disk} {lbaStart totalSectors : Nat} {label : List UInt8}
    {fs : Fat32Fs} (hlba : lbaStart < 2 ^ 32) (htotal : totalSectors < 2 ^ 32)
    (hformat : format disk lbaStart totalSectors label = (.ok fs, disk₀))
    (hclusters : fs.totalClusters ≤ fatBad) (calls : List Call)
    (hcalls : Guarded fs.step fs.Careful disk₀ calls) :
    StructurallySafe fs (calls.foldl fs.step disk₀) := by
  obtain ⟨hgeometry, rfl⟩ := format_eq hformat
  obtain ⟨layout, _, _⟩ := layout_of_formatGeometry hgeometry hlba htotal hclusters
  have hstart : fs.Consistent (fs.formatSectors totalSectors (padTo 11 label) disk) :=
    ⟨formattedObjs, formatted_sound layout totalSectors (length_padTo 11 label) disk⟩
  obtain ⟨objs, sound⟩ := invariant_of_guarded (consistent_step layout) hstart hcalls
  exact structurallySafe_of_sound layout sound

def smallVolume : Fat32Fs := ⟨0, 1, 2, 16, 2, 32, 64, 960⟩

def blankDisk : Disk := ⟨fun _ => zeroSector, []⟩

def smallDisk : Disk := (format blankDisk 0 1024 []).2

theorem format_blankDisk : format blankDisk 0 1024 [] = (.ok smallVolume, smallDisk) :=
  rfl

/-- The paths `A`, `A/B` and `A/.`. -/
def pathA : List UInt8 := [0x41]
def pathAB : List UInt8 := [0x41, slash, 0x42]
def pathADot : List UInt8 := [0x41, slash, dot]

def smallCalls : List Call :=
  [.createDir pathA, .writeFile pathAB [1, 2, 3], .writeFile pathAB [4], .deleteEntry pathAB]

theorem smallCalls_targets :
    let target (k : Nat) :=
      smallVolume.target ((smallCalls.take k).foldl smallVolume.step smallDisk)
    target 1 pathAB = none ∧ target 2 pathAB = some ⟨[0x42], false, 4, 3, attrArchive⟩ ∧
      target 3 pathAB = some ⟨[0x42], false, 5, 1, attrArchive⟩ := by
  decide +kernel

/-- Behind them, `..` is deleted in a directory of the root. -/
theorem chains_intact_small :
    let calls := smallCalls ++ [.deleteEntry (pathADot ++ [dot])]
    Guarded smallVolume.step smallVolume.Careful smallDisk calls ∧
      StructurallySafe smallVolume (calls.foldl smallVolume.step smallDisk) := by
  intro calls
  have hcalls : Guarded smallVolume.step smallVolume.Careful smallDisk calls := by
    obtain ⟨hnew, hagain, hdelete⟩ := smallCalls_targets
    have hup : smallVolume.target (smallCalls.foldl smallVolume.step smallDisk)
        (pathADot ++ [dot]) = some ⟨[dot, dot], true, 0, 0, attrDirectory⟩ := by decide +kernel
    refine ⟨trivial, fun entry h => ?_, fun entry h => ?_, fun entry h hdots => ?_,
      fun entry h _ => ?_, trivial⟩
    · cases hnew.symm.trans h
    · cases hagain.symm.trans h
      rfl
    · cases hdelete.symm.trans h
      rcases hdots with hdots | hdots <;> cases hdots
    · cases hup.symm.trans h
      rfl
  exact ⟨hcalls, chains_intact (by decide) (by decide) format_blankDisk (by decide) calls hcalls⟩

/-- Deleting `A/.` gives back the cluster of `A`, which stays in the root. -/
theorem dot_deletion_unsafe :
    let calls : List Call := [.createDir pathA, .deleteEntry pathADot]
    (∀ k, k < 2 → ∀ call, calls[k]? = some call →
      (smallVolume.perform ((calls.take k).foldl smallVolume.step smallDisk) call).1 = .ok ()) ∧
      ¬ StructurallySafe smallVolume (calls.foldl smallVolume.step smallDisk) := by
  intro calls
  refine ⟨by decide +kernel, fun h => ?_⟩
  have hlisted : smallVolume.listDirectoryCluster (calls.foldl smallVolume.step smallDisk) 2 =
      .ok [⟨[0x41], true, 3, 0, attrDirectory⟩] := by decide +kernel
  have hfree : smallVolume.readFatEntry (calls.foldl smallVolume.step smallDisk) 3 = fatFree := by
    decide +kernel
  have hreach : Reachable smallVolume (calls.foldl smallVolume.step smallDisk) [0]
      ⟨[0x41], true, 3, 0, attrDirectory⟩ :=
    .entry .root rfl hlisted rfl (by decide) (by decide)
  obtain ⟨chain, hchain, _, hallocated⟩ := h.chain hreach
  obtain ⟨mark, _, hfollows⟩ := hchain.follows
  exact hallocated 3 (hfollows.start_mem hchain.nonempty) hfree

end AuraOS.Fat32
