import AuraOS.Fat32Changes

namespace AuraOS.Fat32

open LinkedChains

variable {dir k : Nat} {chain rest : List Nat} {p : Nat × Nat} {name bytes : List UInt8}
  {disk₁ : Disk}

section Parts

variable {fs : Fat32Fs} (layout : Layout fs) {disk : Disk} {objs : Objs}
include layout

theorem insertDirEntry_cases (hchain : ∀ x ∈ chain, fs.Valid x)
    (hfollows : Follows (fs.view disk).fat fatEoc dir chain) (hne : chain ≠ []) (name : List UInt8)
    (attr : UInt8) (first size : Nat) :
    (∃ stop, fs.insertDirEntry disk dir (toShortName name) attr first size = (.error stop, disk)) ∨
    ∃ chain' p disk', fs.insertDirEntry disk dir (toShortName name) attr first size =
      (.ok (), disk') ∧ Touches fs disk disk' ∧
      Inserted fs (fs.view disk) chain (entrySlot (toShortName name) attr first size) chain' p
        (fs.view disk') := by
  have hlength := layout.length_lt hchain hfollows
  have hname : (toShortName name).1.length = 8 := length_padTo 8 _
  have hput (view : View) (p : Nat × Nat) :=
    puts_entrySlot view p hname (length_padTo 3 _) attr first size
  rw [Fat32Fs.insertDirEntry, insertFrom_eq layout _ hchain hfollows hlength hne]
  cases hfind : (positions chain).find? fun p => ((fs.view disk).slotAt p).isFree with
  | some p =>
    have hvalid := hchain p.1 (mem_positions.mp (List.mem_of_find?_eq_some hfind)).1
    refine .inr ⟨chain, p, _, rfl, .sector _ .refl hvalid, .free hfind ?_⟩
    rw [Fat32Fs.putEntry, view_writeData layout disk hvalid, data_view disk hvalid]
    exact hput _ p
  | none =>
    have hlast : chain.getLast? = some (chain.getLast hne) := List.getLast?_eq_some_getLast hne
    have hprev (prev : Nat) (h : some (chain.getLast hne) = some prev) : fs.Valid prev := by
      cases h
      exact hchain _ (List.getLast_mem hne)
    rcases allocateCluster_cases layout disk hprev with
      ⟨stop, halloc, _⟩ | ⟨c, disk₁, halloc, hnew, htouches⟩
    · rw [halloc]
      exact .inl ⟨stop, rfl⟩
    · rw [halloc]
      have hvalid := valid_of_range hnew.range
      refine .inr ⟨chain ++ [c], (c, 0), _, rfl, .sector _ htouches hvalid,
        .grown hfind (hlast ▸ hnew) ?_⟩
      rw [view_writeData layout disk₁ hvalid]
      have hzero : (fs.view disk₁).data c = zeroSector := by
        rw [hnew.eq, View.setData_data, Function.update_self]
      have := hput (fs.view disk₁) (c, 0)
      rw [hzero] at this
      exact this

omit layout in
theorem insertDirEntry_zero (fs : Fat32Fs) (disk : Disk) (name : List UInt8 × List UInt8)
    (attr : UInt8) (first size : Nat) :
    ∃ stop, fs.insertDirEntry disk 0 name attr first size = (.error stop, disk) := by
  exact ⟨_, rfl⟩

/-- The end of `delete_entry` and of `write_file` for a file that exists: the old chain is given
back and the slot of the entry is written. -/
theorem releaseEntry_spec {slot : Slot} (write : Sector → Sector) (hp : fs.Valid p.1)
    (hchain : ∀ x ∈ chain, fs.Valid x) (hfollows : Follows (fs.view disk).fat fatEoc k chain)
    (hwrite : ∀ view : View, view.slotAt p = (fs.view disk).slotAt p →
      Puts view p slot (view.setData p.1 (write (view.data p.1)))) :
    let disk₁ := fs.freeClusterChain disk k
    let disk' := disk₁.writeSector .data (fs.clusterToLba p.1) (write (disk₁ (fs.clusterToLba p.1)))
    Puts ((fs.view disk).clear chain) p slot (fs.view disk') ∧ Touches fs disk disk' := by
  obtain ⟨hview, htouches⟩ := freeClusterChain_spec layout hchain hfollows
  refine ⟨?_, .sector _ htouches hp⟩
  rw [view_writeData layout _ hp, data_view _ hp, hview]
  exact hwrite _ rfl

end Parts

section Calls

variable {fs : Fat32Fs} (layout : Layout fs) {disk : Disk} {objs : Objs}
  (sound : Sound fs (fs.view disk) objs)

structure Performed (fs : Fat32Fs) (disk : Disk) (objs : Objs)
    (outcome : Except Stop Unit × Disk) (effect : Effect) (objs' : Objs) : Prop where
  change : Change fs (fs.view disk) objs effect (fs.view outcome.2) objs'
  touches : Touches fs disk outcome.2
  failed : ∀ stop, outcome.1 = .error stop → effect = .failed

theorem Performed.unchanged (stop : Stop) :
    Performed fs disk objs (.error stop, disk) .failed objs :=
  ⟨.failed (.nil fs _), .refl, fun _ _ => rfl⟩

def Fat32Fs.parentOf (fs : Fat32Fs) (disk : Disk) (path : List UInt8) : Except Stop Nat :=
  fs.resolveParent disk (splitLast (trimMatches slash path)).1

def lastPart (path : List UInt8) : List UInt8 := (splitLast (trimMatches slash path)).2

include layout sound

omit layout in
theorem refers_of_found (hp : InDir objs dir p) (hlive : ((fs.view disk).slotAt p).isLive = true)
    (hdots : ¬ ((fs.view disk).slotAt p).isDots) :
    ∃ o, Refers (fs.view disk) objs dir p ((fs.view disk).slotAt p).firstCluster ∧
      objs ((fs.view disk).slotAt p).firstCluster = some o ∧
      o.isDir = ((fs.view disk).slotAt p).isDir := by
  have href : Refers (fs.view disk) objs dir p ((fs.view disk).slotAt p).firstCluster :=
    ⟨hp, hlive, hdots, rfl⟩
  obtain ⟨_, o, ho, hkind, _⟩ := sound.child href
  exact ⟨o, href, ho, hkind⟩

omit layout in
theorem valid_of_inDir (hp : InDir objs dir p) : fs.Valid p.1 := by
  obtain ⟨o, ho, _, hmem⟩ := hp
  exact sound.valid ho p.1 (mem_positions.mp hmem).1

theorem deleteEntry_performed (path : List UInt8)
    (hguard : ∀ entry, fs.target disk path = some entry →
      entry.name = [dot] ∨ entry.name = [dot, dot] → entry.firstCluster = 0) :
    ∃ effect objs', Performed fs disk objs (fs.deleteEntry disk path) effect objs' ∧
      ((fs.deleteEntry disk path).1 = .ok () →
        (∃ entry, fs.target disk path = some entry ∧
          (entry.name = [dot] ∨ entry.name = [dot, dot])) ∨
        ∃ dir old, fs.parentOf disk path = .ok dir ∧ effect = .erased dir (lastPart path) old) := by
  simp only [Fat32Fs.target] at hguard ⊢
  simp only [Fat32Fs.deleteEntry, Fat32Fs.parentOf, lastPart]
  generalize splitLast (trimMatches slash path) = parts at hguard ⊢
  obtain ⟨parentDir, filename⟩ := parts
  cases hparent : fs.resolveParent disk parentDir with
  | error stop => exact ⟨.failed, objs, .unchanged stop, by rintro ⟨⟩⟩
  | ok dir =>
    simp only [hparent] at hguard ⊢
    have hdir := resolveParent_dirAt layout sound hparent
    rcases findEntryInDir_cases layout sound hdir filename with
      hnone | ⟨p, hattached, hp, hname, hfind⟩
    · rw [hnone]
      exact ⟨.failed, objs, .unchanged _, by rintro ⟨⟩⟩
    · simp only [hfind] at hguard ⊢
      have hlive := isLive_of_hasName hname
      have hvalid := valid_of_inDir sound hp
      by_cases hdots : ((fs.view disk).slotAt p).isDots
      · have hzero : ((fs.view disk).slotAt p).entry.firstCluster = 0 := hguard _ rfl hdots
        rw [hzero, freeClusterChain_zero]
        refine ⟨.dotsErased, objs, ⟨.dotsErased hp ?_, .sector _ .refl hvalid, by rintro _ ⟨⟩⟩,
          fun _ => .inl ⟨_, rfl, hdots⟩⟩
        rw [view_writeData layout disk hvalid, data_view disk hvalid]
        exact puts_deleted _ p
      · obtain ⟨o, href, ho, _⟩ := refers_of_found sound hp hlive hdots
        have hwrite (view : View) (hsame : view.slotAt p = (fs.view disk).slotAt p) :
            Puts view p ((fs.view disk).slotAt p).deleted
              (view.setData p.1 ((view.data p.1).copyAt (32 * p.2) [0xE5])) := by
          rw [← hsame]
          exact puts_deleted view p
        obtain ⟨hput, htouches⟩ := releaseEntry_spec layout (·.copyAt (32 * p.2) [0xE5]) hvalid
          (sound.valid ho) (sound.follows ho) hwrite
        exact ⟨_, _, ⟨.erased hattached href hname ho hput, htouches, by rintro _ ⟨⟩⟩,
          fun _ => .inr ⟨dir, _, rfl, rfl⟩⟩

/-- The end of `create_dir` and of `write_file` for a new name: an entry for the new chain. -/
theorem insert_performed {isDir : Bool} (hdir : DirAt (fs.view disk) objs dir)
    (hnone : fs.findEntryInDir disk dir name = .ok none)
    (fresh : FreshChain fs (fs.view disk) (k :: rest) (fs.view disk₁))
    (holds : (fs.view disk₁).Holds (k :: rest) isDir dir bytes) (htouches : Touches fs disk disk₁) :
    let outcome := fs.insertDirEntry disk₁ dir (toShortName name) (attrOf isDir) k
      (bytes.length % 2 ^ 32)
    ∃ effect objs', Performed fs disk objs outcome effect objs' ∧
      (outcome.1 = .ok () → effect = .created dir name k isDir bytes) := by
  have hfailed (stop : Stop) : Performed fs disk objs (.error stop, disk₁) .failed objs :=
    ⟨.failed fresh, htouches, fun _ _ => rfl⟩
  rcases hdir with rfl | ⟨hattached, o, ho, hkind⟩
  · obtain ⟨stop, hinsert⟩ := insertDirEntry_zero fs disk₁ (toShortName name) (attrOf isDir) k
      (bytes.length % 2 ^ 32)
    simp only [hinsert]
    exact ⟨.failed, objs, hfailed stop, nofun⟩
  · have habsent : ((fs.view disk).visible o.chain).find? (fun p =>
        ((fs.view disk).slotAt p).hasName (toAsciiUppercase name)) = none := by
      rw [findEntryInDir_eq layout name (sound.valid ho) (sound.follows ho)] at hnone
      exact Option.map_eq_none_iff.mp (Except.ok.inj hnone)
    have hne : o.chain ≠ [] := List.ne_nil_of_mem (sound.first ho)
    rcases insertDirEntry_cases layout (sound.valid ho) ((sound.fresh fresh).follows ho) hne name
      (attrOf isDir) k (bytes.length % 2 ^ 32) with
      ⟨stop, hinsert⟩ | ⟨chain', p, disk', hinsert, hmore, hins⟩
    · simp only [hinsert]
      exact ⟨.failed, objs, hfailed stop, nofun⟩
    · simp only [hinsert]
      exact ⟨_, _, ⟨.created hattached ho hkind habsent fresh holds hins, htouches.trans hmore,
        nofun⟩, fun _ => rfl⟩

omit layout sound in
theorem FreshChain.setData {view view₁ : View} (h : FreshChain fs view chain view₁) {x : Nat}
    (hx : x ∈ chain) (buf : Sector) : FreshChain fs view chain (view₁.setData x buf) := by
  refine ⟨h.range, h.free, h.follows, h.fat, fun y hy => ?_⟩
  have hne : y ≠ x := fun heq => hy (heq ▸ hx)
  rw [View.setData_data, Function.update_of_ne hne]
  exact h.data y hy

omit sound in
theorem newChain_cases (data : List UInt8) :
    (∃ stop chain disk₁, fs.allocateChain (fs.clustersNeeded data.length) 0 none disk =
      (.error stop, disk₁) ∧ FreshChain fs (fs.view disk) chain (fs.view disk₁) ∧
      Touches fs disk disk₁) ∨
    ∃ k rest disk₁, fs.allocateChain (fs.clustersNeeded data.length) 0 none disk =
      (.ok k, disk₁) ∧
      FreshChain fs (fs.view disk) (k :: rest)
        (fs.view (fs.writeDataFrom data.length k data disk₁)) ∧
      (fs.view (fs.writeDataFrom data.length k data disk₁)).Stores (k :: rest) data ∧
      Touches fs disk (fs.writeDataFrom data.length k data disk₁) := by
  have hneeded : 1 ≤ fs.clustersNeeded data.length ∧
      data.length ≤ sectorSize * fs.clustersNeeded data.length := by
    simp only [Fat32Fs.clustersNeeded, layout.sectorsPerCluster, sectorSize]
    omega
  rcases allocateChain_cases layout (fs.clustersNeeded data.length) (.nil fs (fs.view disk)) with
    ⟨stop, chain, disk₁, halloc, htouches, hfresh, _⟩ |
    ⟨chain, disk₁, halloc, htouches, hfresh, hlength⟩
  · exact .inl ⟨stop, chain, disk₁, halloc, hfresh, htouches⟩
  · simp only [List.nil_append] at halloc hfresh
    cases chain with
    | nil =>
      grind
    | cons k rest =>
      have hfollows : Follows (fs.view disk₁).fat fatEoc k (k :: rest) := hfresh.follows
      obtain ⟨hwritten, hmore⟩ := writeDataFrom_spec layout (Nat.le_refl data.length)
        hfresh.valid hfollows
      refine .inr ⟨k, rest, disk₁, halloc, ⟨hfresh.range, hfresh.free, ?_, ?_, ?_⟩, ?_,
        htouches.trans hmore⟩
      · rw [hwritten.fat]
        exact hfresh.follows
      · intro x hx
        rw [hwritten.fat]
        exact hfresh.fat x hx
      · intro x hx
        exact (hwritten.data x hx).trans (hfresh.data x hx)
      · exact hwritten.stores (by rw [hlength]; exact hneeded.2)

omit layout in
theorem not_dots_of_file (hp : InDir objs dir p) (hlive : ((fs.view disk).slotAt p).isLive = true)
    (hfile : ((fs.view disk).slotAt p).isDir = false) : ¬ ((fs.view disk).slotAt p).isDots := by
  obtain ⟨o, ho, hkind, hmem⟩ := hp
  have hdots := sound.dots ho hkind hmem hlive
  rintro (hself | hup)
  · rw [(hdots.self hself).2.1] at hfile
    cases hfile
  · rw [(hdots.up hup).2.1] at hfile
    cases hfile

theorem overwrite_performed (hattached : Attached (fs.view disk) objs dir) (hp : InDir objs dir p)
    (hname : ((fs.view disk).slotAt p).hasName (toAsciiUppercase name) = true)
    (hfile : ((fs.view disk).slotAt p).isDir = false)
    (fresh : FreshChain fs (fs.view disk) (k :: rest) (fs.view disk₁))
    (stores : (fs.view disk₁).Stores (k :: rest) bytes) (htouches : Touches fs disk disk₁) :
    let outcome := fs.storeEntry disk₁ dir name
      (some (((fs.view disk).slotAt p).entry, fs.clusterToLba p.1, p.2)) k (bytes.length % 2 ^ 32)
    ∃ effect objs' old, Performed fs disk objs outcome effect objs' ∧
      effect = .replaced dir name old k bytes := by
  have hlive := isLive_of_hasName hname
  obtain ⟨o, href, ho, hkind⟩ :=
    refers_of_found sound hp hlive (not_dots_of_file sound hp hlive hfile)
  have hsame : (fs.view disk₁).slotAt p = (fs.view disk).slotAt p := by
    rw [View.slotAt, View.slotAt, (fresh.frame sound (owned_of_inDir hp)).2]
  have hwrite (view : View) (h : view.slotAt p = (fs.view disk₁).slotAt p) :
      Puts view p (((fs.view disk).slotAt p).updated k (bytes.length % 2 ^ 32))
        (view.setData p.1 (updateEntry (view.data p.1) p.2 k (bytes.length % 2 ^ 32))) := by
    rw [← hsame, ← h]
    exact puts_updated view p k _
  obtain ⟨hput, hmore⟩ := releaseEntry_spec layout
    (updateEntry · p.2 k (bytes.length % 2 ^ 32)) (valid_of_inDir sound hp) (sound.valid ho)
    ((sound.fresh fresh).follows ho) hwrite
  exact ⟨_, _, _, ⟨.replaced hattached href hname ho (hkind.trans hfile) fresh stores hput,
    htouches.trans hmore, by rintro _ ⟨⟩⟩, rfl⟩

theorem writeFile_performed (path data : List UInt8)
    (hguard : ∀ entry, fs.target disk path = some entry → entry.isDirectory = false) :
    ∃ effect objs', Performed fs disk objs (fs.writeFile disk path data) effect objs' ∧
      ((fs.writeFile disk path data).1 = .ok () → lastPart path ≠ [] ∧
        ∃ dir k, fs.parentOf disk path = .ok dir ∧
          (effect = .created dir (lastPart path) k false data ∨
            ∃ old, effect = .replaced dir (lastPart path) old k data)) := by
  simp only [Fat32Fs.target] at hguard
  simp only [Fat32Fs.writeFile, Fat32Fs.parentOf, lastPart]
  generalize splitLast (trimMatches slash path) = parts at hguard ⊢
  obtain ⟨parentDir, filename⟩ := parts
  by_cases hempty : filename = []
  · simp only [if_pos hempty]
    exact ⟨.failed, objs, .unchanged _, by rintro ⟨⟩⟩
  · simp only [if_neg hempty]
    cases hparent : fs.resolveParent disk parentDir with
    | error stop => exact ⟨.failed, objs, .unchanged stop, by rintro ⟨⟩⟩
    | ok dir =>
      simp only [hparent] at hguard ⊢
      have hdir := resolveParent_dirAt layout sound hparent
      rcases findEntryInDir_cases layout sound hdir filename with
        hnone | ⟨p, hattached, hp, hname, hfind⟩
      · rw [hnone]
        rcases newChain_cases layout data with
          ⟨stop, chain, disk₁, halloc, hfresh, htouches⟩ |
          ⟨k, rest, disk₁, halloc, hfresh, hstores, htouches⟩
        · rw [halloc]
          exact ⟨.failed, objs, ⟨.failed hfresh, htouches, fun _ _ => rfl⟩, by rintro ⟨⟩⟩
        · rw [halloc]
          have holds : (fs.view (fs.writeDataFrom data.length k data disk₁)).Holds (k :: rest)
            false dir data := hstores
          obtain ⟨effect, objs', hperformed, hok⟩ := insert_performed layout sound hdir hnone
            hfresh holds htouches
          exact ⟨effect, objs', hperformed, fun h => ⟨hempty, dir, k, rfl, .inl (hok h)⟩⟩
      · simp only [hfind] at hguard ⊢
        have hfile : ((fs.view disk).slotAt p).isDir = false := hguard _ rfl
        rcases newChain_cases layout data with
          ⟨stop, chain, disk₁, halloc, hfresh, htouches⟩ |
          ⟨k, rest, disk₁, halloc, hfresh, hstores, htouches⟩
        · rw [halloc]
          exact ⟨.failed, objs, ⟨.failed hfresh, htouches, fun _ _ => rfl⟩, by rintro ⟨⟩⟩
        · rw [halloc]
          obtain ⟨effect, objs', old, hperformed, heffect⟩ := overwrite_performed layout sound
            hattached hp hname hfile hfresh hstores htouches
          exact ⟨effect, objs', hperformed, fun _ => ⟨hempty, dir, k, rfl, .inr ⟨old, heffect⟩⟩⟩

omit sound in
theorem newDirectory_spec {c : Nat} (dir : Nat)
    (hnew : Allocated fs (fs.view disk) none c (fs.view disk₁)) :
    let disk₂ := disk₁.writeSector .data (fs.clusterToLba c)
      (dirSector c (if dir = rootCluster then 0 else dir))
    FreshChain fs (fs.view disk) [c] (fs.view disk₂) ∧ (fs.view disk₂).Holds [c] true dir [] ∧
      Touches fs disk₁ disk₂ := by
  have hvalid := valid_of_range hnew.range
  have hfresh : FreshChain fs (fs.view disk) [c] (fs.view disk₁) :=
    (FreshChain.nil fs (fs.view disk)).concat layout hnew
  simp only
  rw [view_writeData layout disk₁ hvalid]
  refine ⟨hfresh.setData List.mem_cons_self _, ?_, .sector _ .refl hvalid⟩
  simp only [View.Holds, if_true]
  refine ⟨trivial, c, rfl, ?_⟩
  rw [View.setData_data, Function.update_self]

theorem createDir_performed (path : List UInt8) :
    ∃ effect objs', Performed fs disk objs (fs.perform disk (.createDir path)) effect objs' ∧
      ((fs.perform disk (.createDir path)).1 = .ok () → lastPart path ≠ [] ∧
        ∃ dir k, fs.parentOf disk path = .ok dir ∧
          effect = .created dir (lastPart path) k true []) := by
  simp only [Fat32Fs.perform, Fat32Fs.createDir, Fat32Fs.parentOf, lastPart]
  generalize splitLast (trimMatches slash path) = parts
  obtain ⟨parentDir, dirname⟩ := parts
  by_cases hempty : dirname = []
  · simp only [if_pos hempty]
    exact ⟨.failed, objs, .unchanged _, by rintro ⟨⟩⟩
  · simp only [if_neg hempty]
    cases hparent : fs.resolveParent disk parentDir with
    | error stop => exact ⟨.failed, objs, .unchanged stop, by rintro ⟨⟩⟩
    | ok dir =>
      simp only
      have hdir := resolveParent_dirAt layout sound hparent
      rcases findEntryInDir_cases layout sound hdir dirname with hnone | ⟨p, _, _, _, hfind⟩
      · rw [hnone]
        have hprev (prev : Nat) (h : none = some prev) : fs.Valid prev := by cases h
        rcases allocateCluster_cases layout disk hprev with
          ⟨stop, halloc, _⟩ | ⟨c, disk₁, halloc, hnew, htouches⟩
        · rw [halloc]
          exact ⟨.failed, objs, .unchanged stop, by rintro ⟨⟩⟩
        · rw [halloc]
          simp only
          have hroot : fs.rootCluster = rootCluster := layout.rootCluster
          rw [hroot]
          obtain ⟨hfresh, holds, hmore⟩ := newDirectory_spec layout dir hnew
          obtain ⟨effect, objs', hperformed, hok⟩ := insert_performed layout sound hdir hnone
            hfresh holds (htouches.trans hmore)
          refine ⟨effect, objs', ?_⟩
          have hsize : ([] : List UInt8).length % 2 ^ 32 = 0 := rfl
          rw [hsize, attrOf, if_pos rfl] at hperformed hok
          generalize fs.insertDirEntry _ _ _ _ _ _ = outcome at hperformed hok ⊢
          obtain ⟨_ | _, disk'⟩ := outcome
          · exact ⟨hperformed, by rintro ⟨⟩⟩
          · exact ⟨hperformed, fun _ => ⟨hempty, dir, c, rfl, hok rfl⟩⟩
      · rw [hfind]
        exact ⟨.failed, objs, .unchanged _, by rintro ⟨⟩⟩

def Fat32Fs.Careful (fs : Fat32Fs) (disk : Disk) : Call → Prop
  | .writeFile path _ => ∀ entry, fs.target disk path = some entry → entry.isDirectory = false
  | .createDir _ => True
  | .deleteEntry path => ∀ entry, fs.target disk path = some entry →
      entry.name = [dot] ∨ entry.name = [dot, dot] → entry.firstCluster = 0

theorem perform_performed (call : Call) (hcall : fs.Careful disk call) :
    ∃ effect objs', Performed fs disk objs (fs.perform disk call) effect objs' := by
  cases call with
  | writeFile path data =>
    obtain ⟨effect, objs', hperformed, _⟩ := writeFile_performed layout sound path data hcall
    exact ⟨effect, objs', hperformed⟩
  | createDir path =>
    obtain ⟨effect, objs', hperformed, _⟩ := createDir_performed layout sound path
    exact ⟨effect, objs', hperformed⟩
  | deleteEntry path =>
    obtain ⟨effect, objs', hperformed, _⟩ := deleteEntry_performed layout sound path hcall
    exact ⟨effect, objs', hperformed⟩

end Calls

end AuraOS.Fat32
