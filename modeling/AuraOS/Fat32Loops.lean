import AuraOS.Fat32Safety

namespace AuraOS.Fat32

open LinkedChains

variable {goesOn : Nat → Bool} {cluster : Nat}

/-- The largest number that `read_sector_drive` and `write_sector_drive` take. -/
def maxLba : Nat := 0x0FFFFFFF

/-- A call of the driver.  An error ends it, with the disk as it is by then. -/
abbrev DriveM := ExceptT Stop (StateM Disk)

def DriveM.on {α : Type} (m : DriveM α) (disk : Disk) : Except Stop α × Disk :=
  m.run.run disk

def checkLba (lba : Nat) : DriveM Unit :=
  if maxLba < lba then throw (.error (.io .invalidLba)) else pure ()

def readSectorDrive (lba : Nat) : DriveM Sector := do
  checkLba lba
  let disk ← get
  pure (disk lba)

def writeSectorDrive (region : Region) (lba : Nat) (buf : Sector) : DriveM Unit := do
  checkLba lba
  modify (·.writeSector region lba buf)

def Fat32Fs.fatSector (fs : Fat32Fs) (cluster : Nat) : Nat :=
  add32 fs.fatStartLba (mul32 cluster 4 / sectorSize)

def Fat32Fs.readFatEntryDrive (fs : Fat32Fs) (cluster : Nat) : DriveM Nat := do
  let buf ← readSectorDrive (fs.fatSector cluster)
  pure (buf.u32At (mul32 cluster 4 % sectorSize) % 2 ^ 28)

def Fat32Fs.writeFatEntryDrive (fs : Fat32Fs) (cluster value : Nat) : DriveM Unit :=
  (List.range fs.numFats).forM fun fatIdx => do
    let fatOffset := mul32 cluster 4
    let byteOffset := fatOffset % sectorSize
    let fatLba :=
      add32 (add32 fs.fatStartLba (mul32 fatIdx fs.sectorsPerFat)) (fatOffset / sectorSize)
    let buf ← readSectorDrive fatLba
    writeSectorDrive .table fatLba
      (buf.copyAt byteOffset (fatEntryBytes value (buf (byteOffset + 3))))

/-- The loop of `allocate_cluster` over the clusters. -/
def Fat32Fs.allocateFrom (fs : Fat32Fs) (prevCluster : Option Nat) : List Nat → DriveM Nat
  | [] => throw (.error (.ofMessage "FAT32: No free clusters available (disk full)"))
  | c :: rest => do
    let entry ← fs.readFatEntryDrive c
    if entry = fatFree then
      fs.writeFatEntryDrive c fatEoc
      prevCluster.forM fun prev => fs.writeFatEntryDrive prev c
      (fs.clusterSectors c).forM fun lba => writeSectorDrive .data lba zeroSector
      pure c
    else fs.allocateFrom prevCluster rest

def listSectorsDrive : List Nat → DriveM (List FatDirEntry × Bool)
  | [] => pure ([], false)
  | lba :: rest => do
    let buf ← readSectorDrive lba
    match listSlots buf.slots with
    | (entries, true) => pure (entries, true)
    | (entries, false) =>
      let (more, ended) ← listSectorsDrive rest
      pure (entries ++ more, ended)

def findInSectorsDrive (nameUpper : List UInt8) :
    List Nat → DriveM (Option (Option (FatDirEntry × Nat × Nat)))
  | [] => pure none
  | lba :: rest => do
    let buf ← readSectorDrive lba
    match findInSlots nameUpper buf.slots.zipIdx with
    | some none => pure (some none)
    | some (some (entry, i)) => pure (some (some (entry, lba, i)))
    | none => findInSectorsDrive nameUpper rest

def insertInSectorsDrive (bytes : List UInt8) : List Nat → DriveM Bool
  | [] => pure false
  | lba :: rest => do
    let buf ← readSectorDrive lba
    match buf.freeSlot with
    | some i =>
      writeSectorDrive .data lba (buf.copyAt (32 * i) bytes)
      pure true
    | none => insertInSectorsDrive bytes rest

def Fat32Fs.listDirectoryLoop (fs : Fat32Fs) : Nat → Nat → DriveM (List FatDirEntry)
  | 0, _ => throw .endless
  | fuel + 1, cluster =>
    if isCluster cluster then do
      let (entries, ended) ← listSectorsDrive (fs.clusterSectors cluster)
      if ended then pure entries
      else
        let next ← fs.readFatEntryDrive cluster
        let more ← fs.listDirectoryLoop fuel next
        pure (entries ++ more)
    else pure []

def Fat32Fs.findEntryLoop (fs : Fat32Fs) (nameUpper : List UInt8) :
    Nat → Nat → DriveM (Option (FatDirEntry × Nat × Nat))
  | 0, _ => throw .endless
  | fuel + 1, cluster =>
    if isCluster cluster then do
      match ← findInSectorsDrive nameUpper (fs.clusterSectors cluster) with
      | some found => pure found
      | none =>
        let next ← fs.readFatEntryDrive cluster
        fs.findEntryLoop nameUpper fuel next
    else pure none

def Fat32Fs.insertDirEntryLoop (fs : Fat32Fs) (bytes : List UInt8) : Nat → Nat → DriveM Unit
  | 0, _ => throw .endless
  | fuel + 1, cluster =>
    if isCluster cluster then do
      let inserted ← insertInSectorsDrive bytes (fs.clusterSectors cluster)
      if inserted then pure ()
      else
        let next ← fs.readFatEntryDrive cluster
        if fatBad ≤ next then
          let newC ← fs.allocateFrom (some cluster) (List.range' 3 (fs.totalClusters - 3))
          writeSectorDrive .data (fs.clusterToLba newC) (zeroSector.copyAt 0 bytes)
        else fs.insertDirEntryLoop bytes fuel next
    else throw (.error (.ofMessage "FAT32: Directory slot allocation failure"))

/-- No sector that a round reads is out of the reach of the drive. -/
def Fat32Fs.isAddressable (fs : Fat32Fs) (cluster : Nat) : Bool :=
  ((fs.clusterSectors cluster).all fun lba => lba ≤ maxLba) && fs.fatSector cluster ≤ maxLba

/-- One round of a loop that leaves a cluster as `goesOn` says. -/
def Fat32Fs.loopStep (fs : Fat32Fs) (disk : Disk) (goesOn : Nat → Bool) (cluster : Nat) :
    Option Nat :=
  if isCluster cluster && fs.isAddressable cluster && goesOn cluster then
    some (fs.readFatEntry disk cluster)
  else none

def Fat32Fs.listsOn (fs : Fat32Fs) (disk : Disk) (cluster : Nat) : Bool :=
  !(listSectors disk (fs.clusterSectors cluster)).2

def Fat32Fs.findsOn (fs : Fat32Fs) (disk : Disk) (nameUpper : List UInt8) (cluster : Nat) : Bool :=
  (findInSectors nameUpper disk (fs.clusterSectors cluster)).isNone

def Fat32Fs.insertsOn (fs : Fat32Fs) (disk : Disk) (cluster : Nat) : Bool :=
  ((fs.clusterSectors cluster).all fun lba => (disk lba).freeSlot.isNone) &&
    fs.readFatEntry disk cluster < fatBad

section Drive

variable {α β : Type} {m : DriveM α} {f : α → DriveM β} {disk disk' : Disk} {a : α} {stop : Stop}
  {lba : Nat}

theorem on_bind_ok (h : m.on disk = (.ok a, disk')) : (m >>= f).on disk = (f a).on disk' := by
  simp only [DriveM.on, ExceptT.run_bind, StateT.run_bind] at h ⊢
  rw [h]
  rfl

theorem on_bind_error (h : m.on disk = (.error stop, disk')) :
    (m >>= f).on disk = (.error stop, disk') := by
  simp only [DriveM.on, ExceptT.run_bind, StateT.run_bind] at h ⊢
  rw [h]
  rfl

theorem readSectorDrive_ok (h : lba ≤ maxLba) :
    (readSectorDrive lba).on disk = (.ok (disk lba), disk) := by
  rw [readSectorDrive, checkLba, if_neg (Nat.not_lt.mpr h)]
  rfl

theorem readSectorDrive_error (h : maxLba < lba) :
    (readSectorDrive lba).on disk = (.error (.error (.io .invalidLba)), disk) := by
  rw [readSectorDrive, checkLba, if_pos h]
  rfl

theorem writeSectorDrive_ok {region : Region} {buf : Sector} (h : lba ≤ maxLba) :
    (writeSectorDrive region lba buf).on disk = (.ok (), disk.writeSector region lba buf) := by
  rw [writeSectorDrive, checkLba, if_neg (Nat.not_lt.mpr h)]
  rfl

def Finishes (m : DriveM α) : Prop :=
  ∀ disk, (m.on disk).1 ≠ .error .endless

theorem finishes_pure (a : α) : Finishes (pure a) := by
  rintro disk ⟨⟩

theorem finishes_throw (e : Fat32Error) : Finishes (throw (.error e) : DriveM α) := by
  rintro disk ⟨⟩

theorem Finishes.bind (h : Finishes m) (hf : ∀ a, Finishes (f a)) : Finishes (m >>= f) := by
  intro disk
  have hfirst := h disk
  obtain ⟨result, disk', hrun⟩ : ∃ result disk', m.on disk = (result, disk') := ⟨_, _, rfl⟩
  cases result with
  | ok a =>
    rw [on_bind_ok hrun]
    exact hf a disk'
  | error stop =>
    rw [on_bind_error hrun]
    rintro ⟨⟩
    exact hfirst (congrArg Prod.fst hrun)

theorem finishes_checkLba (lba : Nat) : Finishes (checkLba lba) := by
  rw [checkLba]
  split
  · exact finishes_throw _
  · exact finishes_pure ()

theorem finishes_readSectorDrive (lba : Nat) : Finishes (readSectorDrive lba) :=
  (finishes_checkLba lba).bind fun _ => by rintro disk ⟨⟩

theorem finishes_writeSectorDrive (region : Region) (lba : Nat) (buf : Sector) :
    Finishes (writeSectorDrive region lba buf) :=
  (finishes_checkLba lba).bind fun _ => by rintro disk ⟨⟩

theorem finishes_forM {ι : Type} {g : ι → DriveM Unit} (h : ∀ i, Finishes (g i)) (l : List ι) :
    Finishes (l.forM g) := by
  induction l with
  | nil => exact finishes_pure ()
  | cons i rest ih => exact (h i).bind fun _ => ih

variable (fs : Fat32Fs)

theorem finishes_readFatEntryDrive (cluster : Nat) : Finishes (fs.readFatEntryDrive cluster) :=
  (finishes_readSectorDrive _).bind fun _ => finishes_pure _

theorem finishes_writeFatEntryDrive (cluster value : Nat) :
    Finishes (fs.writeFatEntryDrive cluster value) :=
  finishes_forM (fun _ => (finishes_readSectorDrive _).bind fun _ =>
    finishes_writeSectorDrive _ _ _) _

theorem finishes_allocateFrom (prevCluster : Option Nat) (clusters : List Nat) :
    Finishes (fs.allocateFrom prevCluster clusters) := by
  induction clusters with
  | nil => exact finishes_throw _
  | cons c rest ih =>
    refine (finishes_readFatEntryDrive fs c).bind fun entry => ?_
    split
    · refine (finishes_writeFatEntryDrive fs c fatEoc).bind fun _ => Finishes.bind ?_ fun _ => ?_
      · cases prevCluster with
        | none => exact finishes_pure ()
        | some prev => exact finishes_writeFatEntryDrive fs prev c
      · exact (finishes_forM (fun _ => finishes_writeSectorDrive _ _ _) _).bind fun _ =>
          finishes_pure c
    · exact ih

end Drive

section Sectors

variable {disk : Disk}

theorem listSectorsDrive_cases (disk : Disk) (lbas : List Nat) :
    (lbas.all fun lba => lba ≤ maxLba) = true ∧
        (listSectorsDrive lbas).on disk = (.ok (listSectors disk lbas), disk) ∨
      (lbas.all fun lba => lba ≤ maxLba) = false ∧
        ((∃ entries, (listSectorsDrive lbas).on disk = (.ok (entries, true), disk)) ∨
          (listSectorsDrive lbas).on disk = (.error (.error (.io .invalidLba)), disk)) := by
  induction lbas with
  | nil => exact .inl ⟨rfl, rfl⟩
  | cons lba rest ih =>
    rw [listSectorsDrive, List.all_cons]
    rcases Nat.lt_or_ge maxLba lba with hlba | hlba
    · rw [decide_eq_false (Nat.not_le.mpr hlba), on_bind_error (readSectorDrive_error hlba)]
      exact .inr ⟨rfl, .inr rfl⟩
    · rw [decide_eq_true hlba, Bool.true_and, on_bind_ok (readSectorDrive_ok hlba), listSectors]
      obtain ⟨entries, ended, hslots⟩ :
          ∃ entries ended, listSlots (disk lba).slots = (entries, ended) := ⟨_, _, rfl⟩
      rw [hslots]
      cases ended with
      | true =>
        cases hall : rest.all fun lba => lba ≤ maxLba with
        | true => exact .inl ⟨rfl, rfl⟩
        | false => exact .inr ⟨rfl, .inl ⟨entries, rfl⟩⟩
      | false =>
        rcases ih with ⟨hall, hrest⟩ | ⟨hall, ⟨more, hrest⟩ | hrest⟩
        · exact .inl ⟨hall, on_bind_ok hrest⟩
        · exact .inr ⟨hall, .inl ⟨entries ++ more, on_bind_ok hrest⟩⟩
        · exact .inr ⟨hall, .inr (on_bind_error hrest)⟩

theorem findInSectorsDrive_cases (disk : Disk) (nameUpper : List UInt8) (lbas : List Nat) :
    (lbas.all fun lba => lba ≤ maxLba) = true ∧
        (findInSectorsDrive nameUpper lbas).on disk =
          (.ok (findInSectors nameUpper disk lbas), disk) ∨
      (lbas.all fun lba => lba ≤ maxLba) = false ∧
        ((∃ found, (findInSectorsDrive nameUpper lbas).on disk = (.ok (some found), disk)) ∨
          (findInSectorsDrive nameUpper lbas).on disk =
            (.error (.error (.io .invalidLba)), disk)) := by
  induction lbas with
  | nil => exact .inl ⟨rfl, rfl⟩
  | cons lba rest ih =>
    rw [findInSectorsDrive, List.all_cons]
    rcases Nat.lt_or_ge maxLba lba with hlba | hlba
    · rw [decide_eq_false (Nat.not_le.mpr hlba), on_bind_error (readSectorDrive_error hlba)]
      exact .inr ⟨rfl, .inr rfl⟩
    · rw [decide_eq_true hlba, Bool.true_and, on_bind_ok (readSectorDrive_ok hlba), findInSectors]
      rcases findInSlots nameUpper (disk lba).slots.zipIdx with _ | _ | ⟨entry, i⟩
      · exact ih
      all_goals
        cases hall : rest.all fun lba => lba ≤ maxLba with
        | true => exact .inl ⟨rfl, rfl⟩
        | false => exact .inr ⟨rfl, .inl ⟨_, rfl⟩⟩

def isFull (disk : Disk) (lbas : List Nat) : Bool :=
  (lbas.all fun lba => lba ≤ maxLba) && lbas.all fun lba => (disk lba).freeSlot.isNone

theorem insertInSectorsDrive_cases (disk : Disk) (bytes : List UInt8) (lbas : List Nat) :
    isFull disk lbas = true ∧ (insertInSectorsDrive bytes lbas).on disk = (.ok false, disk) ∨
      isFull disk lbas = false ∧
        ((∃ disk', (insertInSectorsDrive bytes lbas).on disk = (.ok true, disk')) ∨
          (insertInSectorsDrive bytes lbas).on disk =
            (.error (.error (.io .invalidLba)), disk)) := by
  induction lbas with
  | nil => exact .inl ⟨rfl, rfl⟩
  | cons lba rest ih =>
    rw [insertInSectorsDrive, isFull, List.all_cons, List.all_cons]
    rcases Nat.lt_or_ge maxLba lba with hlba | hlba
    · rw [decide_eq_false (Nat.not_le.mpr hlba), on_bind_error (readSectorDrive_error hlba)]
      exact .inr ⟨rfl, .inr rfl⟩
    · rw [decide_eq_true hlba, Bool.true_and, on_bind_ok (readSectorDrive_ok hlba)]
      cases (disk lba).freeSlot with
      | some i => exact .inr ⟨Bool.and_false _, .inl ⟨_, on_bind_ok (writeSectorDrive_ok hlba)⟩⟩
      | none => exact ih

theorem readFatEntryDrive_cases (fs : Fat32Fs) (disk : Disk) (cluster : Nat) :
    fs.fatSector cluster ≤ maxLba ∧
        (fs.readFatEntryDrive cluster).on disk = (.ok (fs.readFatEntry disk cluster), disk) ∨
      ¬ fs.fatSector cluster ≤ maxLba ∧
        (fs.readFatEntryDrive cluster).on disk = (.error (.error (.io .invalidLba)), disk) := by
  rcases Nat.lt_or_ge maxLba (fs.fatSector cluster) with hlba | hlba
  · exact .inr ⟨Nat.not_le.mpr hlba, on_bind_error (readSectorDrive_error hlba)⟩
  · exact .inl ⟨hlba, on_bind_ok (readSectorDrive_ok hlba)⟩

end Sectors

section Loops

variable {fs : Fat32Fs} {disk : Disk}

theorem loopStep_of_not
    (h : isCluster cluster = false ∨ fs.isAddressable cluster = false ∨ goesOn cluster = false) :
    fs.loopStep disk goesOn cluster = none := by
  rw [Fat32Fs.loopStep, if_neg]
  rcases h with h | h | h <;> simp [h]

theorem loopStep_of_goesOn (h : isCluster cluster = true) (haddr : fs.isAddressable cluster = true)
    (hgoes : goesOn cluster = true) :
    fs.loopStep disk goesOn cluster = some (fs.readFatEntry disk cluster) := by
  rw [Fat32Fs.loopStep, if_pos (by simp [h, haddr, hgoes])]

/-- A call that ends where the loop stops. -/
theorem endless_iff_of_stops {α : Type} {result : Except Stop α × Disk} {fuel : Nat}
    (hends : result.1 ≠ .error .endless)
    (h : isCluster cluster = false ∨ fs.isAddressable cluster = false ∨ goesOn cluster = false) :
    result.1 = .error .endless ↔
      ((fs.loopStep disk goesOn cluster).bind (walk (fs.loopStep disk goesOn) fuel)).isSome =
        true := by
  rw [loopStep_of_not h]
  exact iff_of_false hends (by rintro ⟨⟩)

theorem endless_readFatEntryDrive {α : Type} {f : Nat → DriveM α} {fuel : Nat}
    (hcluster : isCluster cluster = true)
    (hsectors : ((fs.clusterSectors cluster).all fun lba => lba ≤ maxLba) = true)
    (hgoes : goesOn cluster = true)
    (hrest : ∀ next, ((f next).on disk).1 = .error .endless ↔
      (walk (fs.loopStep disk goesOn) fuel next).isSome = true) :
    ((fs.readFatEntryDrive cluster >>= f).on disk).1 = .error .endless ↔
      ((fs.loopStep disk goesOn cluster).bind (walk (fs.loopStep disk goesOn) fuel)).isSome =
        true := by
  rcases readFatEntryDrive_cases fs disk cluster with ⟨hlba, hread⟩ | ⟨hlba, hread⟩
  · have haddr : fs.isAddressable cluster = true := by
      rw [Fat32Fs.isAddressable, hsectors, decide_eq_true hlba, Bool.and_self]
    rw [on_bind_ok hread, loopStep_of_goesOn hcluster haddr hgoes]
    exact hrest _
  · have haddr : fs.isAddressable cluster = false := by
      rw [Fat32Fs.isAddressable, decide_eq_false hlba, Bool.and_false]
    rw [on_bind_error hread]
    exact endless_iff_of_stops (by rintro ⟨⟩) (.inr (.inl haddr))

theorem listDirectoryLoop_endless_iff (fuel cluster : Nat) :
    ((fs.listDirectoryLoop fuel cluster).on disk).1 = .error .endless ↔
      (walk (fs.loopStep disk (fs.listsOn disk)) fuel cluster).isSome = true := by
  induction fuel generalizing cluster with
  | zero => exact ⟨fun _ => rfl, fun _ => rfl⟩
  | succ fuel ih =>
    rw [Fat32Fs.listDirectoryLoop, walk]
    cases hcluster : isCluster cluster with
    | false => exact endless_iff_of_stops (by rintro ⟨⟩) (.inl hcluster)
    | true =>
      rw [if_pos rfl]
      rcases listSectorsDrive_cases disk (fs.clusterSectors cluster) with
        ⟨hsectors, hlist⟩ | ⟨hsectors, hlist⟩
      · rw [on_bind_ok hlist]
        obtain ⟨entries, ended, hends⟩ :
            ∃ entries ended, listSectors disk (fs.clusterSectors cluster) = (entries, ended) :=
          ⟨_, _, rfl⟩
        have hgoes : fs.listsOn disk cluster = !ended := by rw [Fat32Fs.listsOn, hends]
        rw [hends]
        cases ended with
        | true => exact endless_iff_of_stops (by rintro ⟨⟩) (.inr (.inr hgoes))
        | false =>
          refine endless_readFatEntryDrive hcluster hsectors hgoes fun next => ?_
          rw [← ih]
          obtain ⟨result, disk', hmore⟩ :
              ∃ result disk', (fs.listDirectoryLoop fuel next).on disk = (result, disk') :=
            ⟨_, _, rfl⟩
          cases result with
          | ok more =>
            rw [on_bind_ok hmore, hmore]
            exact ⟨by rintro ⟨⟩, by rintro ⟨⟩⟩
          | error stop => rw [on_bind_error hmore, hmore]
      · have haddr : fs.isAddressable cluster = false := by
          rw [Fat32Fs.isAddressable, hsectors, Bool.false_and]
        refine endless_iff_of_stops ?_ (.inr (.inl haddr))
        rcases hlist with ⟨entries, hlist⟩ | hlist
        · rw [on_bind_ok hlist]
          rintro ⟨⟩
        · rw [on_bind_error hlist]
          rintro ⟨⟩

theorem findEntryLoop_endless_iff (nameUpper : List UInt8) (fuel cluster : Nat) :
    ((fs.findEntryLoop nameUpper fuel cluster).on disk).1 = .error .endless ↔
      (walk (fs.loopStep disk (fs.findsOn disk nameUpper)) fuel cluster).isSome = true := by
  induction fuel generalizing cluster with
  | zero => exact ⟨fun _ => rfl, fun _ => rfl⟩
  | succ fuel ih =>
    rw [Fat32Fs.findEntryLoop, walk]
    cases hcluster : isCluster cluster with
    | false => exact endless_iff_of_stops (by rintro ⟨⟩) (.inl hcluster)
    | true =>
      rw [if_pos rfl]
      rcases findInSectorsDrive_cases disk nameUpper (fs.clusterSectors cluster) with
        ⟨hsectors, hsearch⟩ | ⟨hsectors, hsearch⟩
      · rw [on_bind_ok hsearch]
        cases hfind : findInSectors nameUpper disk (fs.clusterSectors cluster) with
        | some found =>
          exact endless_iff_of_stops (by rintro ⟨⟩)
            (.inr (.inr (by rw [Fat32Fs.findsOn, hfind]; rfl)))
        | none =>
          exact endless_readFatEntryDrive hcluster hsectors (by rw [Fat32Fs.findsOn, hfind]; rfl) ih
      · have haddr : fs.isAddressable cluster = false := by
          rw [Fat32Fs.isAddressable, hsectors, Bool.false_and]
        refine endless_iff_of_stops ?_ (.inr (.inl haddr))
        rcases hsearch with ⟨found, hsearch⟩ | hsearch
        · rw [on_bind_ok hsearch]
          rintro ⟨⟩
        · rw [on_bind_error hsearch]
          rintro ⟨⟩

theorem insertDirEntryLoop_endless_iff (bytes : List UInt8) (fuel cluster : Nat) :
    ((fs.insertDirEntryLoop bytes fuel cluster).on disk).1 = .error .endless ↔
      (walk (fs.loopStep disk (fs.insertsOn disk)) fuel cluster).isSome = true := by
  induction fuel generalizing cluster with
  | zero => exact ⟨fun _ => rfl, fun _ => rfl⟩
  | succ fuel ih =>
    rw [Fat32Fs.insertDirEntryLoop, walk]
    cases hcluster : isCluster cluster with
    | false => exact endless_iff_of_stops (by rintro ⟨⟩) (.inl hcluster)
    | true =>
      rw [if_pos rfl]
      rcases insertInSectorsDrive_cases disk bytes (fs.clusterSectors cluster) with
        ⟨hfull, hinsert⟩ | ⟨hfull, hinsert⟩
      · obtain ⟨hsectors, hslots⟩ := Bool.and_eq_true_iff.mp hfull
        rw [on_bind_ok hinsert, if_neg Bool.false_ne_true]
        have hgoes : fs.insertsOn disk cluster =
            decide (fs.readFatEntry disk cluster < fatBad) := by
          rw [Fat32Fs.insertsOn, hslots, Bool.true_and]
        rcases readFatEntryDrive_cases fs disk cluster with ⟨hlba, hread⟩ | ⟨hlba, hread⟩
        · have haddr : fs.isAddressable cluster = true := by
            rw [Fat32Fs.isAddressable, hsectors, decide_eq_true hlba, Bool.and_self]
          rw [on_bind_ok hread]
          split
          · -- The directory grows, or the disk is full.
            rename_i hlast
            rw [decide_eq_false (Nat.not_lt.mpr hlast)] at hgoes
            have hends := (finishes_allocateFrom fs (some cluster)
              (List.range' 3 (fs.totalClusters - 3))).bind fun newC =>
              finishes_writeSectorDrive .data (fs.clusterToLba newC) (zeroSector.copyAt 0 bytes)
            exact endless_iff_of_stops (hends disk) (.inr (.inr hgoes))
          · rename_i hnext
            rw [decide_eq_true (Nat.lt_of_not_le hnext)] at hgoes
            rw [loopStep_of_goesOn hcluster haddr hgoes]
            exact ih _
        · have haddr : fs.isAddressable cluster = false := by
            rw [Fat32Fs.isAddressable, decide_eq_false hlba, Bool.and_false]
          rw [on_bind_error hread]
          exact endless_iff_of_stops (by rintro ⟨⟩) (.inr (.inl haddr))
      · refine endless_iff_of_stops ?_ (.inr ?_)
        · rcases hinsert with ⟨disk', hinsert⟩ | hinsert
          · rw [on_bind_ok hinsert]
            rintro ⟨⟩
          · rw [on_bind_error hinsert]
            rintro ⟨⟩
        · rcases Bool.and_eq_false_iff.mp hfull with hsectors | hslots
          · exact .inl (by rw [Fat32Fs.isAddressable, hsectors, Bool.false_and])
          · exact .inr (by rw [Fat32Fs.insertsOn, hslots, Bool.false_and])

theorem exists_fuel_iff {α : Type} {result : Nat → α} {stop : α} (h : ∀ fuel, result fuel = stop ↔
      (walk (fs.loopStep disk goesOn) fuel cluster).isSome = true) :
    (∃ fuel, result fuel ≠ stop) ↔ ¬ ComesBack (fs.loopStep disk goesOn) cluster := by
  constructor
  · rintro ⟨fuel, hends⟩ hback
    exact hends ((h fuel).mpr (walk_isSome_of_comesBack hback fuel))
  · intro hback
    refine ⟨chainFuel, fun hendless => hback ?_⟩
    have hbound (x : Nat) (hx : (fs.loopStep disk goesOn x).isSome = true) : x < fatBad := by
      cases hcluster : isCluster x with
      | false =>
        rw [loopStep_of_not (.inl hcluster)] at hx
        cases hx
      | true =>
        rw [isCluster, Bool.and_eq_true, decide_eq_true_eq, decide_eq_true_eq] at hcluster
        exact hcluster.2
    exact comesBack_of_walk hbound (by decide) ((h chainFuel).mp hendless)

end Loops

section Agreement

variable {fs : Fat32Fs} {disk : Disk}

def Fat32Fs.ChainReadable (fs : Fat32Fs) (disk : Disk) (cluster : Nat) : Prop :=
  ∀ k, isCluster ((fs.readFatEntry disk)^[k] cluster) = true →
    fs.isAddressable ((fs.readFatEntry disk)^[k] cluster) = true

theorem Fat32Fs.ChainReadable.next (h : fs.ChainReadable disk cluster) :
    fs.ChainReadable disk (fs.readFatEntry disk cluster) :=
  fun k => h (k + 1)

theorem Fat32Fs.ChainReadable.reads (h : fs.ChainReadable disk cluster)
    (hcluster : isCluster cluster = true) :
    ((fs.clusterSectors cluster).all fun lba => lba ≤ maxLba) = true ∧
      (fs.readFatEntryDrive cluster).on disk = (.ok (fs.readFatEntry disk cluster), disk) := by
  obtain ⟨hsectors, hfat⟩ := Bool.and_eq_true_iff.mp (h 0 hcluster)
  exact ⟨hsectors, on_bind_ok (readSectorDrive_ok (of_decide_eq_true hfat))⟩

theorem listDirectoryLoop_of_readable (fuel : Nat) (h : fs.ChainReadable disk cluster) :
    (fs.listDirectoryLoop fuel cluster).on disk = (fs.listFrom disk fuel cluster, disk) := by
  induction fuel generalizing cluster with
  | zero => rfl
  | succ fuel ih =>
    rw [Fat32Fs.listDirectoryLoop, Fat32Fs.listFrom]
    split
    · rename_i hcluster
      obtain ⟨hsectors, hread⟩ := h.reads hcluster
      rcases listSectorsDrive_cases disk (fs.clusterSectors cluster) with
        ⟨-, hlist⟩ | ⟨hnot, -⟩
      · rw [on_bind_ok hlist]
        rcases listSectors disk (fs.clusterSectors cluster) with ⟨entries, _ | _⟩
        · simp only [Bool.false_eq_true, if_false]
          rw [on_bind_ok hread]
          have hmore := ih h.next
          cases hresult : fs.listFrom disk fuel (fs.readFatEntry disk cluster) with
          | ok more =>
            rw [hresult] at hmore
            exact on_bind_ok hmore
          | error stop =>
            rw [hresult] at hmore
            exact on_bind_error hmore
        · rfl
      · rw [hsectors] at hnot
        cases hnot
    · rfl

theorem findEntryLoop_of_readable (nameUpper : List UInt8) (fuel : Nat)
    (h : fs.ChainReadable disk cluster) :
    (fs.findEntryLoop nameUpper fuel cluster).on disk =
      (fs.findFrom disk nameUpper fuel cluster, disk) := by
  induction fuel generalizing cluster with
  | zero => rfl
  | succ fuel ih =>
    rw [Fat32Fs.findEntryLoop, Fat32Fs.findFrom]
    split
    · rename_i hcluster
      obtain ⟨hsectors, hread⟩ := h.reads hcluster
      rcases findInSectorsDrive_cases disk nameUpper (fs.clusterSectors cluster) with
        ⟨-, hfind⟩ | ⟨hnot, -⟩
      · rw [on_bind_ok hfind]
        cases findInSectors nameUpper disk (fs.clusterSectors cluster) with
        | some found => rfl
        | none => exact (on_bind_ok hread).trans (ih h.next)
      · rw [hsectors] at hnot
        cases hnot
    · rfl

end Agreement

/-- The loops over the clusters of a directory end if and only if they do not come back to a
cluster. -/
theorem directory_loops_end_iff (fs : Fat32Fs) (disk : Disk) (start : Nat)
    (nameUpper bytes : List UInt8) :
    ((∃ fuel, ((fs.listDirectoryLoop fuel start).on disk).1 ≠ .error .endless) ↔
      ¬ ComesBack (fs.loopStep disk (fs.listsOn disk)) start) ∧
    ((∃ fuel, ((fs.findEntryLoop nameUpper fuel start).on disk).1 ≠ .error .endless) ↔
      ¬ ComesBack (fs.loopStep disk (fs.findsOn disk nameUpper)) start) ∧
    ((∃ fuel, ((fs.insertDirEntryLoop bytes fuel start).on disk).1 ≠ .error .endless) ↔
      ¬ ComesBack (fs.loopStep disk (fs.insertsOn disk)) start) :=
  ⟨exists_fuel_iff fun fuel => listDirectoryLoop_endless_iff fuel start,
    exists_fuel_iff fun fuel => findEntryLoop_endless_iff nameUpper fuel start,
    exists_fuel_iff fun fuel => insertDirEntryLoop_endless_iff bytes fuel start⟩

/-- On a disk full of the letter `A` every table entry leads to one cluster, and every slot is
an entry with another name than `B`. -/
theorem directory_loops_endless :
    let disk : Disk := ⟨fun _ _ => 0x41, []⟩
    ∀ fuel, ((smallVolume.listDirectoryLoop fuel rootCluster).on disk).1 = .error .endless ∧
      ((smallVolume.findEntryLoop [0x42] fuel rootCluster).on disk).1 = .error .endless ∧
      ((smallVolume.insertDirEntryLoop [] fuel rootCluster).on disk).1 = .error .endless := by
  intro disk fuel
  have hback (goesOn : Nat → Bool)
      (hroot : smallVolume.loopStep disk goesOn rootCluster = some 0x01414141)
      (hloop : smallVolume.loopStep disk goesOn 0x01414141 = some 0x01414141) :
      (walk (smallVolume.loopStep disk goesOn) fuel rootCluster).isSome = true :=
    walk_isSome_of_comesBack ⟨0x01414141, .single hroot, .single hloop⟩ fuel
  refine ⟨(listDirectoryLoop_endless_iff fuel _).mpr (hback _ ?_ ?_),
    (findEntryLoop_endless_iff _ fuel _).mpr (hback _ ?_ ?_),
    (insertDirEntryLoop_endless_iff _ fuel _).mpr (hback _ ?_ ?_)⟩
  all_goals decide +kernel

end AuraOS.Fat32
