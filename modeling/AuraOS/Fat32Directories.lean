import AuraOS.Fat32Table

namespace AuraOS.Fat32

open LinkedChains

variable {p : Nat × Nat} {α : Type} {view : View} {x : Nat} {rest : List Nat}

def clusterPositions (cluster : Nat) : List (Nat × Nat) :=
  (List.range slotsPerSector).map fun i => (cluster, i)

def positions (chain : List Nat) : List (Nat × Nat) := chain.flatMap clusterPositions

def View.slotAt (view : View) (position : Nat × Nat) : Slot :=
  (view.data position.1).slot position.2

def Slot.isEnd (slot : Slot) : Bool := slot 0 == 0x00

/-- A slot that `insert_dir_entry` may use. -/
def Slot.isFree (slot : Slot) : Bool := slot 0 == 0x00 || slot 0 == 0xE5

def Slot.isLive (slot : Slot) : Bool := !slot.isFree && !slot.isSkipped

def Slot.hasName (nameUpper : List UInt8) (slot : Slot) : Bool :=
  slot.isLive && toAsciiUppercase slot.fullName == nameUpper

def View.visible (view : View) (chain : List Nat) : List (Nat × Nat) :=
  (positions chain).takeWhile fun p => !(view.slotAt p).isEnd

def View.entriesAt (view : View) (chain : List Nat) : List (Nat × Nat) :=
  (view.visible chain).filter fun p => (view.slotAt p).isLive

section Slots

theorem mem_positions {chain : List Nat} :
    p ∈ positions chain ↔ p.1 ∈ chain ∧ p.2 < slotsPerSector := by
  obtain ⟨x, i⟩ := p
  simp [positions, clusterPositions]

theorem slots_eq (view : View) (cluster : Nat) :
    (view.data cluster).slots = (clusterPositions cluster).map view.slotAt := by
  rfl

theorem zipIdx_slots (view : View) (cluster : Nat) :
    (view.data cluster).slots.zipIdx =
      (clusterPositions cluster).map fun p => (view.slotAt p, p.2) := by
  simp only [Sector.slots, clusterPositions, List.map_map, List.zipIdx_map]
  refine List.ext_getElem (by simp) fun i h₁ h₂ => ?_
  simp [View.slotAt]

theorem listSlots_eq (slotAt : α → Slot) (places : List α) :
    listSlots (places.map slotAt) =
      (((places.takeWhile fun p => !(slotAt p).isEnd).filter fun p => (slotAt p).isLive).map
        fun p => (slotAt p).entry,
      places.any fun p => (slotAt p).isEnd) := by
  induction places with
  | nil => rfl
  | cons p rest ih =>
    rw [List.map_cons, listSlots]
    by_cases hend : slotAt p 0 = 0x00
    · simp [hend, Slot.isEnd]
    · rw [if_neg hend, ih]
      by_cases hskip : slotAt p 0 = 0xE5 ∨ (slotAt p).isSkipped = true
      · have hdead : (slotAt p).isLive = false := by
          rcases hskip with h | h <;> simp [Slot.isLive, Slot.isFree, h]
        simp [hend, hskip, Slot.isEnd, hdead]
      · have hlive : (slotAt p).isLive = true := by
          rw [not_or] at hskip
          simp [Slot.isLive, Slot.isFree, hend, hskip]
        simp [hend, hskip, Slot.isEnd, hlive]

theorem findInSlots_eq (nameUpper : List UInt8) (slotAt : α → Slot × Nat) (places : List α) :
    findInSlots nameUpper (places.map slotAt) =
      match (places.takeWhile fun p => !(slotAt p).1.isEnd).find?
          fun p => (slotAt p).1.hasName nameUpper with
      | some p => some (some ((slotAt p).1.entry, (slotAt p).2))
      | none => if places.any fun p => (slotAt p).1.isEnd then some none else none := by
  induction places with
  | nil => rfl
  | cons p rest ih =>
    rw [List.map_cons]
    obtain ⟨slot, i, hslot⟩ : ∃ slot i, slotAt p = (slot, i) := ⟨_, _, rfl⟩
    rw [hslot, findInSlots]
    by_cases hend : slot 0 = 0x00
    · simp [hend, Slot.isEnd, hslot]
    · rw [if_neg hend, ih]
      by_cases hskip : slot 0 = 0xE5 ∨ slot.isSkipped = true
      · have hname : slot.hasName nameUpper = false := by
          rcases hskip with h | h <;> simp [Slot.hasName, Slot.isLive, Slot.isFree, h]
        simp [hend, hskip, Slot.isEnd, hname, hslot]
      · have hname : slot.hasName nameUpper = (toAsciiUppercase slot.fullName == nameUpper) := by
          rw [not_or] at hskip
          simp [Slot.hasName, Slot.isLive, Slot.isFree, hend, hskip]
        by_cases heq : toAsciiUppercase slot.fullName = nameUpper
        · simp [hend, hskip, Slot.isEnd, hname, hslot, heq]
        · simp [hend, hskip, Slot.isEnd, hname, hslot, heq]

end Slots

section Loops

variable {fs : Fat32Fs} (layout : Layout fs) {disk : Disk} {chain : List Nat} {start fuel : Nat}

theorem takeWhile_of_any_eq_false {p : α → Bool} {xs : List α} (h : xs.any p = false) :
    xs.takeWhile (fun x => !p x) = xs := by
  refine List.takeWhile_eq_self_iff.mpr fun x hx => ?_
  have := List.any_eq_false.mp h x hx
  simpa using this

theorem visible_of_end (h : ((clusterPositions x).any fun p => (view.slotAt p).isEnd) = true) :
    view.visible (x :: rest) = (clusterPositions x).takeWhile fun p => !(view.slotAt p).isEnd := by
  rw [View.visible, positions, List.flatMap_cons, List.takeWhile_append, if_neg]
  intro hlength
  have hsame := (List.takeWhile_prefix _).eq_of_length hlength
  obtain ⟨p, hp, hend⟩ := List.any_eq_true.mp h
  have hnot := List.takeWhile_eq_self_iff.mp hsame p hp
  rw [hend] at hnot
  cases hnot

theorem visible_of_not_end (h : ((clusterPositions x).any fun p => (view.slotAt p).isEnd) = false) :
    view.visible (x :: rest) = clusterPositions x ++ view.visible rest := by
  rw [View.visible, positions, List.flatMap_cons, List.takeWhile_append,
    takeWhile_of_any_eq_false h, if_pos rfl]
  rfl

include layout in
theorem listFrom_eq (hchain : ∀ x ∈ chain, fs.Valid x)
    (hfollows : Follows (fs.view disk).fat fatEoc start chain) (hfuel : chain.length < fuel) :
    fs.listFrom disk fuel start =
      .ok (((fs.view disk).entriesAt chain).map fun p => ((fs.view disk).slotAt p).entry) := by
  induction chain generalizing start fuel with
  | nil =>
    obtain rfl : start = fatEoc := hfollows
    cases fuel with
    | zero => exact absurd hfuel (Nat.not_lt_zero _)
    | succ fuel => rfl
  | cons x rest ih =>
    obtain ⟨rfl, hrest⟩ := hfollows
    have hvalid := hchain start (.head _)
    cases fuel with
    | zero => exact absurd hfuel (Nat.not_lt_zero _)
    | succ fuel =>
      have hrec := ih (fun y hy => hchain y (.tail start hy)) hrest (Nat.lt_of_succ_lt_succ hfuel)
      rw [Fat32Fs.listFrom, if_pos (layout.isCluster hvalid), clusterSectors_eq layout hvalid,
        listSectors, data_view disk hvalid, slots_eq, listSlots_eq,
        readFatEntry_view layout disk hvalid, hrec, View.entriesAt, View.entriesAt]
      cases hany : (clusterPositions start).any fun p => ((fs.view disk).slotAt p).isEnd with
      | true => rw [visible_of_end hany]
      | false =>
        rw [visible_of_not_end hany, takeWhile_of_any_eq_false hany]
        simp [listSectors]

include layout in
theorem listDirectoryCluster_eq (hchain : ∀ x ∈ chain, fs.Valid x)
    (hfollows : Follows (fs.view disk).fat fatEoc start chain) :
    fs.listDirectoryCluster disk start =
      .ok (((fs.view disk).entriesAt chain).map fun p => ((fs.view disk).slotAt p).entry) :=
  listFrom_eq layout hchain hfollows (layout.length_lt hchain hfollows)

def Fat32Fs.found (fs : Fat32Fs) (view : View) (p : Nat × Nat) : FatDirEntry × Nat × Nat :=
  ((view.slotAt p).entry, fs.clusterToLba p.1, p.2)

theorem mem_clusterPositions : p ∈ clusterPositions x ↔ p.1 = x ∧ p.2 < slotsPerSector := by
  obtain ⟨y, i⟩ := p
  simp only [clusterPositions, List.mem_map, List.mem_range, Prod.mk.injEq]
  constructor
  · rintro ⟨j, hj, rfl, rfl⟩
    exact ⟨rfl, hj⟩
  · rintro ⟨rfl, hi⟩
    exact ⟨i, hi, rfl, rfl⟩

theorem findInSectors_eq (nameUpper : List UInt8) (hvalid : fs.Valid x) :
    findInSectors nameUpper disk [fs.clusterToLba x] =
      match ((clusterPositions x).takeWhile fun p => !((fs.view disk).slotAt p).isEnd).find?
          fun p => ((fs.view disk).slotAt p).hasName nameUpper with
      | some p => some (some (fs.found (fs.view disk) p))
      | none => if (clusterPositions x).any fun p => ((fs.view disk).slotAt p).isEnd then some none
          else none := by
  rw [findInSectors, data_view disk hvalid, zipIdx_slots, findInSlots_eq]
  cases hfind : ((clusterPositions x).takeWhile fun p => !((fs.view disk).slotAt p).isEnd).find?
      fun p => ((fs.view disk).slotAt p).hasName nameUpper with
  | some p =>
    have hmem := (List.takeWhile_prefix _).subset (List.mem_of_find?_eq_some hfind)
    obtain ⟨rfl, _⟩ := mem_clusterPositions.mp hmem
    rfl
  | none => cases (clusterPositions x).any _ <;> rfl

include layout in
theorem findFrom_eq (nameUpper : List UInt8) (hchain : ∀ x ∈ chain, fs.Valid x)
    (hfollows : Follows (fs.view disk).fat fatEoc start chain) (hfuel : chain.length < fuel) :
    fs.findFrom disk nameUpper fuel start =
      .ok ((((fs.view disk).visible chain).find? fun p =>
        ((fs.view disk).slotAt p).hasName nameUpper).map (fs.found (fs.view disk))) := by
  induction chain generalizing start fuel with
  | nil =>
    obtain rfl : start = fatEoc := hfollows
    cases fuel with
    | zero => exact absurd hfuel (Nat.not_lt_zero _)
    | succ fuel => rfl
  | cons x rest ih =>
    obtain ⟨rfl, hrest⟩ := hfollows
    have hvalid := hchain start (.head _)
    cases fuel with
    | zero => exact absurd hfuel (Nat.not_lt_zero _)
    | succ fuel =>
      have hrec := ih (fun y hy => hchain y (.tail start hy)) hrest (Nat.lt_of_succ_lt_succ hfuel)
      rw [Fat32Fs.findFrom, if_pos (layout.isCluster hvalid), clusterSectors_eq layout hvalid,
        findInSectors_eq nameUpper hvalid, readFatEntry_view layout disk hvalid, hrec]
      cases hany : (clusterPositions start).any fun p => ((fs.view disk).slotAt p).isEnd with
      | true =>
        rw [visible_of_end hany]
        cases ((clusterPositions start).takeWhile _).find? _ <;> rfl
      | false =>
        rw [visible_of_not_end hany, takeWhile_of_any_eq_false hany, List.find?_append]
        cases (clusterPositions start).find? _ <;> rfl

include layout in
theorem findEntryInDir_eq (name : List UInt8) (hchain : ∀ x ∈ chain, fs.Valid x)
    (hfollows : Follows (fs.view disk).fat fatEoc start chain) :
    fs.findEntryInDir disk start name =
      .ok ((((fs.view disk).visible chain).find? fun p =>
        ((fs.view disk).slotAt p).hasName (toAsciiUppercase name)).map (fs.found (fs.view disk))) :=
  findFrom_eq layout (toAsciiUppercase name) hchain hfollows (layout.length_lt hchain hfollows)

theorem findEntryInDir_zero (fs : Fat32Fs) (disk : Disk) (name : List UInt8) :
    fs.findEntryInDir disk 0 name = .ok none := by
  have hfuel : chainFuel = (chainFuel - 1) + 1 := by decide
  rw [Fat32Fs.findEntryInDir, hfuel, Fat32Fs.findFrom, if_neg (by decide)]

theorem freeSlot_eq (view : View) (x : Nat) :
    (view.data x).freeSlot =
      ((clusterPositions x).find? fun p => (view.slotAt p).isFree).map Prod.snd := by
  have hplace : (Prod.snd ∘ fun i => (x, i)) = (id : Nat → Nat) := rfl
  rw [Sector.freeSlot, clusterPositions, List.find?_map, Option.map_map, hplace, Option.map_id]
  rfl

def Fat32Fs.putEntry (fs : Fat32Fs) (disk : Disk) (p : Nat × Nat) (bytes : List UInt8) : Disk :=
  disk.writeSector .data (fs.clusterToLba p.1)
    ((disk (fs.clusterToLba p.1)).copyAt (32 * p.2) bytes)

theorem insertInSectors_eq (bytes : List UInt8) (hvalid : fs.Valid x) :
    insertInSectors bytes [fs.clusterToLba x] disk =
      ((clusterPositions x).find? fun p => ((fs.view disk).slotAt p).isFree).map
        fun p => fs.putEntry disk p bytes := by
  rw [insertInSectors]
  have hslot := freeSlot_eq (fs.view disk) x
  rw [← data_view disk hvalid] at hslot
  rw [hslot]
  cases hfind : (clusterPositions x).find? fun p => ((fs.view disk).slotAt p).isFree with
  | none => rfl
  | some p =>
    obtain ⟨rfl, _⟩ := mem_clusterPositions.mp (List.mem_of_find?_eq_some hfind)
    rfl

include layout in
theorem insertFrom_eq (bytes : List UInt8) (hchain : ∀ x ∈ chain, fs.Valid x)
    (hfollows : Follows (fs.view disk).fat fatEoc start chain) (hfuel : chain.length < fuel)
    (hne : chain ≠ []) :
    fs.insertFrom bytes fuel start disk =
      match (positions chain).find? fun p => ((fs.view disk).slotAt p).isFree with
      | some p => (.ok (), fs.putEntry disk p bytes)
      | none =>
        match fs.allocateCluster disk (some (chain.getLast hne)) with
        | (.error stop, disk) => (.error stop, disk)
        | (.ok newC, disk) =>
          (.ok (), disk.writeSector .data (fs.clusterToLba newC) (zeroSector.copyAt 0 bytes)) := by
  induction chain generalizing start fuel with
  | nil => exact absurd rfl hne
  | cons x rest ih =>
    obtain ⟨rfl, hrest⟩ := hfollows
    have hvalid := hchain start (.head _)
    cases fuel with
    | zero => exact absurd hfuel (Nat.not_lt_zero _)
    | succ fuel =>
      rw [Fat32Fs.insertFrom, if_pos (layout.isCluster hvalid), clusterSectors_eq layout hvalid,
        insertInSectors_eq bytes hvalid, readFatEntry_view layout disk hvalid, positions,
        List.flatMap_cons, List.find?_append]
      cases (clusterPositions start).find? fun p => ((fs.view disk).slotAt p).isFree with
      | some q => rfl
      | none =>
        cases rest with
        | nil =>
          have hlast : (fs.view disk).fat start = fatEoc := hrest
          rw [hlast]
          rfl
        | cons y rest =>
          have hnext : ¬ fatBad ≤ (fs.view disk).fat start := by
            rw [hrest.1, not_le]
            exact layout.lt_fatBad (hchain y (by simp))
          simp only [Option.map_none, if_neg hnext]
          exact ih (fun z hz => hchain z (.tail start hz)) hrest
            (Nat.lt_of_succ_lt_succ hfuel) (List.cons_ne_nil y rest)

end Loops

end AuraOS.Fat32
