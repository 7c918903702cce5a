import AuraOS.SpaceOperations

namespace AuraOS.UserSpace

open PathTrees PhysicalFrames PageTables VirtualAreas

variable {root virt : Nat} {kern : KernelTables} {tree : TableTree}

section Pages

variable {s : PageState}

theorem allocateAndMapPage_spec {s : PageState} (h : OwnsPages s kern root tree)
    (hpriv : 0 < s.pmm.freeCount → kern.Private virt) (writable : Bool) :
    let r := s.allocateAndMapPage root virt writable
    (s.pmm.freeCount = 0 ∧ r.1 = none ∧ r.2 = s) ∨ ∃ phys ok tree' tables,
      MapAttempt s r.2 kern root tree virt phys ok tree' tables ∧
        r.1 = if ok then some phys else none := by
  simp only [PageState.allocateAndMapPage]
  cases halloc : s.pmm.allocFrame with
  | none => exact .inl ⟨freeCount_eq_zero halloc, rfl, rfl⟩
  | some r =>
    obtain ⟨phys, pmm⟩ := r
    have hpos : 0 < s.pmm.freeCount := by
      have hcount := (allocFrame_spec halloc).count
      omega
    obtain ⟨tree', tables, hmap⟩ :=
      mapUserPage_spec h (hpriv hpos) halloc (writeByte_of_ne s.mem phys 0 0) writable
    right
    simp only at hmap ⊢
    generalize PageState.mapUserPage ⟨s.mem.writeByte phys 0 0, pmm,
      s.allocatedFrames ++ [phys]⟩ root virt phys writable = result at hmap ⊢
    obtain ⟨ok, after⟩ := result
    refine ⟨phys, ok, tree', tables, ?_⟩
    cases ok with
    | false => exact ⟨hmap, rfl⟩
    | true => exact ⟨hmap, rfl⟩

theorem allocateAndMapPage_run (gaps : Prop) {s : PageState} (h : OwnsPages s kern root tree)
    (hpriv : 0 < s.pmm.freeCount → kern.Private virt) (writable : Bool) :
    ∃ tree', PageRun kern root gaps (s, tree)
      ((s.allocateAndMapPage root virt writable).2, tree') := by
  rcases allocateAndMapPage_spec h hpriv writable with
    ⟨-, -, hsame⟩ | ⟨phys, ok, tree', tables, hmap, -⟩
  · refine ⟨tree, ?_⟩
    rw [hsame]
  · exact ⟨tree', .single (.attempt hmap)⟩

end Pages

structure PageImage where
  page : Nat
  offset : Nat
  bytes : List (BitVec 8)

def PageState.fill (s : PageState) (frame : Nat) (image : PageImage) : PageState :=
  { s with mem := s.mem.copyBytes frame image.offset image.bytes }

def layPages (root : Nat) : List PageImage → PageState → Bool × PageState
  | [], s => (true, s)
  | image :: rest, s =>
    match s.allocateAndMapPage root image.page true with
    | (none, s) => (false, s)
    | (some frame, s) => layPages root rest (s.fill frame image)

theorem layPages_cons {image : PageImage} {rest : List PageImage} {s s' : PageState}
    (h : layPages root (image :: rest) s = (true, s')) :
    ∃ frame s₁, s.allocateAndMapPage root image.page true = (some frame, s₁) ∧
      layPages root rest (s₁.fill frame image) = (true, s') := by
  rw [layPages] at h
  split at h
  · cases h
  · rename_i frame s₁ hmap
    exact ⟨frame, s₁, hmap, h⟩

/-- The frames that mapping the pages in turn takes, after those in `earlier`. -/
def framesFor (mem : Mem) (root : Nat) : List Nat → List Nat → Nat
  | _, [] => 0
  | earlier, virt :: rest =>
    framesNeeded mem root virt earlier + framesFor mem root (virt :: earlier) rest

section Runs

variable {mem₀ : Mem} {root₀ free : Nat} {tree₀ : TableTree} {earlier : List Nat}
  {images : List PageImage} {s : PageState}

theorem mapsPages_of_private {pages : List Nat}
    (h : ∀ virt ∈ pages, kern.Private virt) :
    MapsPages kern True mem₀ root₀ earlier free pages := by
  induction pages generalizing earlier free with
  | nil => trivial
  | cons virt rest ih =>
    intro _
    refine ⟨h virt (.head _), .inl trivial, fun _ => ?_⟩
    exact ih fun v hv => h v (.tail _ hv)

theorem layPages_run (gaps : Prop) (hshape : Shape mem₀ kern root₀ tree₀)
    (h : OwnsPages s kern root tree) (hadvanced : Advanced tree₀ earlier tree)
    (hguard : MapsPages kern True mem₀ root₀ earlier s.pmm.freeCount (images.map PageImage.page)) :
    (∃ tree', PageRun kern root gaps (s, tree) ((layPages root images s).2, tree')) ∧
      ((layPages root images s).1 = true ↔
        framesFor mem₀ root₀ earlier (images.map PageImage.page) ≤ s.pmm.freeCount) := by
  induction images generalizing earlier s tree with
  | nil => exact ⟨⟨tree, .refl⟩, by simp [layPages, framesFor]⟩
  | cons image rest ih =>
    have hspec := allocateAndMapPage_spec h (fun hpos => (hguard hpos).1) true
    simp only [layPages, List.map_cons, framesFor]
    generalize s.allocateAndMapPage root image.page true = result at hspec ⊢
    obtain ⟨found, s₁⟩ := result
    simp only at hspec
    rcases hspec with ⟨hfull, rfl, rfl⟩ | ⟨phys, ok, tree₁, tables, hmap, rfl⟩
    · refine ⟨⟨tree, .refl⟩, ?_⟩
      simp [framesNeeded, hfull]
    · have hpos : 0 < s.pmm.freeCount := by
        have hcount := hmap.grown.count
        grind
      obtain ⟨hpriv, -, hrest⟩ := hguard hpos
      cases ok with
      | false =>
        have hshort := not_framesNeeded_le hshape hadvanced hpriv hmap
        exact ⟨⟨tree₁, .single (.attempt hmap)⟩, by grind⟩
      | true =>
        have hcount := freeCount_of_mapped hshape hadvanced hpriv hmap
        have hnext := MapsPages.next hshape hadvanced hpriv hmap hrest
        have hrun : PageRun kern root gaps (s, tree) (s₁.fill phys image, tree₁) :=
          .tail (.single (.attempt hmap)) (.store (hmap.mapped rfl).1 rfl
            fun t ht i => copyBytes_of_ne ht _ _ s₁.mem i)
        obtain ⟨⟨tree', hlaid⟩, hiff⟩ := ih (s := s₁.fill phys image) (hrun.confined h).owns
          (hadvanced.step hmap) hnext
        refine ⟨⟨tree', hrun.trans hlaid⟩, hiff.trans ?_⟩
        simp only [PageState.fill]
        omega

theorem layPages_append (rest : List PageImage) :
    layPages root (images ++ rest) s =
      match layPages root images s with
      | (false, s) => (false, s)
      | (true, s) => layPages root rest s := by
  induction images generalizing s with
  | nil => rfl
  | cons image images ih =>
    simp only [List.cons_append, layPages]
    generalize s.allocateAndMapPage root image.page true = result
    obtain ⟨_ | frame, s₁⟩ := result
    · rfl
    · exact ih

end Runs

section Stacks

variable {image : PageImage} {top pages i : Nat}

def stackImages (top : Nat) : Nat → Nat → List PageImage
  | 0, _ => []
  | pages + 1, i => ⟨sub64 top (i * pageSize % 2 ^ 64), 0, []⟩ :: stackImages top pages (i + 1)

theorem mapStack_eq (root top pages i : Nat) (s : PageState) :
    PageState.mapStack root top pages i s = layPages root (stackImages top pages i) s := by
  induction pages generalizing i s with
  | zero => rfl
  | succ pages ih =>
    simp only [PageState.mapStack, stackImages, layPages, ih]
    rfl

theorem mem_stackImages (h : image ∈ stackImages top pages i) :
    ∃ j, i ≤ j ∧ j < i + pages ∧ image = ⟨sub64 top (j * pageSize % 2 ^ 64), 0, []⟩ := by
  induction pages generalizing i with
  | zero => cases h
  | succ pages ih =>
    rcases List.mem_cons.mp h with rfl | h
    · exact ⟨i, Nat.le_refl i, by omega, rfl⟩
    · obtain ⟨j, hlo, hhi, himage⟩ := ih h
      exact ⟨j, by omega, by omega, himage⟩

theorem addVma_pages (s : SpaceState) (area : VmArea) : (s.addVma area).2.pages = s.pages := by
  simp only [SpaceState.addVma]
  repeat' split
  all_goals rfl

theorem addVma_sameSpace (s : SpaceState) (area : VmArea) :
    SameSpace s.space (s.addVma area).2.space := by
  simp only [SpaceState.addVma]
  repeat' split
  all_goals exact ⟨rfl, rfl, rfl⟩

theorem addGuardPage_spec (s : SpaceState) (guardAddr size : Nat) :
    ∃ s₁, (s.addGuardPage guardAddr size).2 = s₁ ∧ s₁.pages = s.pages ∧
      SameSpace s.space s₁.space := by
  exact ⟨_, rfl, addVma_pages s _, addVma_sameSpace s _⟩

variable {s : SpaceState} (top numPages : Nat)

theorem allocateUserStack_pages : (s.allocateUserStack top numPages).2.pages =
    (layPages s.space.pml4 (stackImages top numPages 1) s.pages).2 := by
  simp only [SpaceState.allocateUserStack, mapStack_eq]
  generalize sub64 (sub64 top (numPages * pageSize % 2 ^ 64)) pageSize = guardAddr
  obtain ⟨s₁, hs₁, hpages, hsame⟩ := addGuardPage_spec s guardAddr pageSize
  rw [hs₁, hpages, hsame.pml4]
  generalize layPages s.space.pml4 (stackImages top numPages 1) s.pages = result
  obtain ⟨_ | _, after⟩ := result
  · rfl
  · exact addVma_pages _ _

theorem allocateUserStack_run (gaps : Prop) (h : OwnsPages s.pages kern s.space.pml4 tree)
    (hpriv : ∀ j, 1 ≤ j → j < 1 + numPages → kern.Private (sub64 top (j * pageSize % 2 ^ 64))) :
    ∃ tree', PageRun kern s.space.pml4 gaps (s.pages, tree)
      ((s.allocateUserStack top numPages).2.pages, tree') := by
  rw [allocateUserStack_pages]
  refine (layPages_run gaps h.shape h (Advanced.refl tree) (mapsPages_of_private ?_)).1
  intro virt hvirt
  obtain ⟨image, himage, rfl⟩ := List.mem_map.mp hvirt
  obtain ⟨j, hlo, hhi, rfl⟩ := mem_stackImages himage
  exact hpriv j hlo hhi

theorem allocateUserStack_sameSpace :
    SameSpace s.space (s.allocateUserStack top numPages).2.space := by
  simp only [SpaceState.allocateUserStack]
  generalize sub64 (sub64 top (numPages * pageSize % 2 ^ 64)) pageSize = guardAddr
  obtain ⟨s₁, hs₁, -, hguard⟩ := addGuardPage_spec s guardAddr pageSize
  rw [hs₁]
  split
  · exact ⟨hguard.pml4, hguard.heapStart, hguard.heapEnd⟩
  · rename_i pages _
    have hset : SameSpace s.space (s₁.setPages pages).space :=
      ⟨hguard.pml4, hguard.heapStart, hguard.heapEnd⟩
    generalize List.foldl _ _ _ = area
    exact hset.trans (addVma_sameSpace (s₁.setPages pages) area)

end Stacks

section Code

variable {base : Nat} {s : PageState} (code : List (BitVec 8)) (pages offset : Nat)

/-- The pages of `allocate_user_code` with the code that is copied to them. -/
def codeImages (base : Nat) (code : List (BitVec 8)) : Nat → Nat → List PageImage
  | 0, _ => []
  | pages + 1, offset => ⟨add64 base offset, 0, (code.drop offset).take pageSize⟩ ::
      codeImages base code pages (offset + pageSize)

theorem mapCode_eq : PageState.mapCode root base code pages offset s =
    layPages root (codeImages base code pages offset) s := by
  induction pages generalizing offset s with
  | zero => rfl
  | succ pages ih =>
    simp only [PageState.mapCode, codeImages, layPages, ih]
    rfl

theorem map_page_codeImages :
    (codeImages base code pages offset).map PageImage.page = pagesFrom base offset pages := by
  induction pages generalizing offset with
  | zero => rfl
  | succ pages ih => rw [codeImages, List.map_cons, ih, pagesFrom]

theorem mapCode_run (gaps : Prop) (h : OwnsPages s kern root tree)
    (hpriv : ∀ virt ∈ pagesFrom base offset pages, kern.Private virt) :
    ∃ tree', PageRun kern root gaps (s, tree)
      ((PageState.mapCode root base code pages offset s).2, tree') := by
  rw [mapCode_eq]
  rw [← map_page_codeImages code] at hpriv
  exact (layPages_run gaps h.shape h (Advanced.refl tree) (mapsPages_of_private hpriv)).1

end Code

end AuraOS.UserSpace
