import AuraOS.RamFileSystemHistory
import AuraOS.RamFileSystemTree

namespace AuraOS.RamFileSystem

open NamedTrees

variable {v : Vfs} {i p : Nat}

/-- `Vfs.subtree` shows every live inode as its kind says. -/
def TreeShown (v : Vfs) : Prop :=
  ∀ (i : Nat) (node : Inode), v.inodes[i]? = some node →
    match node.kind with
    | .directory children =>
      v.subtree i = .node (children.map fun c => (v.nameOf c, v.subtree c))
    | .file content => v.subtree i = .leaf (.file content)
    | .tombstone => True
    | _ => v.subtree i = .leaf .pseudo

/-- The tree gained one named child, last in the directory `p`. -/
def Appended (v v' : Vfs) (p : Nat) (name : String) (new : NamedTree Leaf) : Prop :=
  ∃ kids, v.tree.find (v.pathOf p) = some (.node kids) ∧ name ∉ kids.map Prod.fst ∧
    v'.tree = v.tree.graft (v.pathOf p) (.node (kids ++ [(name, new)]))

/-- The regular file `name` in the directory `p` got other bytes. -/
def Rewritten (v v' : Vfs) (p : Nat) (name : String) (content : List UInt8) : Prop :=
  ∃ old, v.tree.find (v.pathOf p ++ [name]) = some (.leaf (.file old)) ∧
    v'.tree = v.tree.graft (v.pathOf p ++ [name]) (.leaf (.file content))

/-- The subtree of `t` is gone from its directory, whose other children keep
their order. -/
def TakenOut (v v' : Vfs) (t : Nat) : Prop :=
  ∃ before after,
    v.tree.find (v.pathOf (v.parentOf t)) =
      some (.node (before ++ (v.nameOf t, v.subtree t) :: after)) ∧
    v'.tree = v.tree.graft (v.pathOf (v.parentOf t)) (.node (before ++ after))

/-- Reading an inode that satisfies `among` gives what it gave before. -/
def SameReads (v v' : Vfs) (among : Nat → Prop) : Prop :=
  ∀ env i, among i → v'.readFile env i = v.readFile env i

/-- The refusals and the effects of `mkdir_at`. -/
def MkdirRefines (v : Vfs) (p : Nat) (name : String) : Prop :=
  (∃ e, v.mkdirAt p name = some (.error e, v) ∧
    (Live v p → ∀ kids, v.tree.find (v.pathOf p) = some (.node kids) → name ∈ kids.map Prod.fst)) ∨
  ∃ k v', v.mkdirAt p name = some (.ok k, v') ∧ Live v p ∧ ¬ Live v k ∧
    Appended v v' p name (.node []) ∧ SameReads v v' (Live v)

/-- The refusals and the effects of `create_file_at`. -/
def CreateFileRefines (v : Vfs) (p : Nat) (name : String) (content : List UInt8) : Prop :=
  (∃ e, v.createFileAt p name content = some (.error e, v) ∧
    (Live v p → ∀ kids, v.tree.find (v.pathOf p) = some (.node kids) →
      ∃ sub, (name, sub) ∈ kids ∧ ∀ old, sub ≠ .leaf (.file old))) ∨
  (∃ c v', v.createFileAt p name content = some (.ok c, v') ∧ Live v p ∧ Lists v p c ∧
    Rewritten v v' p name content ∧ SameReads v v' fun i => Live v i ∧ i ≠ c) ∨
  ∃ k v', v.createFileAt p name content = some (.ok k, v') ∧ Live v p ∧ ¬ Live v k ∧
    Appended v v' p name (.leaf (.file content)) ∧ SameReads v v' (Live v)

/-- The refusals and the effects of `remove_entry`.  The directory that listed
the target is the one other inode whose record changes, by that entry. -/
def RemoveRefines (v : Vfs) (t : Nat) : Prop :=
  (∃ e, v.removeEntry t = some (.error e, v) ∧ (t = 0 ∨ ¬ Live v t)) ∨
  ∃ v', v.removeEntry t = some (.ok (), v') ∧ t ≠ 0 ∧ Live v t ∧ TakenOut v v' t ∧
    (∀ i, v'.inodes[i]?.map Inode.kind = some .tombstone ↔
      v.inodes[i]?.map Inode.kind = some .tombstone ∨ Below v t i) ∧
    (∀ i, ¬ Below v t i → i ≠ v.parentOf t → v'.inodes[i]? = v.inodes[i]?) ∧
    (∃ dir children, v.inodes[v.parentOf t]? = some dir ∧ dir.kind = .directory children ∧
      v'.inodes[v.parentOf t]? = some { dir with kind := .directory (children.erase t) }) ∧
    SameReads v v' fun i => Live v i ∧ ¬ Below v t i

theorem treeShown (v : Vfs) (hv : WellFormed v) : TreeShown v := by
  intro i node hnode
  cases hk : node.kind with
  | directory children => exact subtree_directory hv hnode hk
  | file content => exact subtree_file hnode hk
  | tombstone => trivial
  | _ => exact subtree_pseudo hnode (by simp [hk]) (by simp [hk])

theorem readFile_congr {v' : Vfs} (h : v'.inodes[i]? = v.inodes[i]?) (env : Environment) :
    v'.readFile env i = v.readFile env i := by
  simp [Vfs.readFile, h]

theorem readFile_directory {node : Inode} {children : List Nat} (hnode : v.inodes[i]? = some node)
    (hkind : node.kind = .directory children) (env : Environment) :
    v.readFile env i = some (.error .isDirectory) := by
  simp [Vfs.readFile, hnode, hkind]

namespace ChildAdded

variable {v v' : Vfs} {p k : Nat} {name : String} {kind : InodeKind} {dir : Inode}
  {children : List Nat}

variable (h : ChildAdded v v' p k name kind dir children)
include h

theorem live_parent : Live v p :=
  ⟨dir, h.dir_eq, by simp [h.dir_kind]⟩

theorem not_live_new : ¬ Live v k := by
  rintro ⟨node, hnode, hlive⟩
  exact h.ne_of_live hnode hlive rfl

omit h in
theorem changedAt (hv : WellFormed v) (h : ChildAdded v v' p k name kind dir children) :
    ChangedAt v v' p (Live v) where
  live := fun _ hx => hx
  closed := fun _ _ _ _ hlists => hv.lists_live hlists
  frame := by
    rintro x ⟨node, hnode, hlive⟩ hxp
    exact h.frame (h.ne_of_live hnode hlive) hxp
  name := by rw [nameOf_eq h.parent_eq, nameOf_eq h.dir_eq]

omit h in
theorem subtree_parent (hv : WellFormed v) (hv' : WellFormed v')
    (h : ChildAdded v v' p k name kind dir children) :
    v'.subtree p = .node ((children.map fun c => (v.nameOf c, v.subtree c)) ++
      [(name, v'.subtree k)]) := by
  have hnew : v'.nameOf k = name := nameOf_eq h.new_eq
  rw [subtree_directory hv' h.parent_eq rfl, List.map_append, List.map_singleton, hnew]
  congr 2
  refine List.map_congr_left ?_
  intro c hc
  have hlists : Lists v p c := ⟨dir, children, h.dir_eq, h.dir_kind, hc⟩
  have hlive := hv.lists_live hlists
  rw [(h.changedAt hv).nameOf_eq hlive,
    (h.changedAt hv).subtree_eq hv hv' hlive (not_below_of_lists hv hlists)]

omit h in
theorem appended (hv : WellFormed v) (hv' : WellFormed v')
    (h : ChildAdded v v' p k name kind dir children) (hname : NameFree v children name) :
    Appended v v' p name (v'.subtree k) := by
  refine ⟨children.map fun c => (v.nameOf c, v.subtree c), ?_, ?_, ?_⟩
  · rw [find_pathOf hv h.live_parent, subtree_directory hv h.dir_eq h.dir_kind]
  · rw [List.map_map]
    intro hmem
    obtain ⟨c, hc, hcname⟩ := List.mem_map.mp hmem
    obtain ⟨-, node, hnode, -⟩ := hv.child p dir children h.dir_eq h.dir_kind c hc
    exact hname c hc node hnode ((nameOf_eq hnode).symm.trans hcname)
  · rw [← h.subtree_parent hv hv']
    exact (h.changedAt hv).subtree_graft hv hv' hv.live_root (walk_pathOf hv h.live_parent)

theorem sameReads : SameReads v v' (Live v) := by
  rintro env i ⟨node, hnode, hlive⟩
  by_cases hip : i = p
  · subst hip
    rw [readFile_directory h.parent_eq rfl, readFile_directory h.dir_eq h.dir_kind]
  · exact readFile_congr (h.frame (h.ne_of_live hnode hlive) hip) env

end ChildAdded

namespace EntryRemoved

variable {v v' : Vfs} {t p : Nat} {dir : Inode} {children : List Nat}

theorem live_parent (h : EntryRemoved v v' t p dir children) : Live v p :=
  ⟨dir, h.dir_eq, by simp [h.dir_kind]⟩

theorem parentOf_target (hv : WellFormed v) (h : EntryRemoved v v' t p dir children) :
    v.parentOf t = p := by
  obtain ⟨-, node, hnode, -, hparent⟩ :=
    hv.child p dir children h.dir_eq h.dir_kind t h.target_mem
  simp [Vfs.parentOf, hnode, hparent]

theorem changedAt (hv : WellFormed v) (h : EntryRemoved v v' t p dir children) :
    ChangedAt v v' p fun x => Live v x ∧ ¬ Below v t x where
  live := fun _ hx => hx.1
  closed := by
    rintro x c ⟨-, hnb⟩ hxp hlists
    refine ⟨hv.lists_live hlists, fun hb => ?_⟩
    rcases (h.below_of_lists hv hlists).mp hb with rfl | hb
    · obtain ⟨node, cs, hnode, hcs, hc⟩ := hlists
      obtain ⟨-, child, hchild, -, hparent⟩ := hv.child x node cs hnode hcs c hc
      have hpc := h.parentOf_target hv
      rw [Vfs.parentOf, hchild] at hpc
      exact hxp (hparent.symm.trans hpc)
    · exact hnb hb
  frame := fun x hx hxp => h.frame x hx.2 hxp
  name := by rw [nameOf_eq h.parent_eq, nameOf_eq h.dir_eq]

theorem takenOut (hv : WellFormed v) (h : EntryRemoved v v' t p dir children) :
    TakenOut v v' t := by
  have hv' := h.wellFormed hv
  have hchanged := h.changedAt hv
  obtain ⟨before, after, -, hsplit, herase⟩ := List.exists_erase_eq h.target_mem
  have hsub : ∀ c ∈ children.erase t, (v'.nameOf c, v'.subtree c) = (v.nameOf c, v.subtree c) := by
    intro c hc
    have hlists : Lists v p c :=
      ⟨dir, children, h.dir_eq, h.dir_kind, List.mem_of_mem_erase hc⟩
    have hct : c ≠ t := by
      rintro rfl
      exact (hv.children_nodup h.dir_eq h.dir_kind).not_mem_erase hc
    have hkept : Live v c ∧ ¬ Below v t c := by
      refine ⟨hv.lists_live hlists, fun hb => ?_⟩
      rcases (h.below_of_lists hv hlists).mp hb with hct' | hb
      · exact hct hct'
      · exact h.not_below_parent hv hb
    rw [hchanged.nameOf_eq hkept, hchanged.subtree_eq hv hv' hkept (not_below_of_lists hv hlists)]
  refine ⟨before.map fun c => (v.nameOf c, v.subtree c),
    after.map fun c => (v.nameOf c, v.subtree c), ?_, ?_⟩
  · rw [h.parentOf_target hv, find_pathOf hv h.live_parent,
      subtree_directory hv h.dir_eq h.dir_kind, hsplit, List.map_append, List.map_cons]
  · have hroot : Live v 0 ∧ ¬ Below v t 0 := by
      refine ⟨hv.live_root, fun hb => ?_⟩
      obtain ⟨depth, hd0, hstep⟩ := hv.depth
      have hle := (iterate_parentOf_of_below hv ⟨hd0, hstep⟩ hb).1
      have hpt := (depth_lists hv ⟨hd0, hstep⟩ h.target_listed).1
      omega
    have hp : v'.subtree p = .node ((before.map fun c => (v.nameOf c, v.subtree c)) ++
        after.map fun c => (v.nameOf c, v.subtree c)) := by
      rw [subtree_directory hv' h.parent_eq rfl, List.map_congr_left hsub, herase, List.map_append]
    rw [h.parentOf_target hv, ← hp]
    exact hchanged.subtree_graft hv hv' hroot (walk_pathOf hv h.live_parent)

theorem tombstone_iff (hv : WellFormed v) (h : EntryRemoved v v' t p dir children) (i : Nat) :
    v'.inodes[i]?.map Inode.kind = some .tombstone ↔
      v.inodes[i]?.map Inode.kind = some .tombstone ∨ Below v t i := by
  have hold := hv.free i
  have hnew := h.wellFormed_free hv i
  rw [h.free, hold] at hnew
  simpa [eq_comm] using hnew.symm

theorem sameReads (h : EntryRemoved v v' t p dir children) :
    SameReads v v' fun i => Live v i ∧ ¬ Below v t i := by
  rintro env i ⟨-, hnb⟩
  by_cases hip : i = p
  · subst hip
    rw [readFile_directory h.parent_eq rfl, readFile_directory h.dir_eq h.dir_kind]
  · exact readFile_congr (h.frame i hnb hip) env

end EntryRemoved

section Overwrite

variable {v : Vfs} {p c : Nat} {child : Inode} {old : List UInt8}

theorem lists_live_parent (hlists : Lists v p c) : Live v p := by
  obtain ⟨dir, children, hdir, hkind, -⟩ := hlists
  exact ⟨dir, hdir, by simp [hkind]⟩

theorem changedAt_of_overwrite (hv : WellFormed v) (hchild : v.inodes[c]? = some child)
    (content : List UInt8) : ChangedAt v (v.overwrite c child content) c (Live v) where
  live := fun _ hx => hx
  closed := fun _ _ _ _ hlists => hv.lists_live hlists
  frame := fun x _ hxc => by simp [overwrite_inodes hchild, hxc]
  name := by simp [Vfs.nameOf, overwrite_inodes hchild, hchild]

theorem rewritten_of_overwrite (hv : WellFormed v) (hlists : Lists v p c)
    (hchild : v.inodes[c]? = some child) (hkind : child.kind = .file old) (content : List UInt8) :
    Rewritten v (v.overwrite c child content) p (v.nameOf c) content := by
  have hwalk := (walk_pathOf hv (lists_live_parent hlists)).snoc hlists
  have hv' := wellFormed_of_overwrite hv hchild hkind content
  have hnew : (v.overwrite c child content).subtree c = .leaf (.file content) :=
    subtree_file (by rw [overwrite_inodes hchild, if_pos rfl]) rfl
  refine ⟨old, ?_, ?_⟩
  · rw [Vfs.tree, hwalk.find_subtree hv, subtree_file hchild hkind]
  · rw [← hnew]
    exact (changedAt_of_overwrite hv hchild content).subtree_graft hv hv' hv.live_root hwalk

theorem sameReads_of_overwrite (hchild : v.inodes[c]? = some child) (content : List UInt8) :
    SameReads v (v.overwrite c child content) fun i => Live v i ∧ i ≠ c := by
  rintro env i ⟨-, hic⟩
  exact readFile_congr (by simp [overwrite_inodes hchild, hic]) env

end Overwrite

theorem mkdirAt_refines (hv : WellFormed v) (hp : p < v.inodes.length) (name : String) :
    MkdirRefines v p name := by
  rcases mkdirAt_spec hv hp name with ⟨e, h, hrefused⟩ | ⟨k, v', dir, children, h, hadded, hname⟩
  · refine .inl ⟨e, h, ?_⟩
    intro hlive kids hkids
    rw [find_pathOf hv hlive, Option.some.injEq] at hkids
    obtain ⟨dir, children, hdir, hkind, rfl⟩ := exists_directory_of_subtree hv hlive hkids
    obtain ⟨c, hc, hname⟩ := hrefused dir children hdir hkind
    rw [List.map_map]
    exact List.mem_map.mpr ⟨c, hc, hname⟩
  · have hv' := hadded.wellFormed hv childless_directory hname
    have hnew : v'.subtree k = .node [] := subtree_directory hv' hadded.new_eq rfl
    refine .inr ⟨k, v', h, hadded.live_parent, hadded.not_live_new, ?_, hadded.sameReads⟩
    rw [← hnew]
    exact hadded.appended hv hv' hname

theorem createFileAt_refines (hv : WellFormed v) (hp : p < v.inodes.length) (name : String)
    (content : List UInt8) : CreateFileRefines v p name content := by
  rcases createFileAt_spec hv hp name content with
    ⟨e, h, hrefused⟩ | ⟨c, child, old, hlists, hchild, hcname, hkind, h⟩ |
      ⟨k, v', dir, children, h, hadded, hname⟩
  · refine .inl ⟨e, h, ?_⟩
    intro hlive kids hkids
    rw [find_pathOf hv hlive, Option.some.injEq] at hkids
    obtain ⟨dir, children, hdir, hkind, rfl⟩ := exists_directory_of_subtree hv hlive hkids
    obtain ⟨c, hc, hname, child, hchild, hnot⟩ := hrefused dir children hdir hkind
    refine ⟨v.subtree c, List.mem_map.mpr ⟨c, hc, by rw [hname]⟩, ?_⟩
    intro old hold
    cases hk : child.kind with
    | file b => exact hnot b hk
    | directory cs =>
      rw [subtree_directory hv hchild hk] at hold
      cases hold
    | _ =>
      rw [subtree_pseudo hchild (by simp [hk]) (by simp [hk])] at hold
      cases hold
  · have hlive := lists_live_parent hlists
    have hrewritten := rewritten_of_overwrite hv hlists hchild hkind content
    rw [nameOf_eq hchild, hcname] at hrewritten
    exact .inr (.inl ⟨c, _, h, hlive, hlists, hrewritten, sameReads_of_overwrite hchild content⟩)
  · have hv' := hadded.wellFormed hv (childless_file content) hname
    have hnew : v'.subtree k = .leaf (.file content) := subtree_file hadded.new_eq rfl
    refine .inr (.inr ⟨k, v', h, hadded.live_parent, hadded.not_live_new, ?_, hadded.sameReads⟩)
    rw [← hnew]
    exact hadded.appended hv hv' hname

theorem removeEntry_refines (hv : WellFormed v) {t : Nat} (ht : t < v.inodes.length) :
    RemoveRefines v t := by
  rcases removeEntry_spec hv ht with hrefused | ⟨v', p, dir, children, h, hremoved, -⟩
  · exact .inl hrefused
  · refine .inr ⟨v', h, hremoved.target_ne, hv.lists_live hremoved.target_listed,
      hremoved.takenOut hv, hremoved.tombstone_iff hv, ?_, ?_, hremoved.sameReads⟩
    · rw [hremoved.parentOf_target hv]
      exact hremoved.frame
    · rw [hremoved.parentOf_target hv]
      exact ⟨dir, children, hremoved.dir_eq, hremoved.dir_kind, hremoved.parent_eq⟩

/-- From `Vfs::init`, after any history of calls, the inode table stands for a
tree, and each call in range is the corresponding operation on that tree. -/
theorem calls_refine_tree (images : SystemImages) :
    ∃ v₀, Vfs.init images = some v₀ ∧
      ∀ (calls : List Call) v, calls.foldlM Vfs.apply v₀ = some v →
        TreeShown v ∧
        (∀ p < v.inodes.length, ∀ name, MkdirRefines v p name) ∧
        (∀ p < v.inodes.length, ∀ name content, CreateFileRefines v p name content) ∧
        ∀ t < v.inodes.length, RemoveRefines v t := by
  obtain ⟨v₀, hinit, hwf, -⟩ := init_spec images
  refine ⟨v₀, hinit, ?_⟩
  intro calls v hrun
  have hv := wellFormed_of_run hwf hrun
  exact ⟨treeShown v hv, fun _ hp name => mkdirAt_refines hv hp name,
    fun _ hp name content => createFileAt_refines hv hp name content,
    fun _ ht => removeEntry_refines hv ht⟩

theorem WellFormed.nonempty {v : Vfs} (hv : WellFormed v) : 0 < v.inodes.length := by
  obtain ⟨node, -, hnode, -⟩ := hv.root
  exact (List.getElem?_eq_some_iff.mp hnode).1

theorem calls_refine_tree_at_boot :
    ∃ v₀ v, Vfs.init ⟨[], [], []⟩ = some v₀ ∧
      [Call.mkdirAt 0 "srv"].foldlM Vfs.apply v₀ = some v ∧
      MkdirRefines v 0 "srv" ∧ RemoveRefines v 0 := by
  obtain ⟨v₀, hinit, hall⟩ := calls_refine_tree ⟨[], [], []⟩
  obtain ⟨v, hinit', hv₀, -⟩ := init_spec ⟨[], [], []⟩
  obtain rfl : v₀ = v := Option.some.inj (hinit.symm.trans hinit')
  obtain ⟨v, happly, hv⟩ := apply_spec hv₀ (.mkdirAt 0 "srv") hv₀.nonempty
  have hrun : [Call.mkdirAt 0 "srv"].foldlM Vfs.apply v₀ = some v := by
    simp [happly]
  obtain ⟨-, hmkdir, -, hremove⟩ := hall _ v hrun
  exact ⟨v₀, v, hinit, hrun, hmkdir 0 hv.nonempty "srv", hremove 0 hv.nonempty⟩

end AuraOS.RamFileSystem
