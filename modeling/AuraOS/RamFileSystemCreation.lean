import AuraOS.RamFileSystemInvariant

namespace AuraOS.RamFileSystem

variable {v : Vfs} {p i c d : Nat} {dir node : Inode} {children : List Nat}

theorem findChild_spec (name : String) {cs : List Nat}
    (hcs : ∀ c ∈ cs, ∃ node, v.inodes[c]? = some node) :
    ∃ found, v.findChild name cs = some found ∧
      (∀ c, found = some c → c ∈ cs ∧ ∃ node, v.inodes[c]? = some node ∧ node.name = name) ∧
      (found = none → ∀ c ∈ cs, ∀ node, v.inodes[c]? = some node → node.name ≠ name) := by
  induction cs with
  | nil => exact ⟨none, rfl, by simp, by simp⟩
  | cons c cs ih =>
    obtain ⟨node, hnode⟩ := hcs c (by simp)
    by_cases hname : node.name = name
    · refine ⟨some c, by simp [Vfs.findChild, hnode, hname], ?_, by simp⟩
      rintro _ ⟨rfl⟩
      exact ⟨by simp, node, hnode, hname⟩
    · obtain ⟨found, hfound, hsome, hnone⟩ := ih fun c' hc' => hcs c' (by simp [hc'])
      refine ⟨found, by simp [Vfs.findChild, hnode, hname, hfound], ?_, ?_⟩
      · intro c' hc'
        obtain ⟨hmem, hrest⟩ := hsome c' hc'
        exact ⟨by simp [hmem], hrest⟩
      · intro hf c' hc' node' hnode'
        rcases List.mem_cons.mp hc' with rfl | hc'
        · rw [hnode] at hnode'
          cases hnode'
          exact hname
        · exact hnone hf c' hc' node' hnode'

/-- The effect of the creating operations on the table: slot `k`, unused
before, holds the new entry and the directory `p` lists it last. -/
structure ChildAdded (v v' : Vfs) (p k : Nat) (name : String) (kind : InodeKind)
    (dir : Inode) (children : List Nat) : Prop where
  dir_eq : v.inodes[p]? = some dir
  dir_kind : dir.kind = .directory children
  fresh : ∀ node, v.inodes[k]? = some node → node.kind = .tombstone
  inodes : ∀ i, v'.inodes[i]? =
    if i = k then some ⟨k, p, name, kind⟩
    else if i = p then some { dir with kind := .directory (children ++ [k]) }
    else v.inodes[i]?
  freeNodup : v'.freeInodes.Nodup
  free : ∀ i, i ∈ v'.freeInodes ↔ i ∈ v.freeInodes ∧ i ≠ k
  current : v'.currentInode = v.currentInode

theorem ChildAdded.ne {v' : Vfs} {k : Nat} {name : String} {kind : InodeKind}
    (h : ChildAdded v v' p k name kind dir children) : p ≠ k := by
  rintro rfl
  have := h.fresh dir h.dir_eq
  simp [h.dir_kind] at this

theorem allocateInode_spec (hv : WellFormed v) (p : Nat) (name : String) (kind : InodeKind) :
    ∃ k v', v.allocateInode p name kind = some (k, v') ∧
      (∀ node, v.inodes[k]? = some node → node.kind = .tombstone) ∧
      (∀ i, v'.inodes[i]? = if i = k then some ⟨k, p, name, kind⟩ else v.inodes[i]?) ∧
      v'.freeInodes.Nodup ∧ (∀ i, i ∈ v'.freeInodes ↔ i ∈ v.freeInodes ∧ i ≠ k) ∧
      v'.currentInode = v.currentInode := by
  have hnodup := hv.freeNodup
  cases hfree : v.freeInodes with
  | nil =>
    refine ⟨v.inodes.length,
      { v with inodes := v.inodes ++ [⟨v.inodes.length, p, name, kind⟩] },
      by simp [Vfs.allocateInode, hfree], ?_, ?_, ?_, ?_, rfl⟩
    · simp
    · intro i
      simp only [List.getElem?_append, List.getElem?_singleton]
      by_cases hi : i = v.inodes.length
      · simp [hi]
      · by_cases hlt : i < v.inodes.length
        · simp [hi, hlt]
        · have hsub : i - v.inodes.length ≠ 0 := by omega
          simp [hi, hlt, hsub]
    · simp [hfree]
    · simp [hfree]
  | cons k rest =>
    obtain ⟨node, hnode, hkind⟩ := (hv.free k).mp (by simp [hfree])
    rw [hfree, List.nodup_cons] at hnodup
    refine ⟨k, { v with inodes := v.inodes.set k ⟨k, p, name, kind⟩, freeInodes := rest },
      ?_, ?_, ?_, hnodup.2, ?_, rfl⟩
    · have hset : Vfs.setInode { v with freeInodes := rest } k ⟨k, p, name, kind⟩ =
          some { v with inodes := v.inodes.set k ⟨k, p, name, kind⟩, freeInodes := rest } :=
        setInode_of_getElem? hnode
      simp [Vfs.allocateInode, hfree, hset]
    · intro node' hnode'
      rw [hnode] at hnode'
      cases hnode'
      exact hkind
    · intro i
      exact getElem?_set_inodes hnode
    · intro i
      simp only [List.mem_cons]
      constructor
      · intro hi
        exact ⟨.inr hi, fun hik => hnodup.1 (hik ▸ hi)⟩
      · rintro ⟨rfl | hi, hne⟩
        · exact absurd rfl hne
        · exact hi

theorem addChild_spec (hv : WellFormed v) (hdir : v.inodes[p]? = some dir)
    (hkind : dir.kind = .directory children) (name : String) (kind : InodeKind) :
    ∃ k v', v.addChild p name kind = some (.ok k, v') ∧
      ChildAdded v v' p k name kind dir children := by
  obtain ⟨k, w, halloc, hfresh, hinodes, hnodup, hfree, hcurrent⟩ :=
    allocateInode_spec hv p name kind
  have hpk : p ≠ k := by
    rintro rfl
    have := hfresh dir hdir
    simp [hkind] at this
  have hwp : w.inodes[p]? = some dir := by simp [hinodes, hpk, hdir]
  let dir' : Inode := { dir with kind := .directory (children ++ [k]) }
  refine ⟨k, { w with inodes := w.inodes.set p dir' }, ?_, ?_⟩
  · simp [Vfs.addChild, halloc, Vfs.pushChild, hwp, hkind, setInode_of_getElem? hwp, dir']
  · refine ⟨hdir, hkind, hfresh, ?_, hnodup, hfree, hcurrent⟩
    intro i
    rw [getElem?_set_inodes hwp, hinodes]
    by_cases hip : i = p
    · subst hip
      simp [hpk, dir']
    · simp [hip]

def NameFree (v : Vfs) (children : List Nat) (name : String) : Prop :=
  ∀ c ∈ children, ∀ node, v.inodes[c]? = some node → node.name ≠ name

def Childless (kind : InodeKind) : Prop :=
  kind ≠ .tombstone ∧ ∀ children, kind = .directory children → children = []

namespace ChildAdded

variable {v v' : Vfs} {p k : Nat} {name : String} {kind : InodeKind} {dir : Inode}
  {children : List Nat}

variable (h : ChildAdded v v' p k name kind dir children)
include h

theorem new_eq : v'.inodes[k]? = some ⟨k, p, name, kind⟩ := by
  simp [h.inodes]

theorem parent_eq : v'.inodes[p]? = some { dir with kind := .directory (children ++ [k]) } := by
  simp [h.inodes, h.ne]

theorem frame (hik : i ≠ k) (hip : i ≠ p) : v'.inodes[i]? = v.inodes[i]? := by
  simp [h.inodes, hik, hip]

theorem ne_of_live (hnode : v.inodes[i]? = some node) (hlive : node.kind ≠ .tombstone) : i ≠ k := by
  rintro rfl
  exact hlive (h.fresh node hnode)

variable (hv : WellFormed v)
include hv

theorem new_ne_zero : k ≠ 0 := by
  obtain ⟨node, cs, hnode, hcs, -⟩ := hv.root
  exact (h.ne_of_live hnode (by simp [hcs])).symm

theorem child_ne (hc : c ∈ children) : c ≠ k := by
  obtain ⟨-, node, hnode, hlive, -⟩ := hv.child p dir children h.dir_eq h.dir_kind c hc
  exact h.ne_of_live hnode hlive

omit hv in
theorem exists_old (hik : i ≠ k) (hnode : v'.inodes[i]? = some node) :
    ∃ old, v.inodes[i]? = some old ∧ node.name = old.name ∧ node.parentId = old.parentId ∧
      (node.kind = .tombstone ↔ old.kind = .tombstone) := by
  by_cases hip : i = p
  · subst hip
    rw [h.parent_eq] at hnode
    cases hnode
    exact ⟨dir, h.dir_eq, rfl, rfl, by simp [h.dir_kind]⟩
  · rw [h.frame hik hip] at hnode
    exact ⟨node, hnode, rfl, rfl, Iff.rfl⟩

omit hv h in
theorem lists_iff (hkind : Childless kind) (h : ChildAdded v v' p k name kind dir children)
    (d c : Nat) : Lists v' d c ↔ Lists v d c ∨ d = p ∧ c = k := by
  by_cases hdk : d = k
  · subst hdk
    have hnot : ¬ Lists v d c := by
      rintro ⟨node, cs, hnode, hcs, -⟩
      exact h.ne_of_live hnode (by simp [hcs]) rfl
    have hnot' : ¬ Lists v' d c := by
      rintro ⟨node, cs, hnode, hcs, hc⟩
      rw [h.new_eq] at hnode
      cases hnode
      simp [hkind.2 cs hcs] at hc
    simp [hnot, hnot', h.ne.symm]
  · by_cases hdp : d = p
    · subst hdp
      rw [lists_iff_mem h.parent_eq rfl, lists_iff_mem h.dir_eq h.dir_kind]
      simp
    · simp [Lists, h.frame hdk hdp, hdp]

theorem wellFormed_root :
    ∃ node children, v'.inodes[0]? = some node ∧ node.kind = .directory children ∧
      node.parentId = 0 := by
  obtain ⟨node, cs, hnode, hcs, hparent⟩ := hv.root
  by_cases hp0 : 0 = p
  · subst hp0
    rw [h.dir_eq] at hnode
    cases hnode
    exact ⟨_, _, h.parent_eq, rfl, hparent⟩
  · exact ⟨node, cs, by rw [h.frame (h.new_ne_zero hv).symm hp0, hnode], hcs, hparent⟩

theorem wellFormed_listed
    (hnode : v'.inodes[i]? = some node) (hlive : node.kind ≠ .tombstone) (hi0 : i ≠ 0) :
    ∃ parent cs, v'.inodes[node.parentId]? = some parent ∧ parent.kind = .directory cs ∧
      cs.count i = 1 := by
  by_cases hik : i = k
  · subst hik
    rw [h.new_eq] at hnode
    cases hnode
    refine ⟨_, _, h.parent_eq, rfl, ?_⟩
    have hnot : i ∉ children := fun hi => h.child_ne hv hi rfl
    simp [List.count_append, List.count_eq_zero_of_not_mem hnot]
  · obtain ⟨old, hold, -, hparent, htomb⟩ := h.exists_old hik hnode
    obtain ⟨parent, cs, hpar, hcs, hcount⟩ :=
      hv.listed i old hold (fun ht => hlive (htomb.mpr ht)) hi0
    rw [hparent]
    by_cases hq : old.parentId = p
    · rw [hq] at hpar ⊢
      rw [h.dir_eq] at hpar
      cases hpar
      rw [h.dir_kind] at hcs
      cases hcs
      exact ⟨_, _, h.parent_eq, rfl, by simp [List.count_append, hcount, Ne.symm hik]⟩
    · have hqk := h.ne_of_live hpar (by simp [hcs])
      exact ⟨parent, cs, by rw [h.frame hqk hq, hpar], hcs, hcount⟩

omit h in
theorem wellFormed_child (hkind : Childless kind)
    (h : ChildAdded v v' p k name kind dir children) (hdc : Lists v' d c) :
    c ≠ 0 ∧ ∃ node, v'.inodes[c]? = some node ∧ node.kind ≠ .tombstone ∧ node.parentId = d := by
  rcases (h.lists_iff hkind d c).mp hdc with ⟨old, cs, hold, hcs, hc⟩ | ⟨rfl, rfl⟩
  · obtain ⟨hc0, child, hchild, hlive, hparent⟩ := hv.child d old cs hold hcs c hc
    refine ⟨hc0, ?_⟩
    by_cases hcp : c = p
    · subst hcp
      rw [h.dir_eq] at hchild
      cases hchild
      exact ⟨_, h.parent_eq, by simp, hparent⟩
    · exact ⟨child, by rw [h.frame (h.ne_of_live hchild hlive) hcp, hchild], hlive, hparent⟩
  · exact ⟨h.new_ne_zero hv, _, h.new_eq, hkind.1, rfl⟩

omit h in
theorem wellFormed_names (hkind : Childless kind)
    (h : ChildAdded v v' p k name kind dir children) (hname : NameFree v children name) {c' : Nat}
    {node' : Inode} (hc : Lists v' d c) (hc' : Lists v' d c') (hnode : v'.inodes[c]? = some node)
    (hnode' : v'.inodes[c']? = some node') (heq : node.name = node'.name) : c = c' := by
  have hold : ∀ x n, Lists v d x → v'.inodes[x]? = some n →
      ∃ old, v.inodes[x]? = some old ∧ n.name = old.name := by
    intro x n hx hn
    obtain ⟨m, hm, hlive⟩ := hv.lists_live hx
    obtain ⟨old, hold, hname₀, -⟩ := h.exists_old (h.ne_of_live hm hlive) hn
    exact ⟨old, hold, hname₀⟩
  have hnew : ∀ x n, Lists v p x → v'.inodes[x]? = some n → d = p → n.name ≠ name := by
    rintro x n hx hn rfl
    obtain ⟨old, hold, hnn⟩ := hold x n hx hn
    rw [hnn]
    exact hname x ((lists_iff_mem h.dir_eq h.dir_kind x).mp hx) old hold
  have hkname : ∀ n, v'.inodes[k]? = some n → n.name = name := by
    intro n hn
    rw [h.new_eq] at hn
    cases hn
    rfl
  rcases (h.lists_iff hkind d c).mp hc with hc | ⟨hdp, rfl⟩ <;>
    rcases (h.lists_iff hkind d c').mp hc' with hc' | ⟨hdp', rfl⟩
  · obtain ⟨old, hold₁, hn⟩ := hold c node hc hnode
    obtain ⟨old', hold₂, hn'⟩ := hold c' node' hc' hnode'
    obtain ⟨dnode, cs, hdnode, hcs, hmem⟩ := hc
    exact hv.names d dnode cs hdnode hcs c hmem c' ((lists_iff_mem hdnode hcs c').mp hc')
      old old' hold₁ hold₂ (by rw [← hn, ← hn', heq])
  · exact absurd (heq.trans (hkname node' hnode')) (hnew c node (hdp' ▸ hc) hnode hdp')
  · exact absurd (heq.symm.trans (hkname node hnode)) (hnew c' node' (hdp ▸ hc') hnode' hdp)
  · rfl

theorem wellFormed_depth :
    ∃ depth : Nat → Nat, depth 0 = 0 ∧ ∀ (i : Nat) (node : Inode),
      v'.inodes[i]? = some node → node.kind ≠ .tombstone → i ≠ 0 →
        depth i = depth node.parentId + 1 := by
  obtain ⟨depth, hroot, hstep⟩ := hv.depth
  refine ⟨fun i => if i = k then depth p + 1 else depth i,
    by simp [(h.new_ne_zero hv).symm, hroot], ?_⟩
  intro i node hnode hlive hi0
  by_cases hik : i = k
  · subst hik
    rw [h.new_eq] at hnode
    cases hnode
    simp [h.ne]
  · obtain ⟨old, hold, -, hparent, htomb⟩ := h.exists_old hik hnode
    have hlive₀ : old.kind ≠ .tombstone := fun ht => hlive (htomb.mpr ht)
    obtain ⟨parent, cs, hpar, hcs, -⟩ := hv.listed i old hold hlive₀ hi0
    have hqk := h.ne_of_live hpar (by simp [hcs])
    simp only [hik, hparent, hqk, if_false]
    exact hstep i old hold hlive₀ hi0

omit h in
theorem wellFormed_buried (hkind : Childless kind) (h : ChildAdded v v' p k name kind dir children)
    (hnode : v'.inodes[i]? = some node) (htomb : node.kind = .tombstone) : node.parentId = 0 := by
  by_cases hik : i = k
  · subst hik
    rw [h.new_eq] at hnode
    cases hnode
    exact absurd htomb hkind.1
  · obtain ⟨old, hold, -, hparent, hiff⟩ := h.exists_old hik hnode
    rw [hparent]
    exact hv.buried i old hold (hiff.mp htomb)

omit h in
theorem wellFormed_free (hkind : Childless kind) (h : ChildAdded v v' p k name kind dir children)
    (i : Nat) : i ∈ v'.freeInodes ↔ ∃ node, v'.inodes[i]? = some node ∧ node.kind = .tombstone := by
  rw [h.free, hv.free]
  by_cases hik : i = k
  · subst hik
    simp [h.new_eq, hkind.1]
  · by_cases hip : i = p
    · subst hip
      simp [h.parent_eq, h.dir_eq, h.dir_kind]
    · simp [h.frame hik hip, hik]

omit h in
theorem wellFormed (hkind : Childless kind)
    (h : ChildAdded v v' p k name kind dir children) (hname : NameFree v children name) :
    WellFormed v' where
  root := h.wellFormed_root hv
  listed _ _ hnode hlive hi0 := h.wellFormed_listed hv hnode hlive hi0
  child _ _ _ hnode hcs _ hc := h.wellFormed_child hv hkind ⟨_, _, hnode, hcs, hc⟩
  names _ _ _ hnode hcs _ hc _ hc' _ _ hn hn' heq := h.wellFormed_names hv hkind hname
    ⟨_, _, hnode, hcs, hc⟩ ⟨_, _, hnode, hcs, hc'⟩ hn hn' heq
  depth := h.wellFormed_depth hv
  buried _ _ hnode htomb := h.wellFormed_buried hv hkind hnode htomb
  freeNodup := h.freeNodup
  free := h.wellFormed_free hv hkind

end ChildAdded

theorem childless_directory : Childless (.directory []) := by
  simp [Childless]

theorem childless_file (content : List UInt8) : Childless (.file content) := by
  simp [Childless]

theorem exists_children (hv : WellFormed v) (hdir : v.inodes[p]? = some dir)
    (hkind : dir.kind = .directory children) :
    ∀ c ∈ children, ∃ node, v.inodes[c]? = some node := by
  intro c hc
  obtain ⟨-, node, hnode, -⟩ := hv.child p dir children hdir hkind c hc
  exact ⟨node, hnode⟩

theorem mkdirAt_spec (hv : WellFormed v) (hp : p < v.inodes.length) (name : String) :
    (∃ e, v.mkdirAt p name = some (.error e, v) ∧
      ∀ dir children, v.inodes[p]? = some dir → dir.kind = .directory children →
        ∃ c ∈ children, v.nameOf c = name) ∨
      ∃ k v' dir children, v.mkdirAt p name = some (.ok k, v') ∧
        ChildAdded v v' p k name (.directory []) dir children ∧ NameFree v children name := by
  obtain ⟨dir, hdir⟩ : ∃ dir, v.inodes[p]? = some dir := ⟨_, List.getElem?_eq_getElem hp⟩
  cases hkind : dir.kind with
  | directory children =>
    obtain ⟨found, hfound, hsome, hnone⟩ :=
      findChild_spec name (exists_children hv hdir hkind)
    cases found with
    | some c =>
      obtain ⟨hc, child, hchild, hname⟩ := hsome c rfl
      refine .inl ⟨.alreadyExists, by simp [Vfs.mkdirAt, hdir, hkind, hfound], ?_⟩
      intro dir' children' hdir' hkind'
      cases hdir.symm.trans hdir'
      cases hkind.symm.trans hkind'
      exact ⟨c, hc, by rw [nameOf_eq hchild, hname]⟩
    | none =>
      obtain ⟨k, v', hadd, hadded⟩ := addChild_spec hv hdir hkind name (.directory [])
      exact .inr ⟨k, v', dir, children, by
        simp [Vfs.mkdirAt, hdir, hkind, hfound, hadd], hadded, hnone rfl⟩
  | _ =>
    refine .inl ⟨.notADirectory, by simp [Vfs.mkdirAt, hdir, hkind], ?_⟩
    intro dir' children' hdir' hkind'
    cases hdir.symm.trans hdir'
    cases hkind.symm.trans hkind'

/-- The table with other bytes in the regular file `c`. -/
def Vfs.overwrite (v : Vfs) (c : Nat) (child : Inode) (content : List UInt8) : Vfs :=
  { v with inodes := v.inodes.set c { child with kind := .file content } }

theorem createFileAt_spec (hv : WellFormed v) (hp : p < v.inodes.length) (name : String)
    (content : List UInt8) :
    (∃ e, v.createFileAt p name content = some (.error e, v) ∧
      ∀ dir children, v.inodes[p]? = some dir → dir.kind = .directory children →
        ∃ c ∈ children, v.nameOf c = name ∧ ∃ child, v.inodes[c]? = some child ∧
          ∀ old, child.kind ≠ .file old) ∨
      (∃ c child old, Lists v p c ∧ v.inodes[c]? = some child ∧ child.name = name ∧
        child.kind = .file old ∧
          v.createFileAt p name content = some (.ok c, v.overwrite c child content)) ∨
      ∃ k v' dir children, v.createFileAt p name content = some (.ok k, v') ∧
        ChildAdded v v' p k name (.file content) dir children ∧ NameFree v children name := by
  obtain ⟨dir, hdir⟩ : ∃ dir, v.inodes[p]? = some dir := ⟨_, List.getElem?_eq_getElem hp⟩
  cases hkind : dir.kind with
  | directory children =>
    obtain ⟨found, hfound, hsome, hnone⟩ :=
      findChild_spec name (exists_children hv hdir hkind)
    cases found with
    | some c =>
      obtain ⟨hc, child, hchild, hname⟩ := hsome c rfl
      cases hck : child.kind with
      | file old =>
        refine .inr (.inl ⟨c, child, old, ⟨dir, children, hdir, hkind, hc⟩, hchild, hname, hck, ?_⟩)
        simp [Vfs.createFileAt, hdir, hkind, hfound, hchild, hck,
          setInode_of_getElem? hchild, Vfs.overwrite]
      | _ =>
        refine .inl ⟨.isDirectory, by
          simp [Vfs.createFileAt, hdir, hkind, hfound, hchild, hck], ?_⟩
        intro dir' children' hdir' hkind'
        cases hdir.symm.trans hdir'
        cases hkind.symm.trans hkind'
        exact ⟨c, hc, by rw [nameOf_eq hchild, hname], child, hchild, by simp [hck]⟩
    | none =>
      obtain ⟨k, v', hadd, hadded⟩ := addChild_spec hv hdir hkind name (.file content)
      exact .inr (.inr ⟨k, v', dir, children, by
        simp [Vfs.createFileAt, hdir, hkind, hfound, hadd], hadded, hnone rfl⟩)
  | _ =>
    refine .inl ⟨.notADirectory, by simp [Vfs.createFileAt, hdir, hkind], ?_⟩
    intro dir' children' hdir' hkind'
    cases hdir.symm.trans hdir'
    cases hkind.symm.trans hkind'

section Overwrite

variable {v : Vfs} {c : Nat} {child : Inode} {old : List UInt8}

theorem overwrite_inodes (hchild : v.inodes[c]? = some child) (content : List UInt8) (i : Nat) :
    (v.overwrite c child content).inodes[i]? =
      if i = c then some { child with kind := .file content } else v.inodes[i]? :=
  getElem?_set_inodes hchild

theorem overwrite_old (hchild : v.inodes[c]? = some child) (hkind : child.kind = .file old)
    (content : List UInt8) (hnode : (v.overwrite c child content).inodes[i]? = some node) :
    ∃ node₀, v.inodes[i]? = some node₀ ∧ node.name = node₀.name ∧
      node.parentId = node₀.parentId ∧ (node.kind = .tombstone ↔ node₀.kind = .tombstone) ∧
      (∀ cs, node.kind = .directory cs → node₀.kind = .directory cs) := by
  rw [overwrite_inodes hchild] at hnode
  by_cases hi : i = c
  · subst hi
    simp only [if_true, Option.some.injEq] at hnode
    subst hnode
    exact ⟨child, hchild, rfl, rfl, by simp [hkind], by simp⟩
  · simp only [hi, if_false] at hnode
    exact ⟨node, hnode, rfl, rfl, Iff.rfl, fun _ => id⟩

theorem overwrite_kept (hchild : v.inodes[c]? = some child) (hkind : child.kind = .file old)
    (content : List UInt8) (hnode : v.inodes[i]? = some node) :
    ∃ node', (v.overwrite c child content).inodes[i]? = some node' ∧
      node'.name = node.name ∧ node'.parentId = node.parentId ∧
      (node'.kind = .tombstone ↔ node.kind = .tombstone) ∧
      (∀ cs, node.kind = .directory cs → node'.kind = .directory cs) := by
  rw [overwrite_inodes hchild]
  by_cases hi : i = c
  · subst hi
    rw [hchild] at hnode
    cases hnode
    exact ⟨_, if_pos rfl, rfl, rfl, by simp [hkind], by simp [hkind]⟩
  · exact ⟨node, by simp [hi, hnode], rfl, rfl, Iff.rfl, fun _ => id⟩

theorem wellFormed_of_overwrite (hv : WellFormed v) (hchild : v.inodes[c]? = some child)
    (hkind : child.kind = .file old) (content : List UInt8) :
    WellFormed (v.overwrite c child content) := by
  refine ⟨?_, ?_, ?_, ?_, ?_, ?_, hv.freeNodup, ?_⟩
  · obtain ⟨node, cs, hnode, hcs, hparent⟩ := hv.root
    obtain ⟨node', hnode', -, hparent', -, hdir⟩ := overwrite_kept hchild hkind content hnode
    exact ⟨node', cs, hnode', hdir cs hcs, hparent'.trans hparent⟩
  · intro i node hnode hlive hi0
    obtain ⟨node₀, hnode₀, -, hparent, htomb, -⟩ := overwrite_old hchild hkind content hnode
    obtain ⟨par, cs, hpar, hcs, hcount⟩ :=
      hv.listed i node₀ hnode₀ (fun ht => hlive (htomb.mpr ht)) hi0
    obtain ⟨par', hpar', -, -, -, hdir⟩ := overwrite_kept hchild hkind content hpar
    exact ⟨par', cs, by rw [hparent]; exact hpar', hdir cs hcs, hcount⟩
  · intro d dir cs hdir hcs x hx
    obtain ⟨dir₀, hdir₀, -, -, -, hd⟩ := overwrite_old hchild hkind content hdir
    obtain ⟨hx0, node, hnode, hlive, hparent⟩ := hv.child d dir₀ cs hdir₀ (hd cs hcs) x hx
    obtain ⟨node', hnode', -, hparent', htomb, -⟩ := overwrite_kept hchild hkind content hnode
    exact ⟨hx0, node', hnode', fun ht => hlive (htomb.mp ht), hparent'.trans hparent⟩
  · intro d dir cs hdir hcs x hx y hy n m hn hm hnm
    obtain ⟨dir₀, hdir₀, -, -, -, hd⟩ := overwrite_old hchild hkind content hdir
    obtain ⟨n₀, hn₀, hnn, -⟩ := overwrite_old hchild hkind content hn
    obtain ⟨m₀, hm₀, hmm, -⟩ := overwrite_old hchild hkind content hm
    exact hv.names d dir₀ cs hdir₀ (hd cs hcs) x hx y hy n₀ m₀ hn₀ hm₀ (by rw [← hnn, ← hmm, hnm])
  · obtain ⟨depth, hroot, hstep⟩ := hv.depth
    refine ⟨depth, hroot, ?_⟩
    intro i node hnode hlive hi0
    obtain ⟨node₀, hnode₀, -, hparent, htomb, -⟩ := overwrite_old hchild hkind content hnode
    rw [hparent]
    exact hstep i node₀ hnode₀ (fun ht => hlive (htomb.mpr ht)) hi0
  · intro i node hnode hkind'
    obtain ⟨node₀, hnode₀, -, hparent, htomb, -⟩ := overwrite_old hchild hkind content hnode
    rw [hparent]
    exact hv.buried i node₀ hnode₀ (htomb.mp hkind')
  · intro i
    refine (hv.free i).trans ⟨?_, ?_⟩
    · rintro ⟨node, hnode, ht⟩
      obtain ⟨node', hnode', -, -, htomb, -⟩ := overwrite_kept hchild hkind content hnode
      exact ⟨node', hnode', htomb.mpr ht⟩
    · rintro ⟨node, hnode, ht⟩
      obtain ⟨node₀, hnode₀, -, -, htomb, -⟩ := overwrite_old hchild hkind content hnode
      exact ⟨node₀, hnode₀, htomb.mp ht⟩

end Overwrite

end AuraOS.RamFileSystem
