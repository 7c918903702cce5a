import AuraOS.RamFileSystemCreation
import AuraOS.RamFileSystemRemoval

namespace AuraOS.RamFileSystem

open GuardedRuns

variable {v v' : Vfs} {dirs : List (Nat × List String)} {kind : InodeKind} {i : Nat}

/-- The names listed in directory `p` are among `names`. -/
def NamesWithin (v : Vfs) (p : Nat) (names : List String) : Prop :=
  ∃ dir children, v.inodes[p]? = some dir ∧ dir.kind = .directory children ∧
    ∀ c ∈ children, ∀ node, v.inodes[c]? = some node → node.name ∈ names

namespace ChildAdded

variable {v v' : Vfs} {p k : Nat} {name : String} {kind : InodeKind} {dir : Inode}
  {children : List Nat} {names : List String}

theorem namesWithin_parent (hv : WellFormed v) (h : ChildAdded v v' p k name kind dir children)
    (hnames : NamesWithin v p names) : NamesWithin v' p (name :: names) := by
  obtain ⟨dir₀, children₀, hdir, hkind, hall⟩ := hnames
  rw [h.dir_eq] at hdir
  cases hdir
  rw [h.dir_kind] at hkind
  cases hkind
  refine ⟨_, _, h.parent_eq, rfl, ?_⟩
  intro c hc node hnode
  rcases List.mem_append.mp hc with hc | hc
  · obtain ⟨old, hold, hname, -⟩ := h.exists_old (h.child_ne hv hc) hnode
    rw [hname]
    exact .tail _ (hall c hc old hold)
  · obtain rfl : c = k := by simpa using hc
    rw [h.new_eq] at hnode
    cases hnode
    simp

theorem namesWithin_other (hv : WellFormed v) (h : ChildAdded v v' p k name kind dir children)
    {q : Nat} (hq : q ≠ p) (hnames : NamesWithin v q names) : NamesWithin v' q names := by
  obtain ⟨qdir, cs, hqdir, hcs, hall⟩ := hnames
  have hqk := h.ne_of_live hqdir (by simp [hcs])
  refine ⟨qdir, cs, by rw [h.frame hqk hq, hqdir], hcs, ?_⟩
  intro c hc node hnode
  obtain ⟨-, child, hchild, hlive, -⟩ := hv.child q qdir cs hqdir hcs c hc
  obtain ⟨old, hold, hname, -⟩ := h.exists_old (h.ne_of_live hchild hlive) hnode
  rw [hname]
  exact hall c hc old hold

end ChildAdded

structure Layout (v : Vfs) (dirs : List (Nat × List String)) : Prop where
  wellFormed : WellFormed v
  distinct : (dirs.map Prod.fst).Nodup
  within : ∀ d ∈ dirs, NamesWithin v d.1 d.2
  current : v.currentInode = 0

theorem Layout.tail {d : Nat × List String} (h : Layout v (d :: dirs)) : Layout v dirs where
  wellFormed := h.wellFormed
  distinct := (List.nodup_cons.mp (by simpa using h.distinct)).2
  within := fun d' hd' => h.within d' (.tail _ hd')
  current := h.current

theorem Layout.perm {dirs' : List (Nat × List String)} (h : Layout v dirs)
    (hperm : dirs.Perm dirs') :
    Layout v dirs' where
  wellFormed := h.wellFormed
  distinct := (hperm.map Prod.fst).nodup_iff.mp h.distinct
  within := fun d hd => h.within d (hperm.mem_iff.mpr hd)
  current := h.current

theorem findChild_of_namesWithin (hv : WellFormed v) {p : Nat} {names : List String} {name : String}
    (hnames : NamesWithin v p names) (hname : name ∉ names) :
    ∃ dir children, v.inodes[p]? = some dir ∧ dir.kind = .directory children ∧
      v.findChild name children = some none := by
  obtain ⟨dir, children, hdir, hkind, hall⟩ := hnames
  refine ⟨dir, children, hdir, hkind, ?_⟩
  obtain ⟨found, hfound, hsome, -⟩ :=
    findChild_spec name (exists_children hv hdir hkind)
  cases found with
  | some c =>
    obtain ⟨hc, node, hnode, rfl⟩ := hsome c rfl
    exact absurd (hall c hc node hnode) hname
  | none => exact hfound

section Boot

variable {v : Vfs} {p : Nat} {names : List String} {dirs : List (Nat × List String)}
  {name : String}

theorem boot_addChild (hkind : Childless kind) (h : Layout v ((p, names) :: dirs))
    (hname : name ∉ names) :
    ∃ k v', v.addChild p name kind = some (.ok k, v') ∧
      Layout v' ((p, name :: names) :: dirs) ∧
      (kind = .directory [] → Layout v' ((p, name :: names) :: (k, []) :: dirs)) := by
  have hnames : NamesWithin v p names := h.within (p, names) (by simp)
  obtain ⟨dir, children, hdir, hdirKind, hall⟩ := id hnames
  have hfree : NameFree v children name := by
    rintro c hc node hnode rfl
    exact hname (hall c hc node hnode)
  obtain ⟨k, v', hadd, hadded⟩ := addChild_spec h.wellFormed hdir hdirKind name kind
  have hdistinct : p ∉ dirs.map Prod.fst ∧ (dirs.map Prod.fst).Nodup := by
    simpa using h.distinct
  have hother : ∀ d ∈ dirs, NamesWithin v' d.1 d.2 := by
    intro d hd
    refine hadded.namesWithin_other h.wellFormed ?_ (h.within d (.tail _ hd))
    rintro rfl
    exact hdistinct.1 (List.mem_map_of_mem hd)
  have hnew : ∀ d ∈ (p, names) :: dirs, d.1 ≠ k := by
    intro d hd
    obtain ⟨ddir, cs, hddir, hcs, -⟩ := h.within d hd
    exact hadded.ne_of_live hddir (by simp [hcs])
  have hlayout : Layout v' ((p, name :: names) :: dirs) := by
    refine ⟨hadded.wellFormed h.wellFormed hkind hfree, by simpa using h.distinct, ?_,
      hadded.current.trans h.current⟩
    intro d hd
    rcases List.mem_cons.mp hd with rfl | hd
    · exact hadded.namesWithin_parent h.wellFormed hnames
    · exact hother d hd
  refine ⟨k, v', hadd, hlayout, ?_⟩
  rintro rfl
  refine ⟨hlayout.wellFormed, ?_, ?_, hlayout.current⟩
  · have hk : k ∉ dirs.map Prod.fst := by
      intro hmem
      obtain ⟨d, hd, rfl⟩ := List.mem_map.mp hmem
      exact hnew d (.tail _ hd) rfl
    have hpk : p ≠ k := hnew (p, names) (by simp)
    simp only [List.map_cons, List.nodup_cons, List.mem_cons, not_or]
    exact ⟨⟨hpk, hdistinct.1⟩, hk, hdistinct.2⟩
  · intro d hd
    rcases List.mem_cons.mp hd with rfl | hd
    · exact hlayout.within _ (by simp)
    rcases List.mem_cons.mp hd with rfl | hd
    · exact ⟨_, [], hadded.new_eq, rfl, by simp⟩
    · exact hother d hd

theorem boot_mkdirAt (name : String) (h : Layout v ((p, names) :: dirs)) (hname : name ∉ names) :
    ∃ k v', v.mkdirAt p name = some (.ok k, v') ∧
      Layout v' ((p, name :: names) :: (k, []) :: dirs) := by
  obtain ⟨dir, children, hdir, hkind, hfound⟩ :=
    findChild_of_namesWithin h.wellFormed (h.within (p, names) (by simp)) hname
  obtain ⟨k, v', hadd, -, hboot⟩ := boot_addChild childless_directory h hname
  exact ⟨k, v', by simp [Vfs.mkdirAt, hdir, hkind, hfound, hadd], hboot rfl⟩

theorem boot_createFileAt (name : String) (content : List UInt8)
    (h : Layout v ((p, names) :: dirs)) (hname : name ∉ names) :
    ∃ k v', v.createFileAt p name content = some (.ok k, v') ∧
      Layout v' ((p, name :: names) :: dirs) := by
  obtain ⟨dir, children, hdir, hkind, hfound⟩ :=
    findChild_of_namesWithin h.wellFormed (h.within (p, names) (by simp)) hname
  obtain ⟨k, v', hadd, hboot, -⟩ := boot_addChild (childless_file content) h hname
  exact ⟨k, v', by simp [Vfs.createFileAt, hdir, hkind, hfound, hadd], hboot⟩

theorem boot_createSpecialAt (name : String) (hkind : Childless kind)
    (h : Layout v ((p, names) :: dirs)) (hname : name ∉ names) :
    ∃ k v', v.createSpecialAt p name kind = some (.ok k, v') ∧
      Layout v' ((p, name :: names) :: dirs) := by
  obtain ⟨k, v', hadd, hboot, -⟩ := boot_addChild hkind h hname
  obtain ⟨dir, children, hdir, hdirKind, -⟩ := h.within (p, names) (by simp)
  exact ⟨k, v', by simp [Vfs.createSpecialAt, hdir, hdirKind, hadd], hboot⟩

end Boot

theorem wellFormed_rootOnly : WellFormed rootOnly := by
  have hnode : ∀ (i : Nat) (node : Inode), rootOnly.inodes[i]? = some node →
      i = 0 ∧ node = ⟨0, 0, "/", .directory []⟩ := by
    intro i node h
    rcases i with _ | i
    · exact ⟨rfl, by simpa [rootOnly, eq_comm] using h⟩
    · simp [rootOnly] at h
  refine ⟨⟨_, [], rfl, rfl, rfl⟩, ?_, ?_, ?_, ⟨fun _ => 0, rfl, ?_⟩, ?_, ?_, ?_⟩
  · intro i node h _ hi
    exact absurd (hnode i node h).1 hi
  · intro d dir children h hkind c hc
    obtain ⟨-, rfl⟩ := hnode d dir h
    cases hkind
    simp at hc
  · intro d dir children h hkind c hc
    obtain ⟨-, rfl⟩ := hnode d dir h
    cases hkind
    simp at hc
  · intro i node h _ hi
    exact absurd (hnode i node h).1 hi
  · intro i node h _
    rw [(hnode i node h).2]
  · simp [rootOnly]
  · intro i
    constructor
    · simp [rootOnly]
    · rintro ⟨node, h, hkind⟩
      simp [(hnode i node h).2] at hkind

theorem layout_rootOnly : Layout rootOnly [(0, [])] where
  wellFormed := wellFormed_rootOnly
  distinct := by simp
  within := by
    intro d hd
    obtain rfl : d = (0, []) := by simpa using hd
    exact ⟨_, [], rfl, rfl, by simp⟩
  current := rfl

theorem bind_eq_some_of_eq {α β : Type} {x : Option α} {a : α} {f : α → Option β} {b : β}
    (hx : x = some a) (hf : f a = some b) : x >>= f = some b := by
  rw [hx]
  exact hf

theorem populate_spec (l : Layout v [(0, [])]) (images : SystemImages) (texts : SystemTexts) :
    ∃ v', v.populate images texts = some v' ∧ WellFormed v' ∧ v'.currentInode = 0 := by
  -- The five directories, the root's listing first.
  obtain ⟨etc, v₁, h₁, l⟩ := boot_mkdirAt "etc" l (by simp)
  obtain ⟨docs, v₂, h₂, l⟩ := boot_mkdirAt "docs" l (by simp)
  obtain ⟨bin, v₃, h₃, l⟩ := boot_mkdirAt "bin" l (by simp)
  obtain ⟨proc, v₄, h₄, l⟩ := boot_mkdirAt "proc" l (by simp)
  obtain ⟨dev, v₅, h₅, l⟩ := boot_mkdirAt "dev" l (by simp)
  have l : Layout v₅ [(bin, []), (etc, []), (docs, []), (proc, []), (dev, [])] :=
    (l.tail.perm (List.reverse_perm _).symm).perm
      (@List.perm_middle _ (bin, []) [(etc, []), (docs, [])] _)
  obtain ⟨_, v₆, h₆, l⟩ := boot_createFileAt "hello" images.hello l (by simp)
  obtain ⟨_, v₇, h₇, l⟩ := boot_createFileAt "counter" images.counter l (by simp)
  obtain ⟨_, v₈, h₈, l⟩ := boot_createFileAt "init" images.init l (by simp)
  obtain ⟨_, v₉, h₉, l⟩ := boot_createFileAt "hostname" texts.hostname l.tail (by simp)
  obtain ⟨_, v₁₀, h₁₀, l⟩ := boot_createFileAt "version" texts.version l (by simp)
  obtain ⟨_, v₁₁, h₁₁, l⟩ := boot_createFileAt "motd" texts.motd l (by simp)
  obtain ⟨_, v₁₂, h₁₂, l⟩ := boot_createFileAt "manifesto.txt" texts.manifesto l.tail (by simp)
  have hspecial (g : ProcGenerator) : Childless (.procFile g) := by simp [Childless]
  obtain ⟨_, v₁₃, h₁₃, l⟩ := boot_createSpecialAt "uptime" (hspecial .uptime) l.tail (by simp)
  obtain ⟨_, v₁₄, h₁₄, l⟩ := boot_createSpecialAt "meminfo" (hspecial .meminfo) l (by simp)
  obtain ⟨_, v₁₅, h₁₅, l⟩ := boot_createSpecialAt "cpuinfo" (hspecial .cpuinfo) l (by simp)
  obtain ⟨_, v₁₆, h₁₆, l⟩ := boot_createSpecialAt "tasks" (hspecial .tasks) l (by simp)
  have hnull : Childless .devNull := by simp [Childless]
  have hzero : Childless .devZero := by simp [Childless]
  have hrandom : Childless .devRandom := by simp [Childless]
  obtain ⟨_, v₁₇, h₁₇, l⟩ := boot_createSpecialAt "null" hnull l.tail (by simp)
  obtain ⟨_, v₁₈, h₁₈, l⟩ := boot_createSpecialAt "zero" hzero l (by simp)
  obtain ⟨_, v₁₉, h₁₉, l⟩ := boot_createSpecialAt "random" hrandom l (by simp)
  obtain ⟨_, v₂₀, h₂₀, l⟩ := boot_createSpecialAt "urandom" hrandom l (by simp)
  refine ⟨v₂₀, ?_, l.wellFormed, l.current⟩
  refine bind_eq_some_of_eq h₁ <| bind_eq_some_of_eq h₂ <| bind_eq_some_of_eq h₃ <|
    bind_eq_some_of_eq h₄ <| bind_eq_some_of_eq h₅ <| bind_eq_some_of_eq h₆ <|
    bind_eq_some_of_eq h₇ <| bind_eq_some_of_eq h₈ <| bind_eq_some_of_eq h₉ <|
    bind_eq_some_of_eq h₁₀ <| bind_eq_some_of_eq h₁₁ <| bind_eq_some_of_eq h₁₂ <|
    bind_eq_some_of_eq h₁₃ <| bind_eq_some_of_eq h₁₄ <| bind_eq_some_of_eq h₁₅ <|
    bind_eq_some_of_eq h₁₆ <| bind_eq_some_of_eq h₁₇ <| bind_eq_some_of_eq h₁₈ <|
    bind_eq_some_of_eq h₁₉ <| bind_eq_some_of_eq h₂₀ rfl

theorem init_spec (images : SystemImages) :
    ∃ v, Vfs.init images = some v ∧ WellFormed v ∧ v.currentInode = 0 :=
  populate_spec layout_rootOnly images systemTexts

theorem apply_spec (hv : WellFormed v) (call : Call) (hrange : call.argument < v.inodes.length) :
    ∃ v', v.apply call = some v' ∧ WellFormed v' := by
  cases call with
  | mkdirAt p name =>
    have hp : p < v.inodes.length := hrange
    rcases mkdirAt_spec hv hp name with
      ⟨e, h, -⟩ | ⟨k, v', dir, children, h, hadded, hname⟩
    · exact ⟨v, by simp [Vfs.apply, h], hv⟩
    · exact ⟨v', by simp [Vfs.apply, h], hadded.wellFormed hv childless_directory hname⟩
  | createFileAt p name content =>
    have hp : p < v.inodes.length := hrange
    rcases createFileAt_spec hv hp name content with
      ⟨e, h, -⟩ | ⟨c, child, old, -, hchild, -, hkind, h⟩ | ⟨k, v', dir, children, h, hadded, hname⟩
    · exact ⟨v, by simp [Vfs.apply, h], hv⟩
    · exact ⟨_, by rw [Vfs.apply, h]; rfl, wellFormed_of_overwrite hv hchild hkind content⟩
    · exact ⟨v', by simp [Vfs.apply, h], hadded.wellFormed hv (childless_file content) hname⟩
  | removeEntry t =>
    have ht : t < v.inodes.length := hrange
    rcases removeEntry_spec hv ht with ⟨e, h, -⟩ | ⟨v', p, dir, children, h, hremoved, -⟩
    · exact ⟨v, by simp [Vfs.apply, h], hv⟩
    · exact ⟨v', by simp [Vfs.apply, h], hremoved.wellFormed hv⟩

theorem argument_lt_of_apply (hv : WellFormed v) {call : Call} (h : v.apply call = some v') :
    call.argument < v.inodes.length := by
  by_contra hout
  have hnone : v.inodes[call.argument]? = none := by simpa using hout
  have hpos : 0 < v.inodes.length := by
    obtain ⟨node, -, hnode, -⟩ := hv.root
    exact (List.getElem?_eq_some_iff.mp hnode).1
  cases call with
  | mkdirAt p name => simp_all [Vfs.apply, Vfs.mkdirAt, Call.argument]
  | createFileAt p name content => simp_all [Vfs.apply, Vfs.createFileAt, Call.argument]
  | removeEntry t =>
    have ht0 : t ≠ 0 := by
      rintro rfl
      exact hout hpos
    obtain ⟨n, hn⟩ : ∃ n, v.inodes.length = n + 1 := ⟨_, (Nat.succ_pred_eq_of_pos hpos).symm⟩
    have hcollect : v.collectDescendants v.inodes.length t = none := by
      rw [hn]
      have htnone : v.inodes[t]? = none := hnone
      simp [Vfs.collectDescendants, htnone]
    simp [Vfs.apply, Vfs.removeEntry, ht0, hcollect] at h

theorem wellFormed_of_run {calls : List Call} (hv : WellFormed v)
    (hrun : calls.foldlM Vfs.apply v = some v') : WellFormed v' := by
  refine invariant_of_foldlM ?_ hv hrun
  intro w call w' hw hstep
  obtain ⟨w'', hstep', hw''⟩ := apply_spec hw call (argument_lt_of_apply hw hstep)
  rw [hstep] at hstep'
  cases hstep'
  exact hw''

structure RepresentationInvariant (v : Vfs) : Prop where
  root : ∃ node children, v.inodes[0]? = some node ∧ node.kind = .directory children ∧
    node.parentId = 0
  listed : ∀ (i : Nat) (node : Inode), v.inodes[i]? = some node → node.kind ≠ .tombstone → i ≠ 0 →
    ∃ parent children, v.inodes[node.parentId]? = some parent ∧
      parent.kind = .directory children ∧ children.count i = 1
  child : ∀ (d : Nat) (dir : Inode) children, v.inodes[d]? = some dir →
    dir.kind = .directory children → ∀ c ∈ children, ∃ node, v.inodes[c]? = some node ∧
      node.kind ≠ .tombstone ∧ node.parentId = d
  chain : ∀ i < v.inodes.length, ∃ k, v.parentOf^[k] i = 0
  names : ∀ (d : Nat) (dir : Inode) children, v.inodes[d]? = some dir →
    dir.kind = .directory children → (children.map fun c => v.inodes[c]?.map Inode.name).Nodup
  free : ∀ i, v.freeInodes.count i = if v.inodes[i]?.map Inode.kind = some .tombstone then 1 else 0

namespace WellFormed

variable {v : Vfs}

variable (hv : WellFormed v)
include hv

theorem chain_of_live {depth : Nat → Nat} (hd : IsDepth v depth) (hi : Live v i) :
    ∃ k, v.parentOf^[k] i = 0 := by
  suffices h : ∀ n i, depth i = n → Live v i → ∃ k, v.parentOf^[k] i = 0 from h (depth i) i rfl hi
  intro n
  induction n with
  | zero =>
    rintro i hi ⟨node, hnode, hkind⟩
    refine ⟨0, ?_⟩
    by_contra hi0
    have := hd.step i node hnode hkind hi0
    omega
  | succ n ih =>
    rintro i hi ⟨node, hnode, hkind⟩
    by_cases hi0 : i = 0
    · exact ⟨0, hi0⟩
    obtain ⟨parent, children, hp, hpkind, -⟩ := hv.listed i node hnode hkind hi0
    have hstep := hd.step i node hnode hkind hi0
    obtain ⟨k, hk⟩ := ih node.parentId (by omega) ⟨parent, hp, by simp [hpkind]⟩
    refine ⟨k + 1, ?_⟩
    simpa [Vfs.parentOf, hnode] using hk

theorem chain (hi : i < v.inodes.length) : ∃ k, v.parentOf^[k] i = 0 := by
  obtain ⟨node, hnode⟩ : ∃ node, v.inodes[i]? = some node := ⟨_, List.getElem?_eq_getElem hi⟩
  by_cases hkind : node.kind = .tombstone
  · exact ⟨1, by simp [Vfs.parentOf, hnode, hv.buried i node hnode hkind]⟩
  · obtain ⟨depth, hroot, hstep⟩ := hv.depth
    exact hv.chain_of_live ⟨hroot, hstep⟩ ⟨node, hnode, hkind⟩

theorem names_nodup {d : Nat} {dir : Inode} {children : List Nat}
    (hdir : v.inodes[d]? = some dir) (hkind : dir.kind = .directory children) :
    (children.map fun c => v.inodes[c]?.map Inode.name).Nodup := by
  refine (hv.children_nodup hdir hkind).map_on ?_
  intro c hc c' hc' heq
  obtain ⟨-, node, hnode, -⟩ := hv.child d dir children hdir hkind c hc
  obtain ⟨-, node', hnode', -⟩ := hv.child d dir children hdir hkind c' hc'
  exact hv.names d dir children hdir hkind c hc c' hc' node node' hnode hnode'
    (by simpa [hnode, hnode'] using heq)

theorem free_count (i : Nat) : v.freeInodes.count i =
    if v.inodes[i]?.map Inode.kind = some .tombstone then 1 else 0 := by
  have hiff : i ∈ v.freeInodes ↔ v.inodes[i]?.map Inode.kind = some .tombstone := by
    simpa using hv.free i
  split
  · rename_i h
    exact List.count_eq_one_of_mem hv.freeNodup (hiff.mpr h)
  · rename_i h
    exact List.count_eq_zero_of_not_mem fun hmem => h (hiff.mp hmem)

theorem representationInvariant : RepresentationInvariant v where
  root := hv.root
  listed := hv.listed
  child := fun d dir children hdir hkind c hc => (hv.child d dir children hdir hkind c hc).2
  chain := fun _ hi => hv.chain hi
  names := fun _ _ _ hdir hkind => hv.names_nodup hdir hkind
  free := hv.free_count

end WellFormed

/-- From `Vfs::init`, after any history of calls that did not index out of
range, the table satisfies its representation invariant and every further call
with an id in range returns. -/
theorem representationInvariant_of_history (images : SystemImages) :
    ∃ v₀, Vfs.init images = some v₀ ∧
      ∀ (calls : List Call) v, calls.foldlM Vfs.apply v₀ = some v →
        RepresentationInvariant v ∧
          ∀ call : Call, call.argument < v.inodes.length → ∃ v', v.apply call = some v' := by
  obtain ⟨v₀, hinit, hwf, -⟩ := init_spec images
  refine ⟨v₀, hinit, ?_⟩
  intro calls v hrun
  have hv := wellFormed_of_run hwf hrun
  refine ⟨hv.representationInvariant, ?_⟩
  intro call hrange
  obtain ⟨v', happly, -⟩ := apply_spec hv call hrange
  exact ⟨v', happly⟩

theorem representationInvariant_of_refused_removal :
    ∃ v₀ v, Vfs.init ⟨[], [], []⟩ = some v₀ ∧
      [Call.mkdirAt 0 "srv", .removeEntry 0].foldlM Vfs.apply v₀ = some v ∧
        RepresentationInvariant v := by
  obtain ⟨v₀, hinit, hall⟩ := representationInvariant_of_history ⟨[], [], []⟩
  have hroot : ∀ {v : Vfs}, RepresentationInvariant v → 0 < v.inodes.length := by
    intro v hv
    obtain ⟨node, -, hnode, -⟩ := hv.root
    exact (List.getElem?_eq_some_iff.mp hnode).1
  obtain ⟨hinv₀, hnext₀⟩ := hall [] v₀ rfl
  obtain ⟨v₁, hv₁⟩ := hnext₀ (.mkdirAt 0 "srv") (hroot hinv₀)
  obtain ⟨hinv₁, hnext₁⟩ := hall [.mkdirAt 0 "srv"] v₁ (by simp [hv₁])
  obtain ⟨v₂, hv₂⟩ := hnext₁ (.removeEntry 0) (hroot hinv₁)
  have hrun : [Call.mkdirAt 0 "srv", .removeEntry 0].foldlM Vfs.apply v₀ = some v₂ := by
    simp [hv₁, hv₂]
  exact ⟨v₀, v₂, hinit, hrun, (hall _ v₂ hrun).1⟩

end AuraOS.RamFileSystem
