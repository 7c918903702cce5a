import AuraOS.RamFileSystemHistory

namespace AuraOS.RamFileSystem

open GuardedRuns

variable {i p k t : Nat} {node dir : Inode} {name : String} {kind : InodeKind}
  {result : Except VfsError Nat} {children : List Nat} {command : Command} {state : Option Vfs}

/-- `char::is_whitespace`. -/
def isWhitespace (c : Char) : Bool :=
  let n := c.toNat
  (9 ≤ n && n ≤ 13) || n = 0x20 || n = 0x85 || n = 0xA0 || n = 0x1680 ||
    (0x2000 ≤ n && n ≤ 0x200A) || n = 0x2028 || n = 0x2029 || n = 0x202F || n = 0x205F ||
    n = 0x3000

/-- `str::trim`. -/
def trim (text : List Char) : List Char :=
  ((text.dropWhile isWhitespace).reverse.dropWhile isWhitespace).reverse

/-- The loop of `resolve_path` over the segments. -/
def Vfs.resolveFrom (v : Vfs) : Nat → List (List Char) → Option (Except VfsError Nat)
  | curr, [] => some (.ok curr)
  | curr, segment :: rest =>
    if segment = [] ∨ segment = ['.'] then v.resolveFrom curr rest
    else if segment = ['.', '.'] then do
      let node ← v.inodes[curr]?
      v.resolveFrom node.parentId rest
    else do
      let node ← v.inodes[curr]?
      match node.kind with
      | .directory children =>
        match ← v.findChild (String.ofList segment) children with
        | some id => v.resolveFrom id rest
        | none => return .error .notFound
      | _ => return .error .notADirectory

def Vfs.resolvePath (v : Vfs) (path : String) : Option (Except VfsError Nat) :=
  match trim path.toList with
  | [] => some (.ok v.currentInode)
  | '/' :: stripped => v.resolveFrom 0 (stripped.splitOn '/')
  | trimmed => v.resolveFrom v.currentInode (trimmed.splitOn '/')

/-- `vfs_is_dir`. -/
def Vfs.isDir (v : Vfs) (id : Nat) : Bool :=
  v.inodes[id]?.any fun node =>
    match node.kind with
    | .directory _ => true
    | _ => false

inductive Command where
  | cd (target : Option String)
  | mkdir (name : String)
  | touch (name : String)
  | write (name : String) (content : List UInt8)
  | rm (path : String)
  deriving DecidableEq, Repr

/-- `Shell::execute`; `none` when the command panics. -/
def Vfs.execute (v : Vfs) : Command → Option Vfs
  | .cd target => do
      match ← v.resolvePath (target.getD "/") with
      | .ok id => if v.isDir id then return { v with currentInode := id } else return v
      | .error _ => return v
  | .mkdir name =>
    if name = "" then some v else (v.mkdirAt v.currentInode name).map Prod.snd
  | .touch name =>
    if name = "" then some v else (v.createFileAt v.currentInode name []).map Prod.snd
  | .write name content => (v.createFileAt v.currentInode name content).map Prod.snd
  | .rm path =>
    if path = "" then some v
    else do
      match ← v.resolvePath path with
      | .ok targetId => (v.removeEntry targetId).map Prod.snd
      | .error _ => return v

def shellStep (state : Option Vfs) (command : Command) : Option Vfs :=
  state.bind fun v => v.execute command

def shellAfter (state : Option Vfs) (commands : List Command) : Option Vfs :=
  commands.foldl shellStep state

def AtDirectory (v : Vfs) : Prop :=
  ∃ node children, v.inodes[v.currentInode]? = some node ∧ node.kind = .directory children

def ShellAtDirectory (state : Option Vfs) : Prop :=
  ∃ v, state = some v ∧ AtDirectory v

def SameDirectory (state state' : Option Vfs) : Prop :=
  ∃ v v', state = some v ∧ state' = some v' ∧ v'.currentInode = v.currentInode ∧
    v'.nameOf v.currentInode = v.nameOf v.currentInode ∧
    v'.parentOf v.currentInode = v.parentOf v.currentInode

def KeepsWorkingDirectory (state : Option Vfs) (command : Command) : Prop :=
  ∀ v path targetId, state = some v → command = .rm path → path ≠ "" →
    v.resolvePath path = some (.ok targetId) → targetId ≠ 0 → ¬ Below v targetId v.currentInode

def Command.isCd : Command → Bool
  | .cd _ => true
  | _ => false

theorem isDir_iff {v : Vfs} {id : Nat} :
    v.isDir id = true ↔ ∃ node children, v.inodes[id]? = some node ∧
      node.kind = .directory children := by
  simp only [Vfs.isDir, Option.any_eq_true]
  constructor
  · rintro ⟨node, hnode, hdir⟩
    split at hdir
    · rename_i children hkind
      exact ⟨node, children, hnode, hkind⟩
    · cases hdir
  · rintro ⟨node, children, hnode, hkind⟩
    exact ⟨node, hnode, by simp [hkind]⟩

section Resolution

variable {v : Vfs}

theorem parentId_lt (hv : WellFormed v) (hnode : v.inodes[i]? = some node) :
    node.parentId < v.inodes.length := by
  have hroot : 0 < v.inodes.length := by
    obtain ⟨root, -, hroot, -⟩ := hv.root
    exact (List.getElem?_eq_some_iff.mp hroot).1
  by_cases hkind : node.kind = .tombstone
  · rw [hv.buried i node hnode hkind]
    exact hroot
  by_cases hi : i = 0
  · obtain ⟨root, children, hroot', -, hparent⟩ := hv.root
    rw [hi, hroot'] at hnode
    cases hnode
    rw [hparent]
    exact hroot
  · obtain ⟨parent, children, hparent, -⟩ := hv.listed i node hnode hkind hi
    exact (List.getElem?_eq_some_iff.mp hparent).1

theorem resolveFrom_spec (hv : WellFormed v) {curr : Nat} (hcurr : curr < v.inodes.length)
    (segments : List (List Char)) :
    (∃ e, v.resolveFrom curr segments = some (.error e)) ∨
      ∃ id < v.inodes.length, v.resolveFrom curr segments = some (.ok id) := by
  induction segments generalizing curr with
  | nil => exact .inr ⟨curr, hcurr, rfl⟩
  | cons segment rest ih =>
    obtain ⟨node, hnode⟩ : ∃ node, v.inodes[curr]? = some node :=
      ⟨_, List.getElem?_eq_getElem hcurr⟩
    simp only [Vfs.resolveFrom, hnode, Option.bind_eq_bind, Option.bind_some]
    split
    · exact ih hcurr
    split
    · exact ih (parentId_lt hv hnode)
    split
    · rename_i children hkind
      obtain ⟨found, hfound, hsome, -⟩ :=
        findChild_spec (String.ofList segment) (exists_children hv hnode hkind)
      rw [hfound]
      cases found with
      | some id =>
        obtain ⟨-, child, hchild, -⟩ := hsome id rfl
        exact ih (List.getElem?_eq_some_iff.mp hchild).1
      | none => exact .inl ⟨_, rfl⟩
    · exact .inl ⟨_, rfl⟩

theorem resolvePath_spec (hv : WellFormed v) (hcurr : v.currentInode < v.inodes.length)
    (path : String) :
    (∃ e, v.resolvePath path = some (.error e)) ∨
      ∃ id < v.inodes.length, v.resolvePath path = some (.ok id) := by
  have hroot : 0 < v.inodes.length := by
    obtain ⟨root, -, hroot, -⟩ := hv.root
    exact (List.getElem?_eq_some_iff.mp hroot).1
  simp only [Vfs.resolvePath]
  split
  · exact .inr ⟨_, hcurr, rfl⟩
  · exact resolveFrom_spec hv hroot _
  · exact resolveFrom_spec hv hcurr _

end Resolution

section Steps

variable {v v' : Vfs}

structure StaysAt (v v' : Vfs) : Prop where
  wellFormed : WellFormed v'
  current : v'.currentInode = v.currentInode
  directory : AtDirectory v'
  name : v'.nameOf v.currentInode = v.nameOf v.currentInode
  parent : v'.parentOf v.currentInode = v.parentOf v.currentInode

theorem staysAt_of_node (hv' : WellFormed v') (hcurrent : v'.currentInode = v.currentInode)
    {node' : Inode} (hnode : v.inodes[v.currentInode]? = some node)
    (hnode' : v'.inodes[v.currentInode]? = some node') (hkind : node'.kind = .directory children)
    (hname : node'.name = node.name) (hparent : node'.parentId = node.parentId) : StaysAt v v' := by
  refine ⟨hv', hcurrent, ⟨node', children, hcurrent ▸ hnode', hkind⟩, ?_, ?_⟩
  · rw [nameOf_eq hnode', nameOf_eq hnode, hname]
  · simp [Vfs.parentOf, hnode, hnode', hparent]

theorem StaysAt.refl (hv : WellFormed v) (hat : AtDirectory v) : StaysAt v v :=
  ⟨hv, rfl, hat, rfl, rfl⟩

theorem currentInode_lt (hat : AtDirectory v) : v.currentInode < v.inodes.length := by
  obtain ⟨node, -, hnode, -⟩ := hat
  exact (List.getElem?_eq_some_iff.mp hnode).1

theorem ChildAdded.staysAt (h : ChildAdded v v' v.currentInode k name kind dir children)
    (hv' : WellFormed v') : StaysAt v v' :=
  staysAt_of_node hv' h.current h.dir_eq h.parent_eq rfl rfl rfl

variable (hv : WellFormed v) (hat : AtDirectory v)
include hv hat

theorem mkdirAt_staysAt (name : String) :
    ∃ v', (v.mkdirAt v.currentInode name).map Prod.snd = some v' ∧ StaysAt v v' := by
  rcases mkdirAt_spec hv (currentInode_lt hat) name with
    ⟨e, h, -⟩ | ⟨k, v', dir, children, h, hadded, hname⟩
  · exact ⟨v, by rw [h]; rfl, .refl hv hat⟩
  · exact ⟨v', by rw [h]; rfl, hadded.staysAt (hadded.wellFormed hv childless_directory hname)⟩

theorem createFileAt_staysAt (name : String) (content : List UInt8) :
    ∃ v', (v.createFileAt v.currentInode name content).map Prod.snd = some v' ∧ StaysAt v v' := by
  rcases createFileAt_spec hv (currentInode_lt hat) name content with
    ⟨e, h, -⟩ | ⟨c, child, old, -, hchild, -, hkind, h⟩ | ⟨k, v', dir, children, h, hadded, hname⟩
  · exact ⟨v, by rw [h]; rfl, .refl hv hat⟩
  · refine ⟨_, by rw [h]; rfl, ?_⟩
    obtain ⟨node, children, hnode, hdir⟩ := hat
    obtain ⟨node', hnode', hname, hparent, -, hkept⟩ := overwrite_kept hchild hkind content hnode
    exact staysAt_of_node (wellFormed_of_overwrite hv hchild hkind content) rfl hnode hnode'
      (hkept children hdir) hname hparent
  · exact ⟨v', by rw [h]; rfl, hadded.staysAt (hadded.wellFormed hv (childless_file content) hname)⟩

theorem EntryRemoved.staysAt (h : EntryRemoved v v' t p dir children)
    (hcurrent : v'.currentInode = v.currentInode) (hkeeps : ¬ Below v t v.currentInode) :
    StaysAt v v' := by
  obtain ⟨node, siblings, hnode, hkind⟩ := hat
  by_cases hp : v.currentInode = p
  · have hnode' : v'.inodes[v.currentInode]? =
        some { dir with kind := .directory (children.erase t) } := by
      rw [hp]
      exact h.parent_eq
    have hdir : v.inodes[v.currentInode]? = some dir := by
      rw [hp]
      exact h.dir_eq
    exact staysAt_of_node (h.wellFormed hv) hcurrent hdir hnode' rfl rfl rfl
  · exact staysAt_of_node (h.wellFormed hv) hcurrent hnode
      ((h.frame _ hkeeps hp).trans hnode) hkind rfl rfl

theorem execute_staysAt (hcd : command.isCd = false)
    (hkeeps : KeepsWorkingDirectory (some v) command) :
    ∃ v', v.execute command = some v' ∧ StaysAt v v' := by
  cases command with
  | cd target => cases hcd
  | mkdir name =>
    simp only [Vfs.execute]
    split
    · exact ⟨v, rfl, .refl hv hat⟩
    · exact mkdirAt_staysAt hv hat name
  | touch name =>
    simp only [Vfs.execute]
    split
    · exact ⟨v, rfl, .refl hv hat⟩
    · exact createFileAt_staysAt hv hat name []
  | write name content => exact createFileAt_staysAt hv hat name content
  | rm path =>
    simp only [Vfs.execute]
    split
    · exact ⟨v, rfl, .refl hv hat⟩
    rename_i hpath
    rcases resolvePath_spec hv (currentInode_lt hat) path with ⟨e, hresolve⟩ | ⟨t, ht, hresolve⟩
    · rw [hresolve]
      exact ⟨v, rfl, .refl hv hat⟩
    rw [hresolve]
    rcases removeEntry_spec hv ht with
      ⟨e, hrefused, -⟩ | ⟨v', p, dir, children, hdone, hremoved, hcurrent⟩
    · exact ⟨v, by simp [hrefused], .refl hv hat⟩
    · exact ⟨v', by simp [hdone], hremoved.staysAt hv hat hcurrent
        (hkeeps v path t rfl rfl hpath hresolve hremoved.target_ne)⟩

theorem execute_cd (target : Option String) :
    ∃ v', v.execute (.cd target) = some v' ∧ WellFormed v' ∧ AtDirectory v' := by
  simp only [Vfs.execute]
  rcases resolvePath_spec hv (currentInode_lt hat) (target.getD "/") with
    ⟨e, hresolve⟩ | ⟨id, -, hresolve⟩
  · rw [hresolve]
    exact ⟨v, rfl, hv, hat⟩
  rw [hresolve]
  by_cases hdir : v.isDir id = true
  · refine ⟨{ v with currentInode := id }, by simp [hdir],
      ⟨hv.root, hv.listed, hv.child, hv.names, hv.depth, hv.buried, hv.freeNodup, hv.free⟩, ?_⟩
    exact isDir_iff.mp hdir
  · exact ⟨v, by simp [hdir], hv, hat⟩

theorem execute_buries {path : String} (hpath : path ≠ "")
    (hresolve : v.resolvePath path = some (.ok t)) (ht0 : t ≠ 0)
    (hbelow : Below v t v.currentInode) :
    ∃ v', v.execute (.rm path) = some v' ∧ ¬ AtDirectory v' := by
  have ht : t < v.inodes.length := by
    rcases resolvePath_spec hv (currentInode_lt hat) path with ⟨e, herror⟩ | ⟨id, hid, hok⟩
    · rw [hresolve] at herror
      cases herror
    · rw [hresolve] at hok
      cases hok
      exact hid
  have hlive : Live v t := by
    rcases Relation.ReflTransGen.cases_head hbelow with
      heq | ⟨c, ⟨dir, children, hdir, hkind, -⟩, -⟩
    · obtain ⟨node, children, hnode, hkind⟩ := hat
      exact ⟨node, heq ▸ hnode, by simp [hkind]⟩
    · exact ⟨dir, hdir, by simp [hkind]⟩
  rcases removeEntry_spec hv ht with
    ⟨e, -, hroot | hdead⟩ | ⟨v', p, dir, children, hdone, hremoved, hcurrent⟩
  · exact absurd hroot ht0
  · exact absurd hlive hdead
  refine ⟨v', ?_, ?_⟩
  · simp [Vfs.execute, hpath, hresolve, hdone]
  · rintro ⟨node, siblings, hnode, hkind⟩
    obtain ⟨old, -, hburied⟩ := hremoved.buried _ hbelow
    rw [hcurrent, hburied] at hnode
    cases hnode
    cases hkind

end Steps

def ShellInvariant (state : Option Vfs) : Prop :=
  ∃ v, state = some v ∧ WellFormed v ∧ AtDirectory v

theorem shellInvariant_step (h : ShellInvariant state)
    (hkeeps : KeepsWorkingDirectory state command) : ShellInvariant (shellStep state command) := by
  obtain ⟨v, rfl, hv, hat⟩ := h
  cases hcd : command.isCd with
  | false =>
    obtain ⟨v', hexecute, hstays⟩ := execute_staysAt hv hat hcd hkeeps
    exact ⟨v', hexecute, hstays.wellFormed, hstays.directory⟩
  | true =>
    cases command with
    | cd target => exact execute_cd hv hat target
    | _ => cases hcd

theorem keepsWorkingDirectory_of_step (h : ShellInvariant state)
    (hat' : ShellAtDirectory (shellStep state command)) : KeepsWorkingDirectory state command := by
  obtain ⟨v, rfl, hv, hat⟩ := h
  rintro w path t hw rfl hpath hresolve ht0 hbelow
  cases hw
  obtain ⟨v', hexecute, hnot⟩ := execute_buries hv hat hpath hresolve ht0 hbelow
  obtain ⟨w', hw', hdir⟩ := hat'
  have hsame : some v' = some w' := hexecute.symm.trans hw'
  cases hsame
  exact hnot hdir

theorem sameDirectory_step (h : ShellInvariant state) (hkeeps : KeepsWorkingDirectory state command)
    (hcd : command.isCd = false) : SameDirectory state (shellStep state command) := by
  obtain ⟨v, rfl, hv, hat⟩ := h
  obtain ⟨v', hexecute, hstays⟩ := execute_staysAt hv hat hcd hkeeps
  exact ⟨v, v', rfl, hexecute, hstays.current, hstays.name, hstays.parent⟩

theorem SameDirectory.trans {s s' s'' : Option Vfs} (h : SameDirectory s s')
    (h' : SameDirectory s' s'') : SameDirectory s s'' := by
  obtain ⟨v, v', rfl, rfl, hcurrent, hname, hparent⟩ := h
  obtain ⟨w, v'', hw, rfl, hcurrent', hname', hparent'⟩ := h'
  cases hw
  rw [hcurrent] at hcurrent' hname' hparent'
  exact ⟨v, v'', rfl, rfl, hcurrent', hname'.trans hname, hparent'.trans hparent⟩

theorem sameDirectory_run {commands : List Command} (h : ShellInvariant state)
    (hkeeps : Guarded shellStep KeepsWorkingDirectory state commands)
    (hcd : ∀ command ∈ commands, command.isCd = false) :
    SameDirectory state (shellAfter state commands) := by
  induction commands generalizing state with
  | nil =>
    obtain ⟨v, rfl, -⟩ := h
    exact ⟨v, v, rfl, rfl, rfl, rfl, rfl⟩
  | cons command rest ih =>
    have hstep := sameDirectory_step h hkeeps.1 (hcd command (.head _))
    exact hstep.trans (ih (shellInvariant_step h hkeeps.1) hkeeps.2 fun c hc => hcd c (.tail _ hc))

theorem shellInvariant_init (images : SystemImages) : ShellInvariant (Vfs.init images) := by
  obtain ⟨v, hinit, hv, hcurrent⟩ := init_spec images
  obtain ⟨root, children, hroot, hkind, -⟩ := hv.root
  exact ⟨v, hinit, hv, root, children, hcurrent ▸ hroot, hkind⟩

/-- From `Vfs::init`, in every state of the shell the working directory is a directory of
the tree, the same since the last `cd`, exactly if no `rm` removes the working directory or
a directory above it. -/
theorem working_directory_iff (images : SystemImages) (commands : List Command) :
    Guarded shellStep KeepsWorkingDirectory (Vfs.init images) commands ↔
      ∀ k, ShellAtDirectory (shellAfter (Vfs.init images) (commands.take k)) ∧
        ∀ j ≤ k, (∀ command ∈ (commands.take k).drop j, command.isCd = false) →
          SameDirectory (shellAfter (Vfs.init images) (commands.take j))
            (shellAfter (Vfs.init images) (commands.take k)) := by
  have hexact : Guarded shellStep KeepsWorkingDirectory (Vfs.init images) commands ↔
      ∀ k, ShellAtDirectory (shellAfter (Vfs.init images) (commands.take k)) :=
    guarded_iff_forall_take (fun _ _ h hkeeps => shellInvariant_step h hkeeps)
      (fun _ ⟨v, hv, _, hat⟩ => ⟨v, hv, hat⟩) (fun _ _ h => keepsWorkingDirectory_of_step h)
      (shellInvariant_init images)
  constructor
  · intro hguarded k
    refine ⟨hexact.mp hguarded k, fun j hjk hcd => ?_⟩
    have hsplit : commands.take k = commands.take j ++ (commands.take k).drop j := by
      have happend := List.take_append_drop j (commands.take k)
      rw [List.take_take, Nat.min_eq_left hjk] at happend
      exact happend.symm
    have hboth : Guarded shellStep KeepsWorkingDirectory (Vfs.init images) (commands.take j) ∧
        Guarded shellStep KeepsWorkingDirectory
          (shellAfter (Vfs.init images) (commands.take j)) ((commands.take k).drop j) := by
      rw [← List.take_append_drop k commands, guarded_append, hsplit, guarded_append] at hguarded
      exact hguarded.1
    have hinv := invariant_of_guarded (fun _ _ h hkeeps => shellInvariant_step h hkeeps)
      (shellInvariant_init images) hboth.1
    have hsame := sameDirectory_run hinv hboth.2 hcd
    have hafter : shellAfter (Vfs.init images) (commands.take k) =
        shellAfter (shellAfter (Vfs.init images) (commands.take j)) ((commands.take k).drop j) :=
      (congrArg (shellAfter _) hsplit).trans List.foldl_append
    rw [hafter]
    exact hsame
  · exact fun h => hexact.mpr fun k => (h k).1

/-- A directory is made, entered and removed from within. -/
theorem working_directory_buried :
    (shellAfter (Vfs.init ⟨[], [], []⟩) [.mkdir "d", .cd (some "d"), .rm "."]).map
      (fun v => (v.currentInode, v.inodes[v.currentInode]?.map Inode.kind)) =
        some (21, some .tombstone) := by
  decide +kernel

end AuraOS.RamFileSystem
