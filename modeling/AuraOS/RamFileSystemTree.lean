import AuraOS.NamedTrees
import AuraOS.RamFileSystemInvariant

namespace AuraOS.RamFileSystem

open NamedTrees

variable {i d x y : Nat} {node : Inode} {children : List Nat} {path : List String}

inductive Leaf where
  | file (content : List UInt8)
  | pseudo
  deriving DecidableEq, Repr

def Vfs.treeOf (v : Vfs) : Nat → Nat → NamedTree Leaf
  | 0, _ => .leaf .pseudo
  | fuel + 1, i =>
    match v.inodes[i]?.map Inode.kind with
    | some (.directory children) =>
      .node (children.map fun c => (v.nameOf c, v.treeOf fuel c))
    | some (.file content) => .leaf (.file content)
    | _ => .leaf .pseudo

def Vfs.subtree (v : Vfs) (i : Nat) : NamedTree Leaf :=
  v.treeOf v.inodes.length i

def Vfs.tree (v : Vfs) : NamedTree Leaf :=
  v.subtree 0

/-- The segments that the loop of `get_path` collects, innermost first. -/
def Vfs.segments (v : Vfs) : Nat → Nat → List String
  | 0, _ => []
  | fuel + 1, i => if i = 0 then [] else v.nameOf i :: v.segments fuel (v.parentOf i)

def Vfs.pathOf (v : Vfs) (i : Nat) : List String :=
  (v.segments v.inodes.length i).reverse

section Equations

variable {v : Vfs} {depth : Nat → Nat}

theorem treeOf_directory {fuel : Nat} (hnode : v.inodes[i]? = some node)
    (hkind : node.kind = .directory children) :
    v.treeOf (fuel + 1) i = .node (children.map fun c => (v.nameOf c, v.treeOf fuel c)) := by
  simp [Vfs.treeOf, hnode, hkind]

theorem treeOf_fuel (hv : WellFormed v) (hd : IsDepth v depth) (fuel fuel' : Nat) (hi : Live v i)
    (hfuel : v.inodes.length ≤ fuel + depth i) (hfuel' : v.inodes.length ≤ fuel' + depth i) :
    v.treeOf fuel i = v.treeOf fuel' i := by
  have hlt := depth_lt_length hv hd hi
  induction fuel generalizing fuel' i with
  | zero => omega
  | succ fuel ih =>
    obtain ⟨fuel', rfl⟩ : ∃ n, fuel' = n + 1 := ⟨fuel' - 1, by omega⟩
    obtain ⟨node, hnode, hkind⟩ := hi
    cases hk : node.kind with
    | directory children =>
      rw [treeOf_directory hnode hk, treeOf_directory hnode hk]
      congr 1
      refine List.map_congr_left ?_
      intro c hc
      have hlists : Lists v i c := ⟨node, children, hnode, hk, hc⟩
      have hdepth := (depth_lists hv hd hlists).1
      have hlive := hv.lists_live hlists
      rw [ih fuel' hlive (by omega) (by omega) (depth_lt_length hv hd hlive)]
    | _ => simp [Vfs.treeOf, hnode, hk]

theorem exists_length_eq_succ (hnode : v.inodes[i]? = some node) :
    ∃ n, v.inodes.length = n + 1 :=
  Nat.exists_eq_succ_of_ne_zero
    (Nat.ne_zero_of_lt (List.getElem?_eq_some_iff.mp hnode).1)

theorem subtree_directory (hv : WellFormed v) (hnode : v.inodes[i]? = some node)
    (hkind : node.kind = .directory children) :
    v.subtree i = .node (children.map fun c => (v.nameOf c, v.subtree c)) := by
  obtain ⟨depth, hroot, hstep⟩ := hv.depth
  have hd : IsDepth v depth := ⟨hroot, hstep⟩
  obtain ⟨n, hn⟩ := exists_length_eq_succ hnode
  rw [Vfs.subtree, hn, treeOf_directory hnode hkind]
  congr 1
  refine List.map_congr_left ?_
  intro c hc
  have hlists : Lists v i c := ⟨node, children, hnode, hkind, hc⟩
  have hdepth := (depth_lists hv hd hlists).1
  rw [Vfs.subtree, treeOf_fuel hv hd n v.inodes.length (hv.lists_live hlists) (by omega) (by omega)]

theorem subtree_file {content : List UInt8} (hnode : v.inodes[i]? = some node)
    (hkind : node.kind = .file content) : v.subtree i = .leaf (.file content) := by
  obtain ⟨n, hn⟩ := exists_length_eq_succ hnode
  simp [Vfs.subtree, hn, Vfs.treeOf, hnode, hkind]

theorem subtree_pseudo (hnode : v.inodes[i]? = some node)
    (hdir : ∀ children, node.kind ≠ .directory children)
    (hfile : ∀ content, node.kind ≠ .file content) : v.subtree i = .leaf .pseudo := by
  obtain ⟨n, hn⟩ := exists_length_eq_succ hnode
  cases hk : node.kind with
  | directory children => exact absurd hk (hdir children)
  | file content => exact absurd hk (hfile content)
  | _ => simp [Vfs.subtree, hn, Vfs.treeOf, hnode, hk]

theorem exists_directory_of_subtree (hv : WellFormed v) (hi : Live v i)
    {kids : List (String × NamedTree Leaf)} (h : v.subtree i = .node kids) :
    ∃ node children, v.inodes[i]? = some node ∧ node.kind = .directory children ∧
      kids = children.map fun c => (v.nameOf c, v.subtree c) := by
  obtain ⟨node, hnode, hlive⟩ := hi
  cases hk : node.kind with
  | directory children =>
    rw [subtree_directory hv hnode hk] at h
    exact ⟨node, children, hnode, hk, (NamedTree.node.inj h).symm⟩
  | file content =>
    rw [subtree_file hnode hk] at h
    cases h
  | _ =>
    rw [subtree_pseudo hnode (by simp [hk]) (by simp [hk])] at h
    cases h

theorem nameOf_nodup (hv : WellFormed v) {dir : Inode} (hdir : v.inodes[d]? = some dir)
    (hkind : dir.kind = .directory children) : (children.map v.nameOf).Nodup := by
  refine (hv.children_nodup hdir hkind).map_on ?_
  intro c hc c' hc' heq
  obtain ⟨-, node, hnode, -⟩ := hv.child d dir children hdir hkind c hc
  obtain ⟨-, node', hnode', -⟩ := hv.child d dir children hdir hkind c' hc'
  rw [nameOf_eq hnode, nameOf_eq hnode'] at heq
  exact hv.names d dir children hdir hkind c hc c' hc' node node' hnode hnode' heq

end Equations

inductive Walk (v : Vfs) : Nat → List String → Nat → Prop where
  | nil (i : Nat) : Walk v i [] i
  | cons {d c y : Nat} {path : List String} (hlists : Lists v d c) (hwalk : Walk v c path y) :
      Walk v d (v.nameOf c :: path) y

namespace Walk

variable {v : Vfs} {depth : Nat → Nat}

theorem snoc {c : Nat} (h : Walk v x path d) (hlists : Lists v d c) :
    Walk v x (path ++ [v.nameOf c]) c := by
  induction h with
  | nil d => exact cons hlists (nil c)
  | cons hfirst _ ih => exact cons hfirst (ih hlists)

theorem toBelow (h : Walk v x path y) : Below v x y := by
  induction h with
  | nil i => exact Relation.ReflTransGen.refl
  | cons hlists _ ih => exact Relation.ReflTransGen.head hlists ih

theorem find_subtree (hv : WellFormed v) (h : Walk v x path y) :
    (v.subtree x).find path = some (v.subtree y) := by
  induction h with
  | nil i => simp [NamedTree.find]
  | @cons d c y path hlists _ ih =>
    obtain ⟨node, children, hnode, hkind, hc⟩ := hlists
    rw [subtree_directory hv hnode hkind, find_node_map (nameOf_nodup hv hnode hkind) hc]
    exact ih

theorem of_segments (hv : WellFormed v) (hd : IsDepth v depth) (fuel : Nat) (hi : Live v i)
    (hfuel : depth i < fuel) : Walk v 0 (v.segments fuel i).reverse i := by
  induction fuel generalizing i with
  | zero => omega
  | succ fuel ih =>
    by_cases hi0 : i = 0
    · subst hi0
      simpa [Vfs.segments] using nil 0
    · obtain ⟨node, hnode, hkind⟩ := hi
      obtain ⟨parent, children, hp, hpkind, hcount⟩ := hv.listed i node hnode hkind hi0
      have hstep := hd.step i node hnode hkind hi0
      have hlists : Lists v node.parentId i :=
        ⟨parent, children, hp, hpkind, List.one_le_count_iff.mp (by omega)⟩
      have hparent : v.parentOf i = node.parentId := by simp [Vfs.parentOf, hnode]
      have hup := ih (i := node.parentId) ⟨parent, hp, by simp [hpkind]⟩ (by omega)
      simpa [Vfs.segments, hi0, hparent] using hup.snoc hlists

end Walk

section Paths

variable {v : Vfs}

theorem walk_pathOf (hv : WellFormed v) (hi : Live v i) : Walk v 0 (v.pathOf i) i := by
  obtain ⟨depth, hroot, hstep⟩ := hv.depth
  have hd : IsDepth v depth := ⟨hroot, hstep⟩
  exact Walk.of_segments hv hd v.inodes.length hi (depth_lt_length hv hd hi)

theorem find_pathOf (hv : WellFormed v) (hi : Live v i) :
    v.tree.find (v.pathOf i) = some (v.subtree i) :=
  (walk_pathOf hv hi).find_subtree hv

end Paths

/-- A change confined to the record of `p`, as far as the kept inodes are
concerned; `kept` is closed under children except at `p`. -/
structure ChangedAt (v v' : Vfs) (p : Nat) (kept : Nat → Prop) : Prop where
  live : ∀ x, kept x → Live v x
  closed : ∀ x c, kept x → x ≠ p → Lists v x c → kept c
  frame : ∀ x, kept x → x ≠ p → v'.inodes[x]? = v.inodes[x]?
  name : v'.nameOf p = v.nameOf p

namespace ChangedAt

variable {v v' : Vfs} {p : Nat} {kept : Nat → Prop}

theorem nameOf_eq (h : ChangedAt v v' p kept) (hx : kept x) : v'.nameOf x = v.nameOf x := by
  by_cases hxp : x = p
  · rw [hxp, h.name]
  · simp [Vfs.nameOf, h.frame x hx hxp]

theorem subtree_eq_of_depth {depth : Nat → Nat} (hv : WellFormed v) (hd : IsDepth v depth)
    (hv' : WellFormed v') (h : ChangedAt v v' p kept) (n : Nat) (hx : kept x) (hp : ¬ Below v x p)
    (hn : v.inodes.length ≤ n + depth x) : v'.subtree x = v.subtree x := by
  have hlt := depth_lt_length hv hd (h.live x hx)
  induction n generalizing x with
  | zero => omega
  | succ n ih =>
    have hxp : x ≠ p := by
      rintro rfl
      exact hp Relation.ReflTransGen.refl
    have hframe := h.frame x hx hxp
    obtain ⟨node, hnode, hlive⟩ := h.live x hx
    have hnode' : v'.inodes[x]? = some node := by rw [hframe, hnode]
    cases hk : node.kind with
    | directory children =>
      rw [subtree_directory hv hnode hk, subtree_directory hv' hnode' hk]
      congr 1
      refine List.map_congr_left ?_
      intro c hc
      have hlists : Lists v x c := ⟨node, children, hnode, hk, hc⟩
      have hdepth := (depth_lists hv hd hlists).1
      have hkept := h.closed x c hx hxp hlists
      rw [h.nameOf_eq hkept,
        ih hkept (fun hb => hp (Relation.ReflTransGen.head hlists hb)) (by omega)
          (depth_lt_length hv hd (h.live c hkept))]
    | file content => rw [subtree_file hnode hk, subtree_file hnode' hk]
    | _ =>
      rw [subtree_pseudo hnode (by simp [hk]) (by simp [hk]),
        subtree_pseudo hnode' (by simp [hk]) (by simp [hk])]

theorem subtree_eq (hv : WellFormed v) (hv' : WellFormed v') (h : ChangedAt v v' p kept)
    (hx : kept x) (hp : ¬ Below v x p) : v'.subtree x = v.subtree x := by
  obtain ⟨depth, hroot, hstep⟩ := hv.depth
  exact h.subtree_eq_of_depth hv ⟨hroot, hstep⟩ hv' v.inodes.length hx hp (by omega)

theorem subtree_graft (hv : WellFormed v) (hv' : WellFormed v') (h : ChangedAt v v' p kept)
    (hx : kept x) (hwalk : Walk v x path p) :
    v'.subtree x = (v.subtree x).graft path (v'.subtree p) := by
  obtain ⟨depth, hroot, hstep⟩ := hv.depth
  have hd : IsDepth v depth := ⟨hroot, hstep⟩
  induction hwalk with
  | nil i => simp [NamedTree.graft]
  | @cons d c y path hlists hwalk ih =>
    have hbelow := hwalk.toBelow
    have hdc := (depth_lists hv hd hlists).1
    have hcp := (iterate_parentOf_of_below hv hd hbelow).1
    have hne : d ≠ y := by
      rintro rfl
      omega
    obtain ⟨node, children, hnode, hkind, hc⟩ := id hlists
    have hnode' : v'.inodes[d]? = some node := by rw [h.frame d hx hne, hnode]
    have hkept : ∀ i ∈ children, kept i := fun i hi =>
      h.closed d i hx hne ⟨node, children, hnode, hkind, hi⟩
    have hnames : (children.map fun i => (v'.nameOf i, v'.subtree i)) =
        children.map fun i => (v.nameOf i, v'.subtree i) :=
      List.map_congr_left fun i hi => by rw [h.nameOf_eq (hkept i hi)]
    rw [subtree_directory hv hnode hkind, subtree_directory hv' hnode' hkind, hnames]
    refine graft_node_map (nameOf_nodup hv hnode hkind) hc ?_ (ih h (hkept c hc))
    -- A sibling of `c` cannot have `p` below it too.
    intro i hi hic
    refine h.subtree_eq hv hv' (hkept i hi) fun hb => hic ?_
    have hdi := (depth_lists hv hd ⟨node, children, hnode, hkind, hi⟩).1
    exact below_eq_of_depth_eq hv hd hb hbelow (by omega)

end ChangedAt

end AuraOS.RamFileSystem
