import AuraOS.GuardedRuns
import AuraOS.RamFileSystem

namespace AuraOS.RamFileSystem

open GuardedRuns

variable {v : Vfs} {i d c a x : Nat} {node old dir : Inode} {children : List Nat}

/-- The directory `d` lists `c` among its children. -/
def Lists (v : Vfs) (d c : Nat) : Prop :=
  ∃ node children, v.inodes[d]? = some node ∧ node.kind = .directory children ∧ c ∈ children

def Live (v : Vfs) (i : Nat) : Prop :=
  ∃ node, v.inodes[i]? = some node ∧ node.kind ≠ .tombstone

structure WellFormed (v : Vfs) : Prop where
  root : ∃ node children, v.inodes[0]? = some node ∧ node.kind = .directory children ∧
    node.parentId = 0
  listed : ∀ (i : Nat) (node : Inode), v.inodes[i]? = some node → node.kind ≠ .tombstone → i ≠ 0 →
    ∃ parent children, v.inodes[node.parentId]? = some parent ∧
      parent.kind = .directory children ∧ children.count i = 1
  child : ∀ (d : Nat) (dir : Inode) children, v.inodes[d]? = some dir →
    dir.kind = .directory children →
    ∀ c ∈ children, c ≠ 0 ∧ ∃ node, v.inodes[c]? = some node ∧ node.kind ≠ .tombstone ∧
      node.parentId = d
  names : ∀ (d : Nat) (dir : Inode) children, v.inodes[d]? = some dir →
    dir.kind = .directory children →
    ∀ c ∈ children, ∀ c' ∈ children, ∀ node node' : Inode, v.inodes[c]? = some node →
      v.inodes[c']? = some node' → node.name = node'.name → c = c'
  depth : ∃ depth : Nat → Nat, depth 0 = 0 ∧ ∀ (i : Nat) (node : Inode), v.inodes[i]? = some node →
    node.kind ≠ .tombstone → i ≠ 0 → depth i = depth node.parentId + 1
  buried : ∀ (i : Nat) (node : Inode), v.inodes[i]? = some node → node.kind = .tombstone →
    node.parentId = 0
  freeNodup : v.freeInodes.Nodup
  free : ∀ i, i ∈ v.freeInodes ↔ ∃ node, v.inodes[i]? = some node ∧ node.kind = .tombstone

theorem setInode_of_getElem? (h : v.inodes[i]? = some old) :
    v.setInode i node = some { v with inodes := v.inodes.set i node } := by
  have hi : i < v.inodes.length := (List.getElem?_eq_some_iff.mp h).1
  simp [Vfs.setInode, hi]

theorem getElem?_set_inodes {j : Nat} (h : v.inodes[i]? = some old) :
    (v.inodes.set i node)[j]? = if j = i then some node else v.inodes[j]? := by
  have hi : i < v.inodes.length := (List.getElem?_eq_some_iff.mp h).1
  by_cases hij : i = j
  · subst hij
    simp [hi]
  · simp [hij, Ne.symm hij]

namespace WellFormed

variable {v : Vfs}

theorem live_root (hv : WellFormed v) : Live v 0 := by
  obtain ⟨node, children, hnode, hkind, -⟩ := hv.root
  exact ⟨node, hnode, by simp [hkind]⟩

theorem children_nodup (hv : WellFormed v) (hdir : v.inodes[d]? = some dir)
    (hkind : dir.kind = .directory children) : children.Nodup := by
  rw [List.nodup_iff_count_le_one]
  intro c
  by_cases hc : c ∈ children
  · obtain ⟨hc0, node, hnode, hlive, hparent⟩ := hv.child d dir children hdir hkind c hc
    obtain ⟨parent, siblings, hp, hpkind, hcount⟩ := hv.listed c node hnode hlive hc0
    rw [hparent, hdir] at hp
    cases hp
    rw [hkind] at hpkind
    cases hpkind
    omega
  · simp [List.count_eq_zero_of_not_mem hc]

theorem lists_live (hv : WellFormed v) (h : Lists v d c) : Live v c := by
  obtain ⟨dir, children, hdir, hkind, hc⟩ := h
  obtain ⟨-, node, hnode, hlive, -⟩ := hv.child d dir children hdir hkind c hc
  exact ⟨node, hnode, hlive⟩

end WellFormed

/-- The parent pointer of a slot, `0` outside the table. -/
def Vfs.parentOf (v : Vfs) (i : Nat) : Nat :=
  (v.inodes[i]?.map Inode.parentId).getD 0

def Vfs.nameOf (v : Vfs) (i : Nat) : String :=
  (v.inodes[i]?.map Inode.name).getD ""

theorem nameOf_eq (hnode : v.inodes[i]? = some node) : v.nameOf i = node.name := by
  simp [Vfs.nameOf, hnode]

/-- `x` lies in the subtree of `a`. -/
def Below (v : Vfs) (a x : Nat) : Prop :=
  Relation.ReflTransGen (Lists v) a x

section Depth

variable {v : Vfs} {depth : Nat → Nat}

/-- The properties of the depth function that `WellFormed.depth` provides. -/
structure IsDepth (v : Vfs) (depth : Nat → Nat) : Prop where
  root : depth 0 = 0
  step : ∀ (i : Nat) (node : Inode), v.inodes[i]? = some node → node.kind ≠ .tombstone → i ≠ 0 →
    depth i = depth node.parentId + 1

variable (hv : WellFormed v) (hd : IsDepth v depth)
include hv hd

theorem depth_lists (h : Lists v d c) : depth c = depth d + 1 ∧ v.parentOf c = d := by
  obtain ⟨dir, children, hdir, hkind, hc⟩ := h
  obtain ⟨hc0, node, hnode, hlive, hparent⟩ := hv.child d dir children hdir hkind c hc
  refine ⟨?_, by simp [Vfs.parentOf, hnode, hparent]⟩
  rw [hd.step c node hnode hlive hc0, hparent]

/-- An ancestor is found from below by following as many parent pointers as
the depths differ. -/
theorem iterate_parentOf_of_below (h : Below v a x) :
    depth a ≤ depth x ∧ v.parentOf^[depth x - depth a] x = a := by
  induction h with
  | refl => simp
  | @tail y x _ hyx ih =>
    obtain ⟨hdepth, hparent⟩ := depth_lists hv hd hyx
    refine ⟨by omega, ?_⟩
    have hsub : depth x - depth a = (depth y - depth a) + 1 := by omega
    rw [hsub, Function.iterate_succ_apply, hparent]
    exact ih.2

theorem below_eq_of_depth_eq {b : Nat} (ha : Below v a x)
    (hb : Below v b x) (hab : depth a = depth b) : a = b := by
  rw [← (iterate_parentOf_of_below hv hd ha).2, hab]
  exact (iterate_parentOf_of_below hv hd hb).2

theorem exists_live_at_depth (hi : Live v i) : ∀ k ≤ depth i, ∃ j, Live v j ∧ depth j = k := by
  suffices h : ∀ n i, depth i = n → Live v i → ∀ k ≤ n, ∃ j, Live v j ∧ depth j = k from
    h (depth i) i rfl hi
  intro n
  induction n with
  | zero =>
    intro i hi hlive k hk
    exact ⟨i, hlive, by omega⟩
  | succ n ih =>
    intro i hi hlive k hk
    by_cases hk' : k = n + 1
    · exact ⟨i, hlive, by omega⟩
    · obtain ⟨node, hnode, hkind⟩ := hlive
      have hi0 : i ≠ 0 := by
        rintro rfl
        have := hd.root
        omega
      have hstep := hd.step i node hnode hkind hi0
      obtain ⟨parent, children, hp, hpkind, -⟩ := hv.listed i node hnode hkind hi0
      exact ih node.parentId (by omega) ⟨parent, hp, by simp [hpkind]⟩ k (by omega)

/-- Depths stay below the number of slots: the ancestors of an inode occupy
slots of their own. -/
theorem depth_lt_length (hi : Live v i) : depth i < v.inodes.length := by
  have hsub : Finset.range (depth i + 1) ⊆ (Finset.range v.inodes.length).image depth := by
    intro k hk
    obtain ⟨j, ⟨node, hnode, -⟩, hj⟩ :=
      exists_live_at_depth hv hd hi k (by simpa [Nat.lt_succ_iff] using hk)
    exact Finset.mem_image.mpr ⟨j, Finset.mem_range.mpr (List.getElem?_eq_some_iff.mp hnode).1, hj⟩
  have hcard := (Finset.card_le_card hsub).trans Finset.card_image_le
  grind

omit hv hd in
theorem lists_iff_mem (hdir : v.inodes[d]? = some dir) (hkind : dir.kind = .directory children)
    (c : Nat) : Lists v d c ↔ c ∈ children := by
  constructor
  · rintro ⟨dir', children', hdir', hkind', hc⟩
    rw [hdir] at hdir'
    cases hdir'
    rw [hkind] at hkind'
    cases hkind'
    exact hc
  · exact fun hc => ⟨dir, children, hdir, hkind, hc⟩

theorem mem_subtree_iff : Below v d x ∧ x ≠ d ↔ ∃ c, Lists v d c ∧ Below v c x := by
  constructor
  · rintro ⟨hbelow, hne⟩
    rcases Relation.ReflTransGen.cases_head hbelow with rfl | ⟨c, hdc, hcx⟩
    · exact absurd rfl hne
    · exact ⟨c, hdc, hcx⟩
  · rintro ⟨c, hdc, hcx⟩
    refine ⟨Relation.ReflTransGen.head hdc hcx, ?_⟩
    rintro rfl
    have hdepth := (depth_lists hv hd hdc).1
    have hle := (iterate_parentOf_of_below hv hd hcx).1
    omega

end Depth

theorem not_below_of_lists (hv : WellFormed v) (h : Lists v d c) : ¬ Below v c d := by
  obtain ⟨depth, hroot, hstep⟩ := hv.depth
  have hd : IsDepth v depth := ⟨hroot, hstep⟩
  intro hb
  have hle := (iterate_parentOf_of_below hv hd hb).1
  have hlt := (depth_lists hv hd h).1
  omega

theorem mapM_eq_some_map {α β : Type*} {f : α → Option β} {g : α → β} {xs : List α}
    (h : ∀ x ∈ xs, f x = some (g x)) : xs.mapM f = some (xs.map g) := by
  induction xs with
  | nil => rfl
  | cons x xs ih =>
    simp [List.mapM_cons, h x (by simp), ih fun y hy => h y (by simp [hy])]

/-- With fuel for the levels that remain below an inode, the traversal returns
its proper descendants, each once. -/
theorem collectDescendants_spec {depth : Nat → Nat} (hv : WellFormed v) (hd : IsDepth v depth)
    (fuel i : Nat) (hi : Live v i) (hfuel : v.inodes.length ≤ fuel + depth i) :
    ∃ l, v.collectDescendants fuel i = some l ∧ l.Nodup ∧ ∀ x, x ∈ l ↔ Below v i x ∧ x ≠ i := by
  induction fuel generalizing i with
  | zero =>
    have := depth_lt_length hv hd hi
    omega
  | succ fuel ih =>
    obtain ⟨node, hnode, hkind⟩ := hi
    by_cases hdir : ∃ children, node.kind = .directory children
    · obtain ⟨children, hchildren⟩ := hdir
      have hlists := lists_iff_mem hnode hchildren
      have hsub : ∀ c ∈ children, ∃ l, v.collectDescendants fuel c = some l ∧ l.Nodup ∧
          ∀ x, x ∈ l ↔ Below v c x ∧ x ≠ c := by
        intro c hc
        have hic := (hlists c).mpr hc
        have := (depth_lists hv hd hic).1
        exact ih c (hv.lists_live hic) (by omega)
      choose! sub hcollect hnodup hmem using hsub
      have hpart : ∀ c ∈ children, ∀ x, x ∈ c :: sub c ↔ Below v c x := by
        intro c hc x
        rw [List.mem_cons, hmem c hc]
        constructor
        · rintro (rfl | h)
          · exact Relation.ReflTransGen.refl
          · exact h.1
        · intro h
          by_cases hx : x = c
          · exact .inl hx
          · exact .inr ⟨h, hx⟩
      refine ⟨(children.map fun c => c :: sub c).flatten, ?_, ?_, ?_⟩
      · have hmap : (children.mapM fun c =>
            (v.collectDescendants fuel c).map (c :: ·)) = some (children.map fun c => c :: sub c) :=
          mapM_eq_some_map fun c hc => by simp [hcollect c hc]
        simp [Vfs.collectDescendants, hnode, hchildren, hmap]
      · rw [List.nodup_flatten]
        refine ⟨?_, ?_⟩
        · simp only [List.mem_map, forall_exists_index, and_imp, forall_apply_eq_imp_iff₂]
          intro c hc
          refine List.nodup_cons.mpr ⟨fun h => ?_, hnodup c hc⟩
          exact ((hmem c hc c).mp h).2 rfl
        · rw [List.pairwise_map]
          refine (hv.children_nodup hnode hchildren).imp_of_mem ?_
          intro c c' hc hc' hne x hx hx'
          rw [hpart c hc] at hx
          rw [hpart c' hc'] at hx'
          have hdc := (depth_lists hv hd ((hlists c).mpr hc)).1
          have hdc' := (depth_lists hv hd ((hlists c').mpr hc')).1
          exact hne (below_eq_of_depth_eq hv hd hx hx' (by omega))
      · intro x
        rw [mem_subtree_iff hv hd, List.mem_flatten]
        constructor
        · rintro ⟨part, hp, hx⟩
          obtain ⟨c, hc, rfl⟩ := List.mem_map.mp hp
          exact ⟨c, (hlists c).mpr hc, (hpart c hc x).mp hx⟩
        · rintro ⟨c, hc, hx⟩
          have hc' := (hlists c).mp hc
          exact ⟨_, List.mem_map.mpr ⟨c, hc', rfl⟩, (hpart c hc' x).mpr hx⟩
    · have hnone : ∀ c, ¬ Lists v i c := by
        rintro c ⟨node', children, hnode', hkind', -⟩
        rw [hnode] at hnode'
        cases hnode'
        exact hdir ⟨children, hkind'⟩
      refine ⟨[], ?_, List.nodup_nil, ?_⟩
      · cases hk : node.kind with
        | directory children => exact absurd ⟨children, hk⟩ hdir
        | _ => simp [Vfs.collectDescendants, hnode, hk]
      · intro x
        rw [mem_subtree_iff hv hd]
        simp [hnone]

end AuraOS.RamFileSystem
