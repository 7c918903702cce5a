import AuraOS.RamFileSystemInvariant

namespace AuraOS.RamFileSystem

variable {v : Vfs} {i : Nat} {node : Inode}

def tombstoneOf (node : Inode) : Inode :=
  { node with kind := .tombstone, name := "", parentId := 0 }

theorem buryAll_spec {ids : List Nat} (hnodup : ids.Nodup)
    (hids : ∀ i ∈ ids, ∃ node, v.inodes[i]? = some node) :
    ∃ v', v.buryAll ids = some v' ∧ v'.freeInodes = ids.reverse ++ v.freeInodes ∧
      v'.currentInode = v.currentInode ∧ ∀ i, v'.inodes[i]? =
        if i ∈ ids then (v.inodes[i]?).map tombstoneOf else v.inodes[i]? := by
  induction ids generalizing v with
  | nil => exact ⟨v, rfl, rfl, rfl, by simp⟩
  | cons id rest ih =>
    obtain ⟨node, hnode⟩ := hids id (by simp)
    obtain ⟨hid, hrest⟩ := List.nodup_cons.mp hnodup
    let w : Vfs := { v with
      inodes := v.inodes.set id (tombstoneOf node), freeInodes := id :: v.freeInodes }
    have hw : ∀ i, w.inodes[i]? = if i = id then some (tombstoneOf node) else v.inodes[i]? :=
      fun i => getElem?_set_inodes hnode
    obtain ⟨v', hbury, hfree, hcur, hinodes⟩ := ih (v := w) hrest (by
      intro i hi
      obtain ⟨node', hnode'⟩ := hids i (by simp [hi])
      rw [hw]
      split
      · exact ⟨_, rfl⟩
      · exact ⟨node', hnode'⟩)
    refine ⟨v', ?_, by simp [hfree, w], hcur, ?_⟩
    · simp only [Vfs.buryAll, hnode, Option.bind_eq_bind, Option.bind_some]
      rw [setInode_of_getElem? hnode]
      exact hbury
    · intro i
      rw [hinodes, hw]
      by_cases hi : i = id
      · subst hi
        simp [hid, hnode]
      · simp [hi]

/-- The effect of a successful `remove_entry` of `t`, listed in directory `p`. -/
structure EntryRemoved (v v' : Vfs) (t p : Nat) (dir : Inode) (children : List Nat) :
    Prop where
  target_ne : t ≠ 0
  dir_eq : v.inodes[p]? = some dir
  dir_kind : dir.kind = .directory children
  target_mem : t ∈ children
  buried : ∀ i, Below v t i →
    ∃ node, v.inodes[i]? = some node ∧ v'.inodes[i]? = some (tombstoneOf node)
  parent_eq : v'.inodes[p]? = some { dir with kind := .directory (children.erase t) }
  frame : ∀ i, ¬ Below v t i → i ≠ p → v'.inodes[i]? = v.inodes[i]?
  freeNodup : v'.freeInodes.Nodup
  free : ∀ i, i ∈ v'.freeInodes ↔ i ∈ v.freeInodes ∨ Below v t i

theorem live_of_below (hv : WellFormed v) {a x : Nat} (ha : Live v a) (h : Below v a x) :
    Live v x := by
  induction h with
  | refl => exact ha
  | tail _ hyx _ => exact hv.lists_live hyx

theorem removeEntry_spec (hv : WellFormed v) {t : Nat} (ht : t < v.inodes.length) :
    (∃ e, v.removeEntry t = some (.error e, v) ∧ (t = 0 ∨ ¬ Live v t)) ∨
      ∃ v' p dir children, v.removeEntry t = some (.ok (), v') ∧
        EntryRemoved v v' t p dir children ∧ v'.currentInode = v.currentInode := by
  by_cases ht0 : t = 0
  · exact .inl ⟨.rootProtected, by simp [Vfs.removeEntry, ht0], .inl ht0⟩
  obtain ⟨target, htarget⟩ : ∃ target, v.inodes[t]? = some target :=
    ⟨_, List.getElem?_eq_getElem ht⟩
  by_cases htomb : target.kind = .tombstone
  · left
    obtain ⟨root, cs, hroot, hcs, -⟩ := hv.root
    have hcollect : v.collectDescendants v.inodes.length t = some [] := by
      obtain ⟨n, hn⟩ := Nat.exists_eq_succ_of_ne_zero (Nat.ne_zero_of_lt ht)
      rw [hn]
      simp [Vfs.collectDescendants, htarget, htomb]
    have hnot : t ∉ cs := by
      intro hmem
      obtain ⟨-, node, hnode, hlive, -⟩ := hv.child 0 root cs hroot hcs t hmem
      rw [htarget] at hnode
      cases hnode
      exact hlive htomb
    refine ⟨.notFound, ?_, .inr ?_⟩
    · simp [Vfs.removeEntry, ht0, hcollect, htarget, hv.buried t target htarget htomb, hroot,
        hcs, hnot]
    · rintro ⟨node, hnode, hlive⟩
      rw [htarget] at hnode
      cases hnode
      exact hlive htomb
  right
  obtain ⟨depth, hd0, hdstep⟩ := hv.depth
  have hd : IsDepth v depth := ⟨hd0, hdstep⟩
  have hlive : Live v t := ⟨target, htarget, htomb⟩
  obtain ⟨dir, children, hdir, hkind, hcount⟩ := hv.listed t target htarget htomb ht0
  have hmem : t ∈ children := List.count_pos_iff.mp (by omega)
  obtain ⟨l, hcollect, hlnodup, hl⟩ :=
    collectDescendants_spec hv hd v.inodes.length t hlive (by omega)
  have hall : ∀ i, i ∈ l ++ [t] ↔ Below v t i := by
    intro i
    rw [List.mem_append, hl, List.mem_singleton]
    constructor
    · rintro (h | rfl)
      · exact h.1
      · exact Relation.ReflTransGen.refl
    · intro h
      by_cases hi : i = t
      · exact .inr hi
      · exact .inl ⟨h, hi⟩
  have hnodup : (l ++ [t]).Nodup := by
    rw [List.nodup_append]
    refine ⟨hlnodup, List.nodup_singleton t, ?_⟩
    rintro i hi j hj rfl
    exact ((hl i).mp hi).2 (by simpa using hj)
  have hnotp : ¬ Below v t target.parentId := by
    intro h
    have hle := (iterate_parentOf_of_below hv hd h).1
    have := hd.step t target htarget htomb ht0
    omega
  let dir' : Inode := { dir with kind := .directory (children.erase t) }
  let w : Vfs := { v with inodes := v.inodes.set target.parentId dir' }
  have hw : ∀ i, w.inodes[i]? = if i = target.parentId then some dir' else v.inodes[i]? :=
    fun i => getElem?_set_inodes hdir
  obtain ⟨v', hbury, hfree, hcur, hinodes⟩ := buryAll_spec (v := w) hnodup (by
    intro i hi
    obtain ⟨node, hnode, -⟩ := live_of_below hv hlive ((hall i).mp hi)
    rw [hw]
    split
    · exact ⟨_, rfl⟩
    · exact ⟨node, hnode⟩)
  refine ⟨v', target.parentId, dir, children, ?_, ?_, hcur⟩
  · have hset : v.setInode target.parentId dir' = some w := setInode_of_getElem? hdir
    simp only [Vfs.removeEntry, ht0, if_false, hcollect, htarget, hdir, hkind, hmem, if_true,
      Option.bind_eq_bind, Option.bind_some]
    rw [hset]
    simp [hbury]
  · refine ⟨ht0, hdir, hkind, hmem, ?_, ?_, ?_, ?_, ?_⟩
    · intro i hi
      obtain ⟨node, hnode, -⟩ := live_of_below hv hlive hi
      have hip : i ≠ target.parentId := fun h => hnotp (h ▸ hi)
      exact ⟨node, hnode, by simp [hinodes, (hall i).mpr hi, hw, hip, hnode]⟩
    · have hp : target.parentId ∉ l ++ [t] := fun h => hnotp ((hall _).mp h)
      simp [hinodes, hp, hw, dir']
    · intro i hi hip
      have hi' : i ∉ l ++ [t] := fun h => hi ((hall _).mp h)
      simp [hinodes, hi', hw, hip]
    · rw [hfree, List.nodup_append]
      refine ⟨List.nodup_reverse.mpr hnodup, hv.freeNodup, ?_⟩
      rintro i hi j hj rfl
      obtain ⟨node, hnode, hlive'⟩ :=
        live_of_below hv hlive ((hall i).mp (List.mem_reverse.mp hi))
      obtain ⟨node', hnode', htomb'⟩ := (hv.free i).mp hj
      rw [hnode] at hnode'
      cases hnode'
      exact hlive' htomb'
    · intro i
      rw [hfree, List.mem_append, List.mem_reverse, hall]
      exact or_comm

namespace EntryRemoved

variable {v v' : Vfs} {t p : Nat} {dir : Inode} {children : List Nat}

variable (h : EntryRemoved v v' t p dir children)
include h

theorem target_listed : Lists v p t :=
  ⟨dir, children, h.dir_eq, h.dir_kind, h.target_mem⟩

variable (hv : WellFormed v)
include hv

theorem not_below_parent : ¬ Below v t p :=
  not_below_of_lists hv h.target_listed

/-- Membership in the removed subtree is inherited from the parent, except for
the target itself. -/
theorem below_of_lists {d c : Nat} (hdc : Lists v d c) : Below v t c ↔ c = t ∨ Below v t d := by
  constructor
  · intro hb
    rcases Relation.ReflTransGen.cases_tail hb with hct | ⟨d', hd', hd'c⟩
    · exact .inl hct
    · obtain ⟨depth, hd0, hdstep⟩ := hv.depth
      have hd : IsDepth v depth := ⟨hd0, hdstep⟩
      have h₁ := (depth_lists hv hd hdc).2
      have h₂ := (depth_lists hv hd hd'c).2
      exact .inr (by rw [← h₁, h₂]; exact hd')
  · rintro (rfl | hb)
    · exact Relation.ReflTransGen.refl
    · exact hb.tail hdc

omit hv in
theorem exists_old (hnode : v'.inodes[i]? = some node) (hlive : node.kind ≠ .tombstone) :
    ¬ Below v t i ∧ ∃ old, v.inodes[i]? = some old ∧ node.name = old.name ∧
      node.parentId = old.parentId ∧ old.kind ≠ .tombstone := by
  have hnb : ¬ Below v t i := by
    intro hb
    obtain ⟨old, -, hnew⟩ := h.buried i hb
    rw [hnode] at hnew
    cases hnew
    exact hlive rfl
  refine ⟨hnb, ?_⟩
  by_cases hip : i = p
  · subst hip
    rw [h.parent_eq] at hnode
    cases hnode
    exact ⟨dir, h.dir_eq, rfl, rfl, by simp [h.dir_kind]⟩
  · rw [h.frame i hnb hip] at hnode
    exact ⟨node, hnode, rfl, rfl, hlive⟩

theorem lists_iff (d c : Nat) : Lists v' d c ↔ Lists v d c ∧ ¬ Below v t c := by
  by_cases hdb : Below v t d
  · obtain ⟨old, hold, hnew⟩ := h.buried d hdb
    constructor
    · rintro ⟨node, cs, hnode, hcs, -⟩
      rw [hnew] at hnode
      cases hnode
      simp [tombstoneOf] at hcs
    · rintro ⟨hdc, hnb⟩
      exact absurd (hdb.tail hdc) hnb
  · by_cases hdp : d = p
    · subst hdp
      have hnodup := hv.children_nodup h.dir_eq h.dir_kind
      rw [lists_iff_mem h.parent_eq rfl, hnodup.mem_erase_iff]
      constructor
      · rintro ⟨hne, hc⟩
        have hdc := (lists_iff_mem h.dir_eq h.dir_kind c).mpr hc
        exact ⟨hdc, fun hb => ((h.below_of_lists hv hdc).mp hb).elim hne hdb⟩
      · rintro ⟨hdc, hnb⟩
        refine ⟨?_, (lists_iff_mem h.dir_eq h.dir_kind c).mp hdc⟩
        rintro rfl
        exact hnb Relation.ReflTransGen.refl
    · have hsame : Lists v' d c ↔ Lists v d c := by simp [Lists, h.frame d hdb hdp]
      rw [hsame]
      refine ⟨fun hdc => ⟨hdc, fun hb => ?_⟩, And.left⟩
      rcases (h.below_of_lists hv hdc).mp hb with rfl | hb
      · obtain ⟨depth, hd0, hdstep⟩ := hv.depth
        have hd : IsDepth v depth := ⟨hd0, hdstep⟩
        exact hdp ((depth_lists hv hd hdc).2.symm.trans (depth_lists hv hd h.target_listed).2)
      · exact hdb hb

omit hv in
theorem survives (hnode : v.inodes[i]? = some node)
    (hlive : node.kind ≠ .tombstone) (hnb : ¬ Below v t i) :
    ∃ new, v'.inodes[i]? = some new ∧ new.name = node.name ∧
      new.parentId = node.parentId ∧ new.kind ≠ .tombstone := by
  by_cases hip : i = p
  · subst hip
    rw [h.dir_eq] at hnode
    cases hnode
    exact ⟨_, h.parent_eq, rfl, rfl, by simp⟩
  · exact ⟨node, by rw [h.frame i hnb hip, hnode], rfl, rfl, hlive⟩

theorem wellFormed_listed
    (hnode : v'.inodes[i]? = some node) (hlive : node.kind ≠ .tombstone) (hi0 : i ≠ 0) :
    ∃ parent cs, v'.inodes[node.parentId]? = some parent ∧ parent.kind = .directory cs ∧
      cs.count i = 1 := by
  obtain ⟨hnb, old, hold, -, hparent, hlive₀⟩ := h.exists_old hnode hlive
  obtain ⟨par, cs, hpar, hcs, hcount⟩ := hv.listed i old hold hlive₀ hi0
  have hmem : i ∈ cs := List.count_pos_iff.mp (by omega)
  have hnbp : ¬ Below v t old.parentId := fun hb => hnb (hb.tail ⟨par, cs, hpar, hcs, hmem⟩)
  rw [hparent]
  by_cases hq : old.parentId = p
  · rw [hq] at hpar ⊢
    rw [h.dir_eq] at hpar
    cases hpar
    rw [h.dir_kind] at hcs
    cases hcs
    have hit : i ≠ t := by
      rintro rfl
      exact hnb Relation.ReflTransGen.refl
    exact ⟨_, _, h.parent_eq, rfl, by rw [List.count_erase_of_ne hit, hcount]⟩
  · exact ⟨par, cs, by rw [h.frame _ hnbp hq, hpar], hcs, hcount⟩

theorem wellFormed_buried
    (hnode : v'.inodes[i]? = some node) (htomb : node.kind = .tombstone) : node.parentId = 0 := by
  by_cases hb : Below v t i
  · obtain ⟨old, -, hnew⟩ := h.buried i hb
    rw [hnode] at hnew
    cases hnew
    rfl
  · by_cases hip : i = p
    · subst hip
      rw [h.parent_eq] at hnode
      cases hnode
      simp at htomb
    · rw [h.frame i hb hip] at hnode
      exact hv.buried i node hnode htomb

omit hv in
theorem wellFormed_free (hv : WellFormed v) (i : Nat) :
    i ∈ v'.freeInodes ↔ ∃ node, v'.inodes[i]? = some node ∧ node.kind = .tombstone := by
  rw [h.free]
  by_cases hb : Below v t i
  · obtain ⟨old, -, hnew⟩ := h.buried i hb
    simp [hb, hnew, tombstoneOf]
  · by_cases hip : i = p
    · subst hip
      simp [hb, h.parent_eq, hv.free, h.dir_eq, h.dir_kind]
    · simp [hb, h.frame i hb hip, hv.free]

theorem wellFormed : WellFormed v' where
  root := by
    obtain ⟨node, cs, hnode, hcs, hparent⟩ := hv.root
    have hnb : ¬ Below v t 0 := by
      intro hb
      rcases Relation.ReflTransGen.cases_tail hb with h0 | ⟨d, -, dnode, ds, hdnode, hds, h0⟩
      · exact h.target_ne h0.symm
      · exact (hv.child d dnode ds hdnode hds 0 h0).1 rfl
    by_cases hp0 : 0 = p
    · subst hp0
      rw [h.dir_eq] at hnode
      cases hnode
      exact ⟨_, _, h.parent_eq, rfl, hparent⟩
    · exact ⟨node, cs, by rw [h.frame 0 hnb hp0, hnode], hcs, hparent⟩
  listed _ _ hnode hlive hi0 := h.wellFormed_listed hv hnode hlive hi0
  child := by
    intro d dnode cs hdnode hcs c hc
    obtain ⟨hdc, hnb⟩ := (h.lists_iff hv d c).mp ⟨dnode, cs, hdnode, hcs, hc⟩
    obtain ⟨old, olds, hold, holds, hmem⟩ := hdc
    obtain ⟨hc0, node, hnode, hlive, hparent⟩ := hv.child d old olds hold holds c hmem
    obtain ⟨new, hnew, -, hparent', hlive'⟩ := h.survives hnode hlive hnb
    exact ⟨hc0, new, hnew, hlive', hparent'.trans hparent⟩
  names := by
    intro d dnode cs hdnode hcs c hc c' hc' node node' hnode hnode' heq
    obtain ⟨hdc, hnb⟩ := (h.lists_iff hv d c).mp ⟨dnode, cs, hdnode, hcs, hc⟩
    obtain ⟨hdc', hnb'⟩ := (h.lists_iff hv d c').mp ⟨dnode, cs, hdnode, hcs, hc'⟩
    obtain ⟨n, hn, hlive⟩ := hv.lists_live hdc
    obtain ⟨n', hn', hlive'⟩ := hv.lists_live hdc'
    obtain ⟨new, hnew, hname, -⟩ := h.survives hn hlive hnb
    obtain ⟨new', hnew', hname', -⟩ := h.survives hn' hlive' hnb'
    rw [hnode] at hnew
    rw [hnode'] at hnew'
    cases hnew
    cases hnew'
    obtain ⟨old, olds, hold, holds, hmem⟩ := hdc
    exact hv.names d old olds hold holds c hmem c' ((lists_iff_mem hold holds c').mp hdc')
      n n' hn hn' (by rw [← hname, ← hname', heq])
  depth := by
    obtain ⟨depth, hroot, hstep⟩ := hv.depth
    refine ⟨depth, hroot, ?_⟩
    intro i node hnode hlive hi0
    obtain ⟨-, old, hold, -, hparent, hlive₀⟩ := h.exists_old hnode hlive
    rw [hparent]
    exact hstep i old hold hlive₀ hi0
  buried _ _ hnode htomb := h.wellFormed_buried hv hnode htomb
  freeNodup := h.freeNodup
  free := h.wellFormed_free hv

end EntryRemoved

end AuraOS.RamFileSystem
