import AuraOS.PathTrees
import AuraOS.UserSpace

/-!
The tables of one address space as a tree.  A path of table indices names the
frame it leads to: one to three indices a table below the PML4, four indices the
data frame of a page.  Below the entries that the space copied from the kernel
there is nothing of its own, so they are not part of the tree.
-/

namespace AuraOS.UserSpace

open PathTrees PhysicalFrames PageTables

variable {t : Nat} {i : Fin 512}

/-- The two kernel tables that a new space copies, the PML4 and the PDPT behind its
first entry, as `init_hardware_mappings` leaves them: for the supervisor only, and
with nothing between 1 GiB and 3 GiB. -/
structure KernelTables where
  pml4 : Fin 512 → BitVec 64
  pdpt : Fin 512 → BitVec 64
  first : isPresent (pml4 0) = true
  window : ∀ j, j = 1 ∨ j = 2 → isPresent (pdpt j) = false
  pml4Supervisor : ∀ i ≠ 0, hasFlag (pml4 i) userAccessible = false
  pdptSupervisor : ∀ j, hasFlag (pdpt j) userAccessible = false

abbrev TableTree := PathTree (Fin 512) Nat

def path (virt : Nat) : List (Fin 512) :=
  [tableIndex 3 virt, tableIndex 2 virt, tableIndex 1 virt, tableIndex 0 virt]

def KernelTables.Own (kern : KernelTables) : List (Fin 512) → Prop
  | [] => True
  | [i] => i = 0 ∨ isPresent (kern.pml4 i) = false
  | i :: j :: _ => isPresent (kern.pml4 i) = false ∨ i = 0 ∧ isPresent (kern.pdpt j) = false

/-- A page that neither the kernel's PML4 nor its first PDPT maps anything for. -/
def KernelTables.Private (kern : KernelTables) (virt : Nat) : Prop :=
  kern.Own (path virt)

section Paths

variable {kern : KernelTables}

theorem own_take (virt : Nat) (h : kern.Private virt) (depth : Nat) :
    kern.Own ((path virt).take depth) := by
  match depth with
  | 0 => trivial
  | 1 => exact (show _ ∨ _ from h).elim .inr fun h => .inl h.1
  | _ + 2 => exact h

theorem private_of_path {v w : Nat} (h : path w = path v) (hpriv : kern.Private v) :
    kern.Private w := by
  rw [KernelTables.Private, h]
  exact hpriv

theorem path_take (level : Nat) (h : level ≤ 3) (virt : Nat) :
    (path virt).take (4 - level) = (path virt).take (3 - level) ++ [tableIndex level virt] := by
  match level with
  | 0 | 1 | 2 | 3 => rfl

theorem path_eq (virt : Nat) : path virt = (path virt).take 3 ++ [tableIndex 0 virt] := rfl

theorem length_take_path {depth : Nat} (h : depth ≤ 4) (virt : Nat) :
    ((path virt).take depth).length = depth := by
  simpa [path] using h

theorem private_of_window {virt : Nat} (h : 0x40000000 ≤ virt ∧ virt < 0xC0000000) :
    kern.Private virt := by
  have hfirst : tableIndex 3 virt = 0 := by
    refine Fin.ext ?_
    simp only [tableIndex, Fin.val_ofNat, Fin.val_zero]
    omega
  refine .inr ⟨hfirst, kern.window _ ?_⟩
  have hslot : (tableIndex 2 virt).val = virt / 2 ^ 30 % 512 := rfl
  have hval : (tableIndex 2 virt).val = 1 ∨ (tableIndex 2 virt).val = 2 := by omega
  exact hval.imp Fin.ext Fin.ext

end Paths

/-- What a table holds at a slot, by the tree: nothing present, a table, or at the
last level a page. -/
def EntryFor (depth : Nat) (entry : BitVec 64) : Option Nat → Prop
  | none => isPresent entry = false
  | some a =>
    if depth < 3 then entry = makeEntry a tableFlags
    else ∃ writable, entry = makeEntry a (pageFlags writable)

/-- The memory below a root table is the tree together with the kernel's entries. -/
structure Represents (mem : Mem) (kern : KernelTables) (root : Nat) (tree : TableTree) :
    Prop where
  atRoot : tree.node [] = some root
  pdpt : (tree.node [0]).isSome
  depth : ∀ path, (tree.node path).isSome → path.length ≤ 4
  entry : ∀ path t i, tree.node path = some t → path.length < 4 → kern.Own (path ++ [i]) →
    EntryFor path.length (mem t i) (tree.node (path ++ [i]))
  sharedRoot : ∀ i ≠ 0, isPresent (kern.pml4 i) = true → mem root i = kern.pml4 i
  sharedPdpt : ∀ t j, tree.node [0] = some t → isPresent (kern.pdpt j) = true →
    mem t j = kern.pdpt j

section Represents

variable {mem mem' : Mem} {kern : KernelTables} {root : Nat} {tree tree' : TableTree}

theorem Represents.congr (h : Represents mem kern root tree)
    (hsame : ∀ path t, tree.node path = some t → path.length < 4 → ∀ i, mem' t i = mem t i) :
    Represents mem' kern root tree := by
  refine ⟨h.atRoot, h.pdpt, h.depth, ?_, ?_, ?_⟩
  · intro path t i ht hlen hown
    rw [hsame path t ht hlen]
    exact h.entry path t i ht hlen hown
  · intro i hi hpresent
    rw [hsame [] root h.atRoot (by simp)]
    exact h.sharedRoot i hi hpresent
  · intro t j ht hpresent
    rw [hsame [0] t ht (by simp)]
    exact h.sharedPdpt t j ht hpresent

theorem Represents.setEntry (h : Represents mem kern root tree) {path : List (Fin 512)}
    {o : Option Nat} {entry : BitVec 64} (ht : tree.node path = some t) (hlen : path.length < 4)
    (hown : kern.Own (path ++ [i])) (hfirst : [0] ≠ path ++ [i])
    (hself : tree'.node (path ++ [i]) = o) (hothers : ∀ q ≠ path ++ [i], tree'.node q = tree.node q)
    (hentry : EntryFor path.length entry o) (hempty : ∀ a, o = some a → path.length < 3 → ∀ j,
      tree.node (path ++ [i] ++ [j]) = none ∧ isPresent (mem a j) = false) :
    Represents (mem.setEntry t i entry) kern root tree' := by
  refine ⟨(hothers [] (by simp)).trans h.atRoot, (hothers _ hfirst).symm ▸ h.pdpt, ?_, ?_, ?_, ?_⟩
  · intro q hq
    by_cases hq' : q = path ++ [i]
    · rw [hq', List.length_append]
      exact hlen
    · rw [hothers q hq'] at hq
      exact h.depth q hq
  · intro q t' j ht' hlen' hown'
    by_cases hq : q = path ++ [i]
    · subst hq
      have hne : t' ≠ t := by
        rintro rfl
        have hsame := tree'.unique _ _ _ ht' ((hothers path (by simp)).trans ht)
        simp at hsame
      rw [List.length_append] at hlen'
      obtain ⟨hchild, habsent⟩ := hempty t' (hself.symm.trans ht') (Nat.lt_of_succ_lt_succ hlen') j
      rw [setEntry_of_ne hne, hothers _ (by simp), hchild]
      exact habsent
    · rw [hothers q hq] at ht'
      by_cases hslot : t' = t ∧ j = i
      · obtain ⟨rfl, rfl⟩ := hslot
        rw [tree.unique q path t' ht' ht, setEntry_self, hself]
        exact hentry
      · have hne : q ++ [j] ≠ path ++ [i] := by
          intro heq
          obtain ⟨rfl, hj⟩ := List.append_inj' heq rfl
          exact hslot ⟨Option.some.inj (ht'.symm.trans ht), by simpa using hj⟩
        rw [setEntry_apply, if_neg hslot, hothers _ hne]
        exact h.entry q t' j ht' hlen' hown'
  -- The entry is not one of the kernel's.
  · intro j hj hpresent
    rw [setEntry_apply, if_neg]
    · exact h.sharedRoot j hj hpresent
    · rintro ⟨rfl, rfl⟩
      rw [tree.unique path [] root ht h.atRoot] at hown
      exact hown.elim hj fun habsent => by simp [habsent] at hpresent
  · intro t' j ht' hpresent
    rw [hothers _ hfirst] at ht'
    rw [setEntry_apply, if_neg]
    · exact h.sharedPdpt t' j ht' hpresent
    · rintro ⟨rfl, rfl⟩
      rw [tree.unique path [0] t' ht ht'] at hown
      rcases hown with habsent | ⟨-, habsent⟩
      · simp [kern.first] at habsent
      · simp [habsent] at hpresent

end Represents

section Cloned

variable {mem : Mem} {kern : KernelTables} {pml4 pdpt : Nat}

def clonedTree (pml4 pdpt : Nat) (h : pdpt ≠ pml4) : TableTree :=
  (PathTree.single pml4).extend [] 0 pdpt (single_isSome pml4) (by rwa [single_has])

theorem clonedTree_has (h : pdpt ≠ pml4) (a : Nat) :
    (clonedTree pml4 pdpt h).Has a ↔ a = pml4 ∨ a = pdpt := by
  rw [clonedTree, extend_has (by rfl), single_has]

theorem clonedTree_first (h : pdpt ≠ pml4) : (clonedTree pml4 pdpt h).node [0] = some pdpt :=
  extend_self

theorem clonedTree_of_ne (h : pdpt ≠ pml4) {path : List (Fin 512)} (hroot : path ≠ [])
    (hfirst : path ≠ [0]) : (clonedTree pml4 pdpt h).node path = none := by
  rw [clonedTree, extend_of_ne (by simpa using hfirst)]
  cases path with
  | nil => exact absurd rfl hroot
  | cons => rfl

theorem represents_clonedTree (h : pdpt ≠ pml4) (hfirst : mem pml4 0 = makeEntry pdpt tableFlags)
    (hroot : ∀ i ≠ 0, mem pml4 i = kern.pml4 i) (hpdpt : ∀ j, mem pdpt j = kern.pdpt j) :
    Represents mem kern pml4 (clonedTree pml4 pdpt h) := by
  have hcases : ∀ {path : List (Fin 512)} {t : Nat}, (clonedTree pml4 pdpt h).node path = some t →
      path = [] ∧ t = pml4 ∨ path = [0] ∧ t = pdpt := by
    intro path t ht
    by_cases hnil : path = []
    · subst hnil
      exact .inl ⟨rfl, (Option.some.inj ht).symm⟩
    · by_cases hzero : path = [0]
      · subst hzero
        exact .inr ⟨rfl, (Option.some.inj ht).symm⟩
      · rw [clonedTree_of_ne h hnil hzero] at ht
        cases ht
  refine ⟨rfl, by rw [clonedTree_first]; rfl, ?_, ?_, fun i hi _ => hroot i hi, ?_⟩
  · intro path hpath
    obtain ⟨t, ht⟩ := Option.isSome_iff_exists.mp hpath
    rcases hcases ht with ⟨rfl, -⟩ | ⟨rfl, -⟩ <;> simp
  · intro path t i ht _ hown
    rcases hcases ht with ⟨rfl, rfl⟩ | ⟨rfl, rfl⟩
    · by_cases hi : i = 0
      · subst hi
        rw [List.nil_append, clonedTree_first, hfirst]
        rfl
      · rw [List.nil_append, clonedTree_of_ne h (by simp) (by simpa using hi), hroot i hi]
        exact (show _ ∨ _ from hown).resolve_left hi
    · rw [clonedTree_of_ne h (by simp) (by simp), hpdpt i]
      rcases (show _ ∨ _ from hown) with habsent | ⟨-, habsent⟩
      · rw [kern.first] at habsent
        cases habsent
      · exact habsent
  · intro t j ht _
    cases ht
    exact hpdpt j

end Cloned

end AuraOS.UserSpace
