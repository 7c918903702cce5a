import Mathlib

namespace AuraOS.NamedTrees

inductive NamedTree (L : Type) where
  | node (children : List (String × NamedTree L))
  | leaf (value : L)

variable {L : Type}

def NamedTree.find : List String → NamedTree L → Option (NamedTree L)
  | [], t => some t
  | name :: path, .node children =>
    (children.find? fun child => child.1 = name).bind fun child => child.2.find path
  | _ :: _, .leaf _ => none

def NamedTree.graft : List String → NamedTree L → NamedTree L → NamedTree L
  | [], _, new => new
  | name :: path, .node children, new =>
    .node (children.map fun child =>
      if child.1 = name then (child.1, child.2.graft path new) else child)
  | _ :: _, .leaf value, _ => .leaf value

section Family

/-! Directories given by a family of children: `name` and `sub` assign a name
and a subtree to every index. -/

variable {I : Type} {name : I → String} {sub sub' : I → NamedTree L} {indices : List I}

theorem find_node_map (hnames : (indices.map name).Nodup) {c : I} (hc : c ∈ indices)
    (path : List String) :
    (NamedTree.node (indices.map fun i => (name i, sub i))).find (name c :: path) =
      (sub c).find path := by
  have hfind : (indices.map fun i => (name i, sub i)).find? (fun child => child.1 = name c) =
      some (name c, sub c) := by
    induction indices with
    | nil => simp at hc
    | cons i rest ih =>
      simp only [List.map_cons, List.nodup_cons] at hnames
      rcases List.mem_cons.mp hc with rfl | hc
      · simp
      · have hne : name i ≠ name c := fun h => hnames.1 (h ▸ List.mem_map_of_mem hc)
        simpa [hne] using ih hnames.2 hc
  simp [NamedTree.find, hfind]

/-- If the families differ only at `c`, the new directory is the old one with
the subtree at `c` replaced. -/
theorem graft_node_map (hnames : (indices.map name).Nodup) {c : I} (hc : c ∈ indices)
    {path : List String} {new : NamedTree L} (hother : ∀ i ∈ indices, i ≠ c → sub' i = sub i)
    (hsub : sub' c = (sub c).graft path new) :
    NamedTree.node (indices.map fun i => (name i, sub' i)) =
      (NamedTree.node (indices.map fun i => (name i, sub i))).graft (name c :: path) new := by
  simp only [NamedTree.graft, List.map_map, NamedTree.node.injEq]
  refine List.map_congr_left ?_
  intro i hi
  by_cases hic : i = c
  · simp [hic, hsub]
  · have hne : name i ≠ name c :=
      fun h => hic (List.inj_on_of_nodup_map hnames hi hc h)
    simp [hne, hother i hi hic]

end Family

end AuraOS.NamedTrees
