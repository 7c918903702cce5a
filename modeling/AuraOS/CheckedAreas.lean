import AuraOS.CheckedWords
import AuraOS.AreaEffects

namespace AuraOS.UserSpace

open CheckedWords PhysicalFrames VirtualAreas

variable {area : VmArea} {start size : Nat} {s : SpaceState}

def checkedOverlaps (area : VmArea) (start size : Nat) : Option Bool := do
  let stop ← checkedAdd 64 start size
  if stop ≤ area.start then some false
  else
    let areaStop ← checkedAdd 64 area.start area.size
    some !(areaStop ≤ start)

def checkedOverlapsAny (start size : Nat) : List VmArea → Option Bool
  | [] => some false
  | area :: rest => do
      if ← checkedOverlaps area start size then some true else checkedOverlapsAny start size rest

def SpaceState.checkedAddVma (s : SpaceState) (area : VmArea) :
    Option (Except VmmError Unit × SpaceState) :=
  if area.size = 0 ∨ area.start % pageSize ≠ 0 then some (.error .invalidArguments, s)
  else do
    if ← checkedOverlapsAny area.start area.size s.space.vmas then some (.error .overlap, s)
    else some (.ok (), s.setVmas (s.space.vmas ++ [area]))

def EndsExactly (area : VmArea) : Prop :=
  area.start + area.size < 2 ^ 64

theorem checkedOverlaps_eq (harea : EndsExactly area) (h : start + size < 2 ^ 64) :
    checkedOverlaps area start size = some (area.overlaps start size) := by
  simp only [checkedOverlaps, checkedAdd_of_lt h, checkedAdd_of_lt harea, VmArea.overlaps,
    VmArea.endAddr, add64, Nat.mod_eq_of_lt h, Nat.mod_eq_of_lt harea, Option.bind_eq_bind,
    Option.bind_some]
  by_cases hstop : start + size ≤ area.start
  · simp [hstop]
  · simp [hstop]

theorem checkedOverlapsAny_eq (h : start + size < 2 ^ 64) (areas : List VmArea)
    (hareas : ∀ area ∈ areas, EndsExactly area) :
    checkedOverlapsAny start size areas = some (areas.any (·.overlaps start size)) := by
  induction areas with
  | nil => rfl
  | cons area rest ih =>
    have hrest := ih fun other hother => hareas other (.tail area hother)
    simp only [checkedOverlapsAny, checkedOverlaps_eq (hareas area (.head _)) h, hrest,
      Option.bind_eq_bind, Option.bind_some, List.any_cons]
    cases area.overlaps start size <;> rfl

theorem checkedAddVma_eq (harea : EndsExactly area)
    (hareas : ∀ other ∈ s.space.vmas, EndsExactly other) :
    s.checkedAddVma area = some (s.addVma area) := by
  simp only [SpaceState.checkedAddVma, SpaceState.addVma, checkedOverlapsAny_eq harea _ hareas,
    Option.bind_eq_bind, Option.bind_some]
  split
  · rfl
  · split
    · rfl
    · rfl

theorem endsExactly_addVma (harea : EndsExactly area)
    (hareas : ∀ other ∈ s.space.vmas, EndsExactly other) :
    ∀ other ∈ (s.addVma area).2.space.vmas, EndsExactly other := by
  intro other hother
  simp only [SpaceState.addVma] at hother
  split at hother
  · exact hareas other hother
  · split at hother
    · exact hareas other hother
    · rcases List.mem_append.mp hother with hmem | hmem
      · exact hareas other hmem
      · rw [List.mem_singleton.mp hmem]
        exact harea

end AuraOS.UserSpace
