import AuraOS.LinkedChains
import AuraOS.Fat32Layout

namespace AuraOS.Fat32

open LinkedChains Function

variable {disk₁ : Disk} {cluster x fuel : Nat} {bytes : List UInt8}

inductive Touches (fs : Fat32Fs) (disk : Disk) : Disk → Prop
  | refl : Touches fs disk disk
  | entry {disk' : Disk} {cluster : Nat} (value : Nat) (before : Touches fs disk disk')
      (valid : fs.Valid cluster) : Touches fs disk (fs.writeFatEntry disk' cluster value)
  | sector {disk' : Disk} {cluster : Nat} (buf : Sector) (before : Touches fs disk disk')
      (valid : fs.Valid cluster) :
      Touches fs disk (disk'.writeSector .data (fs.clusterToLba cluster) buf)

theorem Touches.trans {fs : Fat32Fs} {disk disk₂ : Disk} (h : Touches fs disk disk₁)
    (h' : Touches fs disk₁ disk₂) : Touches fs disk disk₂ := by
  induction h' with
  | refl => exact h
  | entry value _ valid ih => exact .entry value ih valid
  | sector buf _ valid ih => exact .sector buf ih valid

def View.link (view : View) (prevCluster : Option Nat) (cluster : Nat) : View :=
  match prevCluster with
  | some prev => view.setFat prev cluster
  | none => view

/-- `allocate_cluster` gives a cluster. -/
structure Allocated (fs : Fat32Fs) (view : View) (prevCluster : Option Nat) (cluster : Nat)
    (view' : View) : Prop where
  range : 3 ≤ cluster ∧ cluster < fs.totalClusters
  free : view.fat cluster = fatFree
  eq : view' = ((view.setFat cluster fatEoc).link prevCluster cluster).setData cluster zeroSector

section Allocation

variable {fs : Fat32Fs} (layout : Layout fs)
include layout

omit layout in
theorem valid_of_range (h : 3 ≤ cluster ∧ cluster < fs.totalClusters) : fs.Valid cluster :=
  ⟨by omega, h.2⟩

theorem Layout.lt_fatBad (h : fs.Valid cluster) : cluster < fatBad :=
  h.2.trans_le layout.clusters

theorem Layout.isCluster (h : fs.Valid cluster) : isCluster cluster = true := by
  have hlt := layout.lt_fatBad h
  have hle := h.1
  simp [AuraOS.Fat32.isCluster, hle, hlt]

theorem Layout.ne_eoc (h : fs.Valid cluster) : cluster ≠ fatEoc := by
  have hlt := layout.lt_fatBad h
  simp only [fatBad, fatEoc] at *
  omega

theorem allocateCluster_cases (disk : Disk) {prevCluster : Option Nat}
    (hprev : ∀ prev, prevCluster = some prev → fs.Valid prev) :
    (∃ stop, fs.allocateCluster disk prevCluster = (.error stop, disk) ∧
      ∀ c, 3 ≤ c → c < fs.totalClusters → (fs.view disk).fat c ≠ fatFree) ∨
    ∃ c disk', fs.allocateCluster disk prevCluster = (.ok c, disk') ∧
      Allocated fs (fs.view disk) prevCluster c (fs.view disk') ∧ Touches fs disk disk' := by
  rw [Fat32Fs.allocateCluster]
  cases hfind : (List.range' 3 (fs.totalClusters - 3)).find?
      (fs.readFatEntry disk · == fatFree) with
  | none =>
    refine .inl ⟨_, rfl, fun c hlow hhigh hfree => ?_⟩
    have hall := List.find?_eq_none.mp hfind c (List.mem_range'_1.mpr (by omega))
    rw [readFatEntry_view layout disk (valid_of_range ⟨hlow, hhigh⟩), hfree] at hall
    exact hall rfl
  | some c =>
    have hmem := List.mem_range'_1.mp (List.mem_of_find?_eq_some hfind)
    have hrange : 3 ≤ c ∧ c < fs.totalClusters := by omega
    have hvalid := valid_of_range hrange
    have hfree := List.find?_some hfind
    rw [beq_iff_eq, readFatEntry_view layout disk hvalid] at hfree
    have hsmall := layout.lt_fatBad hvalid
    refine .inr ⟨c, _, rfl, ⟨hrange, hfree, ?_⟩, ?_⟩
    · rw [clusterSectors_eq layout hvalid, List.foldl_cons, List.foldl_nil,
        view_writeData layout _ hvalid]
      cases prevCluster with
      | none => rw [view_writeFatEntry layout _ hvalid (by decide)]; rfl
      | some prev =>
        simp only [fatBad] at hsmall
        rw [view_writeFatEntry layout _ (hprev prev rfl) (by omega),
          view_writeFatEntry layout _ hvalid (by decide)]
        rfl
    · rw [clusterSectors_eq layout hvalid]
      refine .sector _ ?_ hvalid
      cases prevCluster with
      | none => exact .entry _ .refl hvalid
      | some prev => exact .entry _ (.entry _ .refl hvalid) (hprev prev rfl)

end Allocation

structure FreshChain (fs : Fat32Fs) (view : View) (chain : List Nat) (view' : View) : Prop where
  range : ∀ x ∈ chain, 3 ≤ x ∧ x < fs.totalClusters
  free : ∀ x ∈ chain, view.fat x = fatFree
  follows : Follows view'.fat fatEoc (chain.headD fatEoc) chain
  fat : ∀ x ∉ chain, view'.fat x = view.fat x
  data : ∀ x ∉ chain, view'.data x = view.data x

section Chains

variable {fs : Fat32Fs} (layout : Layout fs) {view view₁ view₂ : View} {chain : List Nat}

theorem FreshChain.nil (fs : Fat32Fs) (view : View) : FreshChain fs view [] view :=
  ⟨nofun, nofun, rfl, fun _ _ => rfl, fun _ _ => rfl⟩

include layout in
theorem Layout.stop_notMem (hchain : ∀ x ∈ chain, fs.Valid x) : fatEoc ∉ chain := fun hmem =>
  layout.ne_eoc (hchain fatEoc hmem) rfl

theorem FreshChain.valid (h : FreshChain fs view chain view₁) : ∀ x ∈ chain, fs.Valid x :=
  fun x hx => valid_of_range (h.range x hx)

theorem fat_ne_free {start : Nat} (hchain : ∀ x ∈ chain, fs.Valid x)
    (h : Follows view.fat fatEoc start chain) (hx : x ∈ chain) : view.fat x ≠ fatFree := by
  intro hfree
  rcases h.next_mem hx with hnext | hnext
  · have := (hchain _ hnext).1
    rw [hfree] at this
    exact absurd this (by decide)
  · rw [hfree] at hnext
    exact absurd hnext (by decide)

include layout in
theorem FreshChain.concat (h : FreshChain fs view chain view₁) {c : Nat}
    (hnew : Allocated fs view₁ chain.getLast? c view₂) :
    FreshChain fs view (chain ++ [c]) view₂ := by
  have hc : c ∉ chain := fun hmem => fat_ne_free h.valid h.follows hmem hnew.free
  have hfat (x : Nat) (hx : x ∉ chain ++ [c]) : view₂.fat x = view₁.fat x := by
    rw [List.mem_append, not_or, List.mem_singleton] at hx
    rw [hnew.eq]
    cases hlast : chain.getLast? with
    | none => exact update_of_ne hx.2 _ _
    | some last =>
      have hxlast : x ≠ last := fun heq => hx.1 (heq ▸ List.mem_of_getLast? hlast)
      exact (update_of_ne hxlast _ _).trans (update_of_ne hx.2 _ _)
  refine ⟨?_, ?_, ?_, ?_, ?_⟩
  · intro x hx
    rcases List.mem_append.mp hx with hold | hlast
    · exact h.range x hold
    · rw [List.mem_singleton.mp hlast]
      exact hnew.range
  · intro x hx
    rcases List.mem_append.mp hx with hold | hlast
    · exact h.free x hold
    · rw [List.mem_singleton.mp hlast, ← h.fat c hc]
      exact hnew.free
  · rw [hnew.eq]
    by_cases hne : chain = []
    · subst hne
      have hlast : update view₁.fat c fatEoc c = fatEoc := by
        rw [update_self]
      exact ⟨rfl, hlast⟩
    · rw [List.getLast?_eq_some_getLast hne]
      have hhead : (chain ++ [c]).headD fatEoc = chain.headD fatEoc := by
        cases chain with
        | nil => exact absurd rfl hne
        | cons x rest => rfl
      rw [hhead]
      exact h.follows.extend (layout.stop_notMem h.valid) hne hc
  · intro x hx
    rw [hfat x hx]
    exact h.fat x fun hold => hx (List.mem_append_left _ hold)
  · intro x hx
    rw [List.mem_append, not_or, List.mem_singleton] at hx
    rw [← h.data x hx.1, hnew.eq]
    cases chain.getLast? with
    | none => exact update_of_ne hx.2 _ _
    | some last => exact update_of_ne hx.2 _ _

include layout in
theorem allocateChain_cases (count : Nat) (h : FreshChain fs view chain (fs.view disk₁)) :
    (∃ stop chain' disk', fs.allocateChain count (chain.headD 0) chain.getLast? disk₁ =
        (.error stop, disk') ∧ Touches fs disk₁ disk' ∧
        FreshChain fs view chain' (fs.view disk') ∧ chain'.length < chain.length + count ∧
        ∀ c, 3 ≤ c → c < fs.totalClusters → view.fat c = fatFree → c ∈ chain') ∨
    ∃ more disk', fs.allocateChain count (chain.headD 0) chain.getLast? disk₁ =
        (.ok ((chain ++ more).headD 0), disk') ∧ Touches fs disk₁ disk' ∧
        FreshChain fs view (chain ++ more) (fs.view disk') ∧ more.length = count := by
  induction count generalizing chain disk₁ with
  | zero =>
    refine .inr ⟨[], disk₁, ?_, .refl, ?_, rfl⟩
    · rw [List.append_nil]
      rfl
    · rw [List.append_nil]
      exact h
  | succ count ih =>
    have hprev (prev : Nat) (hlast : chain.getLast? = some prev) : fs.Valid prev :=
      h.valid prev (List.mem_of_getLast? hlast)
    rcases allocateCluster_cases layout disk₁ hprev with
      ⟨stop, halloc, hfull⟩ | ⟨c, disk₂, halloc, hnew, htouches⟩
    · refine .inl ⟨stop, chain, disk₁, ?_, .refl, h, by omega, fun c hlow hhigh hfree => ?_⟩
      · rw [Fat32Fs.allocateChain, halloc]
      · refine Classical.byContradiction fun hc => hfull c hlow hhigh ?_
        rw [h.fat c hc]
        exact hfree
    · have hconcat := h.concat layout hnew
      have hfirst : (if chain.headD 0 = 0 then c else chain.headD 0) = (chain ++ [c]).headD 0 := by
        cases chain with
        | nil => rfl
        | cons x rest =>
          have := (h.range x (.head _)).1
          exact if_neg (by simp; omega)
      have hlast : some c = (chain ++ [c]).getLast? := List.getLast?_concat.symm
      rw [Fat32Fs.allocateChain, halloc]
      simp only
      rw [hfirst, hlast]
      rcases ih hconcat with ⟨stop, chain', disk', hrun, hmore, hfresh, hshort, hall⟩ |
        ⟨more, disk', hrun, hmore, hfresh, hlength⟩
      · refine .inl ⟨stop, chain', disk', hrun, htouches.trans hmore, hfresh, ?_, hall⟩
        grind
      · rw [List.append_assoc] at hrun hfresh
        exact .inr ⟨[c] ++ more, disk', hrun, htouches.trans hmore, hfresh, by simp [hlength]⟩

end Chains

def View.Stores (view : View) : List Nat → List UInt8 → Prop
  | [], bytes => bytes = []
  | x :: rest, bytes =>
    (bytes ≠ [] → view.data x = zeroSector.copyAt 0 (bytes.take sectorSize)) ∧
      view.Stores rest (bytes.drop sectorSize)

def View.clear (view : View) (chain : List Nat) : View :=
  { view with fat := fun c => if c ∈ chain then fatFree else view.fat c }

structure ChainCleared (fs : Fat32Fs) (disk : Disk) (chain : List Nat) (disk' : Disk) : Prop where
  words : ∀ copy c, copy < fs.numFats → c < fs.entryCount →
    fs.entryWord disk' copy c =
      if c ∈ chain then 2 ^ 28 * (fs.entryWord disk copy c / 2 ^ 28) else fs.entryWord disk copy c
  outside : ∀ lba, fs.OutsideTable lba → disk' lba = disk lba

section Data

variable {fs : Fat32Fs} (layout : Layout fs) {disk : Disk} {chain : List Nat} {start : Nat}

theorem View.stores_nil (view : View) (chain : List Nat) : view.Stores chain [] := by
  induction chain with
  | nil => rfl
  | cons x rest ih => exact ⟨fun hne => absurd rfl hne, by simpa using ih⟩

/-- What `write_file` writes into the clusters of a chain. -/
structure DataWritten (view : View) (chain : List Nat) (bytes : List UInt8) (view' : View) :
    Prop where
  fat : view'.fat = view.fat
  data : ∀ x ∉ chain, view'.data x = view.data x
  stores : bytes.length ≤ sectorSize * chain.length → view'.Stores chain bytes

theorem DataWritten.nil (view : View) (chain : List Nat) : DataWritten view chain [] view :=
  ⟨rfl, fun _ _ => rfl, fun _ => View.stores_nil _ chain⟩

theorem DataWritten.cons {view view' : View} {rest : List Nat} (hx : x ∉ rest)
    (h : DataWritten (view.setData x (zeroSector.copyAt 0 (bytes.take sectorSize))) rest
      (bytes.drop sectorSize) view') : DataWritten view (x :: rest) bytes view' := by
  refine ⟨h.fat, fun y hy => ?_, fun hlength => ⟨fun _ => ?_, h.stores ?_⟩⟩
  · rw [List.mem_cons, not_or] at hy
    rw [h.data y hy.2]
    exact update_of_ne hy.1 _ _
  · rw [h.data x hx, View.setData_data, update_self]
  · grind

include layout in
theorem writeDataFrom_spec (hfuel : bytes.length ≤ fuel) (hchain : ∀ x ∈ chain, fs.Valid x)
    (hfollows : Follows (fs.view disk).fat fatEoc start chain) :
    DataWritten (fs.view disk) chain bytes (fs.view (fs.writeDataFrom fuel start bytes disk)) ∧
      Touches fs disk (fs.writeDataFrom fuel start bytes disk) := by
  induction fuel generalizing disk start chain bytes with
  | zero =>
    obtain rfl : bytes = [] := List.length_eq_zero_iff.mp (by omega)
    exact ⟨.nil _ chain, .refl⟩
  | succ fuel ih =>
    rw [Fat32Fs.writeDataFrom]
    cases chain with
    | nil =>
      obtain rfl : start = fatEoc := hfollows
      refine ⟨⟨rfl, fun _ _ => rfl, fun hlength => ?_⟩, .refl⟩
      exact List.length_eq_zero_iff.mp (by simpa using hlength)
    | cons x rest =>
      have hx := (List.nodup_cons.mp (hfollows.nodup (layout.stop_notMem hchain))).1
      obtain ⟨rfl, hrest⟩ := hfollows
      have hvalid := hchain start (.head _)
      by_cases hbytes : bytes = []
      · rw [if_neg (by simp [hbytes]), hbytes]
        exact ⟨.nil _ (start :: rest), .refl⟩
      · rw [if_pos ⟨layout.isCluster hvalid, hbytes⟩, clusterSectors_eq layout hvalid]
        simp only [writeSectors, if_neg hbytes]
        have hview := view_writeData layout disk hvalid
          (zeroSector.copyAt 0 (bytes.take sectorSize))
        rw [readFatEntry_view layout _ hvalid]
        have hfuel' : (bytes.drop sectorSize).length ≤ fuel := by
          grind
        rw [← View.setData_fat (fs.view disk) start, ← hview] at hrest
        obtain ⟨hwritten, htouches⟩ := ih hfuel' (fun y hy => hchain y (.tail start hy)) hrest
        refine ⟨.cons hx ?_, (Touches.sector _ .refl hvalid).trans htouches⟩
        rw [← hview]
        exact hwritten

theorem freeChainFrom_spec (table : TableLayout fs) {mark : Nat} (hmark : isCluster mark = false)
    (hfuel : chain.length < fuel) (hchain : ∀ c ∈ chain, isCluster c = true ∧ c < fs.entryCount)
    (hfollows : Follows (fs.readFatEntry disk) mark start chain) :
    ChainCleared fs disk chain (fs.freeChainFrom fuel start disk) ∧
      ((∀ c ∈ chain, fs.Valid c) → Touches fs disk (fs.freeChainFrom fuel start disk)) := by
  induction chain generalizing fuel start disk with
  | nil =>
    obtain rfl : start = mark := hfollows
    obtain ⟨fuel, rfl⟩ := Nat.exists_eq_succ_of_ne_zero (Nat.ne_zero_of_lt hfuel)
    rw [Fat32Fs.freeChainFrom, hmark, if_neg Bool.false_ne_true]
    exact ⟨⟨fun _ _ _ _ => (if_neg List.not_mem_nil).symm, fun _ _ => rfl⟩, fun _ => .refl⟩
  | cons x rest ih =>
    obtain ⟨fuel, rfl⟩ := Nat.exists_eq_succ_of_ne_zero (Nat.ne_zero_of_lt hfuel)
    have hmem : mark ∉ x :: rest := fun h => by rw [(hchain mark h).1] at hmark; cases hmark
    have hx := (List.nodup_cons.mp (hfollows.nodup hmem)).1
    obtain ⟨rfl, hrest⟩ := hfollows
    obtain ⟨hcluster, hentry⟩ := hchain start (.head _)
    have hword {copy c : Nat} (hcopy : copy < fs.numFats) (hc : c < fs.entryCount) :=
      entryWord_writeFatEntry table disk fatFree hentry (table.numFats ▸ hcopy) hc
    have hfirst : 0 < fs.numFats := by rw [table.numFats]; exact Nat.zero_lt_two
    have hrest' : Follows (fs.readFatEntry (fs.writeFatEntry disk start fatFree)) mark
        (fs.readFatEntry disk start) rest := by
      refine hrest.congr fun y hy => ?_
      have hentries := (hchain y (.tail start hy)).2
      rw [readFatEntry_eq table _ hentries, readFatEntry_eq table _ hentries,
        hword hfirst hentries, if_neg]
      rintro rfl
      exact hx hy
    obtain ⟨hcleared, htouches⟩ := ih (Nat.lt_of_succ_lt_succ hfuel)
      (fun y hy => hchain y (.tail start hy)) hrest'
    rw [Fat32Fs.freeChainFrom, hcluster, if_pos rfl]
    refine ⟨⟨fun copy c hcopy hc => ?_, fun lba hlba => (hcleared.outside lba hlba).trans
      (writeFatEntry_outside table disk _ hentry hlba)⟩, fun hvalid => ?_⟩
    · rw [hcleared.words copy c hcopy hc, hword hcopy hc]
      by_cases heq : c = start
      · subst heq
        simp [hx, fatFree]
      · simp [heq]
    · exact (Touches.entry _ .refl (hvalid start (.head _))).trans
        (htouches fun y hy => hvalid y (.tail start hy))

theorem length_lt_chainFuel {next : Nat → Nat} {mark : Nat} (hmark : isCluster mark = false)
    (hchain : ∀ c ∈ chain, isCluster c = true) (hfollows : Follows next mark start chain) :
    chain.length < chainFuel := by
  have hmem : mark ∉ chain := fun h => by rw [hchain mark h] at hmark; cases hmark
  have hsubset : chain ⊆ List.range fatBad := fun c hc => by
    have hcluster := hchain c hc
    rw [isCluster, Bool.and_eq_true, decide_eq_true_eq, decide_eq_true_eq] at hcluster
    exact List.mem_range.mpr hcluster.2
  have hlength := ((hfollows.nodup hmem).subperm hsubset).length_le
  simp only [List.length_range, fatBad, chainFuel] at *
  omega

include layout

theorem Layout.length_lt (hchain : ∀ x ∈ chain, fs.Valid x)
    (hfollows : Follows (fs.view disk).fat fatEoc start chain) : chain.length < chainFuel :=
  length_lt_chainFuel (by decide) (fun x hx => layout.isCluster (hchain x hx)) hfollows

theorem freeClusterChain_spec (hchain : ∀ x ∈ chain, fs.Valid x)
    (hfollows : Follows (fs.view disk).fat fatEoc start chain) :
    fs.view (fs.freeClusterChain disk start) = (fs.view disk).clear chain ∧
      Touches fs disk (fs.freeClusterChain disk start) := by
  have hlength := layout.length_lt hchain hfollows
  obtain ⟨hcleared, htouches⟩ := freeChainFrom_spec layout.table (by decide)
    (by omega : chain.length < 2 * chainFuel)
    (fun c hc => ⟨layout.isCluster (hchain c hc), layout.entry_of_valid (hchain c hc)⟩)
    (hfollows.congr fun c hc => readFatEntry_view layout disk (hchain c hc))
  have hfirst : 0 < fs.numFats := by rw [layout.numFats]; exact Nat.zero_lt_two
  refine ⟨congrArg₂ View.mk (funext fun c => ?_) (funext fun c => ?_), htouches hchain⟩
  · by_cases hc : c < fs.entryCount
    · simp only [Fat32Fs.view, hc, if_true, readFatEntry_eq layout.table _ hc]
      rw [Fat32Fs.freeClusterChain, hcleared.words 0 c hfirst hc]
      split <;> simp [fatFree]
    · have hnot : c ∉ chain := fun hmem => hc (layout.entry_of_valid (hchain c hmem))
      simp only [Fat32Fs.view, hc, hnot, if_false]
  · simp only [Fat32Fs.view]
    split
    · rename_i hc
      exact hcleared.outside _ fun copy i hcopy hi =>
        clusterToLba_ne layout hc (layout.numFats ▸ hcopy) hi
    · rfl

omit layout in
theorem freeClusterChain_zero (fs : Fat32Fs) (disk : Disk) : fs.freeClusterChain disk 0 = disk := by
  have hfuel : 2 * chainFuel = (2 * chainFuel - 1) + 1 := by decide
  rw [Fat32Fs.freeClusterChain, hfuel, Fat32Fs.freeChainFrom, if_neg (by decide)]

end Data

end AuraOS.Fat32
