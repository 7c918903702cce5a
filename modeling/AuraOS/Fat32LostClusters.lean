import AuraOS.Fat32Regions
import AuraOS.Fat32Resolution

namespace AuraOS.Fat32

open GuardedRuns LinkedChains NameGraphs Function

variable {chain dirChain rest : List Nat} {slot : Slot} {p : Nat × Nat} {o oldObj : Obj}
  {name bytes label : List UInt8} {isDir : Bool} {dir k : Nat} {disk : Disk} {objs objs' : Objs}
  {call : Call} {effect : Effect} {view view' view₁ : View}

/-- The free clusters that `fs_info` counts. -/
def Fat32Fs.freeClusters (fs : Fat32Fs) (disk : Disk) : Nat :=
  (List.range' 2 (fs.totalClusters - 2)).countP (fs.readFatEntry disk · == fatFree)

structure Accounted (view : View) (objs : Objs) : Prop where
  owned : ∀ x, 3 ≤ x → view.fat x ≠ fatFree → Owned objs x
  attached : ∀ k o, objs k = some o → Attached view objs k

section Owned

variable {fs : Fat32Fs} {view view' : View} {objs : Objs} {dir k x : Nat} {o : Obj}

theorem Owned.add (h : Owned objs x) (hk : objs k = none) (o : Obj) :
    Owned (update objs k (some o)) x := by
  obtain ⟨j, oj, hj, hx⟩ := h
  have hne : j ≠ k := by
    rintro rfl
    cases hk.symm.trans hj
  exact ⟨j, oj, by rw [update_of_ne hne, hj], hx⟩

theorem Owned.setChain (h : Owned objs x) (ho : objs dir = some o) (hsub : o.chain ⊆ chain) :
    Owned (objs.setChain dir o chain) x := by
  obtain ⟨j, oj, hj, hx⟩ := h
  by_cases hne : j = dir
  · subst hne
    cases ho.symm.trans hj
    exact ⟨j, _, update_self _ _ _, hsub hx⟩
  · exact ⟨j, oj, by rw [Objs.setChain, update_of_ne hne, hj], hx⟩

theorem Owned.remove (h : Owned objs x) (ho : objs k = some o) (hx : x ∉ o.chain) :
    Owned (update objs k none) x := by
  obtain ⟨j, oj, hj, hxj⟩ := h
  have hne : j ≠ k := by
    rintro rfl
    cases ho.symm.trans hj
    exact hx hxj
  exact ⟨j, oj, by rw [update_of_ne hne, hj], hxj⟩

theorem Inserted.taken (h : Inserted fs view chain slot dirChain p view') :
    chain ⊆ dirChain ∧ ∀ x, view'.fat x ≠ fatFree → x ∈ dirChain ∨ view.fat x ≠ fatFree := by
  cases h with
  | free _ hput =>
    refine ⟨List.Subset.refl chain, fun x hx => .inr ?_⟩
    rw [← hput.fat]
    exact hx
  | grown hfull halloc hput =>
    rename_i c view₁
    refine ⟨List.subset_append_left chain [c], fun x hx => ?_⟩
    by_cases hmem : x ∈ chain ++ [c]
    · exact .inl hmem
    · rw [List.mem_append, not_or, List.mem_singleton] at hmem
      refine .inr ?_
      have hfat : view₁.fat x = view.fat x := by
        rw [halloc.eq]
        cases hlast : chain.getLast? with
        | none => exact update_of_ne hmem.2 _ _
        | some last =>
          have hne : x ≠ last := fun heq => hmem.1 (heq ▸ List.mem_of_getLast? hlast)
          exact (update_of_ne hne _ _).trans (update_of_ne hmem.2 _ _)
      rw [← hfat, ← hput.fat]
      exact hx

end Owned

section Attached

variable {fs : Fat32Fs} {view view₁ view' : View} {objs : Objs} {dir k old : Nat}

theorem attached_iff : Attached view objs k ↔ ∃ way, Walks (Edge view objs) rootCluster way k := by
  constructor
  · intro h
    induction h with
    | root => exact ⟨[], rfl⟩
    | child _ href ih =>
      obtain ⟨way, hwalk⟩ := ih
      exact ⟨way ++ [_], walks_concat.mpr ⟨_, hwalk, href.edge⟩⟩
  · rintro ⟨way, hwalk⟩
    induction way using List.reverseRecOn generalizing k with
    | nil =>
      obtain rfl : rootCluster = k := hwalk
      exact .root
    | append_singleton way name ih =>
      obtain ⟨d, hwalk, hedge⟩ := walks_concat.mp hwalk
      obtain ⟨p, href, _⟩ := edge_refers hedge
      exact (ih hwalk).child href

theorem FreshChain.no_edges (fresh : FreshChain fs view (k :: rest) view₁)
    (sound : Sound fs view objs) :
    (∀ l b, ¬ Edge view objs k l b) ∧ ∀ a l, ¬ Edge view objs a l k := by
  have hnone := fresh.obj_eq_none sound
  refine ⟨fun l b h => ?_, fun a l h => ?_⟩
  · obtain ⟨p, href, _⟩ := edge_refers h
    obtain ⟨o, ho, _⟩ := href.inDir
    cases hnone.symm.trans ho
  · obtain ⟨p, href, _⟩ := edge_refers h
    obtain ⟨_, o, ho, _⟩ := sound.child href
    cases hnone.symm.trans ho

theorem FreshChain.root_ne (fresh : FreshChain fs view (k :: rest) view₁) : rootCluster ≠ k := by
  have := (fresh.range k (.head _)).1
  grind

end Attached

section Changes

variable {fs : Fat32Fs} {view view₁ view' : View} {objs : Objs} {dir k old : Nat}

variable (h : Accounted view objs) (sound : Sound fs view objs)
include h sound

theorem Accounted.created (layout : Layout fs) {objs' : Objs}
    (change : Change fs view objs (.created dir name k isDir bytes) view' objs')
    (hname : LegalName name) : Accounted view' objs' := by
  have hedge := created_edge sound layout change hname
  cases change with
  | @created _ o _ _ rest _ _ _ _ _ _ attached ho _ _ fresh _ hins =>
    have hdir := fresh.obj_ne sound ho
    have ho' : update objs k (some ⟨isDir, k :: rest, dir⟩) dir = some o := by
      rw [update_of_ne hdir, ho]
    obtain ⟨hsub, htaken⟩ := hins.taken
    have hwalks {u : List (List UInt8)} {j : Nat} :
        Walks (addLeaf (Edge view objs) dir (toAsciiUppercase name) k) rootCluster u j ↔ _ :=
      walks_addLeaf hdir fresh.root_ne (fresh.no_edges sound).1
    refine ⟨fun x hlow hx => ?_, fun j oj hj => ?_⟩
    · rcases htaken x hx with hmem | hx
      · exact ⟨dir, _, update_self _ _ _, hmem⟩
      · by_cases hnew : x ∈ k :: rest
        · exact Owned.setChain ⟨k, _, update_self _ _ _, hnew⟩ ho' hsub
        · rw [fresh.fat x hnew] at hx
          exact ((h.owned x hlow hx).add (fresh.obj_eq_none sound) _).setChain ho' hsub
    · rw [attached_iff, hedge]
      obtain ⟨old, hold, _⟩ := setChain_cases ho' hj
      rcases update_some_cases hold with ⟨rfl, _⟩ | ⟨_, hold⟩
      · obtain ⟨way, hway⟩ := attached_iff.mp attached
        exact ⟨way ++ [_], hwalks.mpr (.inr ⟨way, rfl, hway, rfl⟩)⟩
      · obtain ⟨way, hway⟩ := attached_iff.mp (h.attached j old hold)
        exact ⟨way, hwalks.mpr (.inl hway)⟩

theorem Accounted.walks_cut (tidy : Tidy view objs) (attached : Attached view objs dir)
    (refers : Refers view objs dir p old) (hleaf : ∀ l b, ¬ Edge view objs old l b) {j : Nat}
    {oj : Obj} (hj : objs j = some oj) (hne : j ≠ old) :
    ∃ way, Walks (cut (Edge view objs) old) rootCluster way j := by
  have tree := nameTree sound tidy
  obtain ⟨way, hway⟩ := attached_iff.mp (attached.child refers)
  obtain ⟨u, hu⟩ := attached_iff.mp (h.attached j oj hj)
  have hroot := (sound.child refers).1
  exact ⟨u, (tree.walks_cut hway hroot).mpr ⟨hu, tree.not_prefix_of_leaf hway hleaf hu hne⟩⟩

theorem Accounted.erased (tidy : Tidy view objs) {objs' : Objs}
    (change : Change fs view objs (.erased dir name old) view' objs')
    (hleaf : ∀ l b, ¬ Edge view objs old l b) : Accounted view' objs' := by
  cases change with
  | @erased _ _ _ _ oldObj _ attached refers _ ho hput =>
    refine ⟨fun x hlow hx => ?_, fun j oj hj => ?_⟩
    · rw [hput.fat] at hx
      have hnot : x ∉ oldObj.chain := fun hmem => hx (if_pos hmem)
      have hfat : (view.clear oldObj.chain).fat x = view.fat x := if_neg hnot
      rw [hfat] at hx
      exact (h.owned x hlow hx).remove ho hnot
    · obtain ⟨hne, hj⟩ := update_none_eq hj
      rw [attached_iff, erased_edge sound refers hput]
      exact h.walks_cut sound tidy attached refers hleaf hj hne

theorem Accounted.replaced (layout : Layout fs) (tidy : Tidy view objs) {objs' : Objs}
    (change : Change fs view objs (.replaced dir name old k bytes) view' objs') :
    Accounted view' objs' := by
  have hedge := replaced_edge sound layout change
  cases change with
  | @replaced _ _ _ _ oldObj _ rest _ view₁ _ attached refers _ ho hfile fresh _ hput =>
    have hnone' : update objs old none k = none := by
      rw [update_of_ne (fresh.obj_ne sound ho).symm, fresh.obj_eq_none sound]
    have hleaf (l : List UInt8) (b : Nat) : ¬ Edge view objs old l b := fun hedge => by
      obtain ⟨q, href, _⟩ := edge_refers hedge
      exact not_inDir_of_file ho hfile href.inDir
    obtain ⟨dirObj, hdirObj, _, _⟩ := refers.inDir
    have hdirOld : dir ≠ old := by
      rintro rfl
      exact not_inDir_of_file ho hfile refers.inDir
    have hwalks {u : List (List UInt8)} {j : Nat} :
        Walks (addLeaf (cut (Edge view objs) old) dir (toAsciiUppercase name) k) rootCluster u j ↔
          _ :=
      walks_addLeaf (fresh.obj_ne sound hdirObj) fresh.root_ne fun l b hedge =>
        (fresh.no_edges sound).1 l b hedge.1
    refine ⟨fun x hlow hx => ?_, fun j oj hj => ?_⟩
    · rw [hput.fat] at hx
      have hnot : x ∉ oldObj.chain := fun hmem => hx (if_pos hmem)
      have hfat : (view₁.clear oldObj.chain).fat x = view₁.fat x := if_neg hnot
      rw [hfat] at hx
      by_cases hnew : x ∈ k :: rest
      · exact ⟨k, _, update_self _ _ _, hnew⟩
      · rw [fresh.fat x hnew] at hx
        exact ((h.owned x hlow hx).remove ho hnot).add hnone' _
    · rw [attached_iff, hedge]
      rcases update_some_cases hj with ⟨rfl, _⟩ | ⟨_, hj⟩
      · obtain ⟨way, hway⟩ := h.walks_cut sound tidy attached refers hleaf hdirObj hdirOld
        exact ⟨way ++ [_], hwalks.mpr (.inr ⟨way, rfl, hway, rfl⟩)⟩
      · obtain ⟨hne, hj⟩ := update_none_eq hj
        obtain ⟨way, hway⟩ := h.walks_cut sound tidy attached refers hleaf hj hne
        exact ⟨way, hwalks.mpr (.inl hway)⟩

end Changes

def Fat32Fs.DeletesEmpty (fs : Fat32Fs) (disk : Disk) (call : Call) : Prop :=
  ∀ path entry entries, call = .deleteEntry path → fs.target disk path = some entry →
    entry.isDirectory = true → fs.listDirectoryCluster disk entry.firstCluster = .ok entries →
    ∀ e ∈ entries, e.name = [dot] ∨ e.name = [dot, dot]

structure Fat32Fs.LegalOk (fs : Fat32Fs) (disk : Disk) (call : Call) : Prop where
  legal : fs.Legal disk call
  ok : (fs.perform disk call).1 = .ok ()

def Fat32Fs.RootRoom (fs : Fat32Fs) (disk : Disk) (call : Call) : Prop :=
  fs.parentOf disk call.path = .ok fs.rootCluster → fs.target disk call.path = none →
    (disk (fs.clusterToLba fs.rootCluster)).freeSlot ≠ none

section Listing

variable {fs : Fat32Fs} {disk : Disk} {objs : Objs} (layout : Layout fs)
  (sound : Sound fs (fs.view disk) objs) (tidy : Tidy (fs.view disk) objs)
include layout sound tidy

theorem listed_of_entry (hentry : EntryAt (fs.view disk) objs dir p slot) :
    ∃ entries, ∃ i : Nat, fs.listDirectoryCluster disk dir = .ok entries ∧
      entries[i]? = some slot.entry := by
  obtain ⟨o, ho, hkind, hp⟩ := hentry.inDir
  have hslot := hentry.slotAt
  subst hslot
  have hmem : p ∈ (fs.view disk).entriesAt o.chain :=
    List.mem_filter.mpr ⟨tidy.packed dir o ho hkind p hp hentry.live, hentry.live⟩
  obtain ⟨i, hi⟩ := List.mem_iff_getElem?.mp hmem
  refine ⟨_, i, listDirectoryCluster_eq layout (sound.valid ho) (sound.follows ho), ?_⟩
  rw [List.getElem?_map, hi]
  rfl

theorem reachable_of_attached (h : Attached (fs.view disk) objs k) :
    ∃ way entry, Reachable fs disk way entry ∧ entry.firstCluster = k := by
  induction h with
  | root => exact ⟨[], fs.rootEntry, .root, layout.rootCluster⟩
  | child _ href ih =>
    obtain ⟨way, entry, hreach, rfl⟩ := ih
    obtain ⟨slot, hentry, rfl⟩ := refers_iff.mp href
    obtain ⟨entries, i, hlisted, hplace⟩ := listed_of_entry layout sound tidy hentry
    obtain ⟨o, ho, hkind⟩ := hreach.obj layout sound
    obtain ⟨o', ho', hdir, _⟩ := href.inDir
    cases ho.symm.trans ho'
    exact ⟨i :: way, slot.entry, .entry hreach (hkind.symm.trans hdir) hlisted hplace
      (fun hname => hentry.notDots (.inl hname)) (fun hname => hentry.notDots (.inr hname)), rfl⟩

theorem leaf_of_listing {path : List UInt8} {old : Nat} (hparent : fs.parentOf disk path = .ok dir)
    (refers : Refers (fs.view disk) objs dir p old)
    (found : ((fs.view disk).slotAt p).hasName (toAsciiUppercase (lastPart path)) = true)
    (hempty : fs.DeletesEmpty disk (.deleteEntry path)) (l : List UInt8) (b : Nat) :
    ¬ Edge (fs.view disk) objs old l b := by
  rintro ⟨q, slot, hentry, _, _⟩
  obtain ⟨entries, i, hlisted, hplace⟩ := listed_of_entry layout sound tidy hentry
  have hself : EntryAt (fs.view disk) objs dir p ((fs.view disk).slotAt p) :=
    ⟨refers.inDir, rfl, refers.live, refers.notDots⟩
  have htarget := target_of_entry layout sound tidy hparent hself (upper_of_hasName found)
  obtain ⟨o, ho, hkind, _⟩ := hentry.inDir
  obtain ⟨_, o', ho', hkind', _⟩ := sound.child refers
  cases ho.symm.trans ho'
  have hfirst : ((fs.view disk).slotAt p).entry.firstCluster = old := refers.target
  exact hentry.notDots (hempty path _ entries rfl htarget (hkind'.symm.trans hkind)
    (hfirst.symm ▸ hlisted) slot.entry (List.mem_of_getElem? hplace))

end Listing

section Runs

variable {fs : Fat32Fs} (layout : Layout fs)

structure Settled (fs : Fat32Fs) (disk : Disk) (objs : Objs) : Prop where
  sound : Sound fs (fs.view disk) objs
  tidy : Tidy (fs.view disk) objs
  accounted : Accounted (fs.view disk) objs

include layout

theorem formatted_tidy (totalSectors : Nat) (hlabel : label.length = 11) (disk : Disk) :
    Tidy (fs.view (fs.formatSectors totalSectors label disk)) formattedObjs := by
  have hdead {dir : Nat} {o : Obj} {p : Nat × Nat} (ho : formattedObjs dir = some o)
      (hp : p ∈ positions o.chain) :=
    formatted_dead layout totalSectors hlabel disk ho hp
  have hentry {dir : Nat} {p : Nat × Nat} {slot : Slot}
      (h : EntryAt (fs.view (fs.formatSectors totalSectors label disk)) formattedObjs dir p slot) :
      False := by
    obtain ⟨⟨o, ho, _, hp⟩, rfl, hlive, _⟩ := h
    rw [hdead ho hp] at hlive
    cases hlive
  refine ⟨fun dir o ho _ p hp hlive => ?_, fun h => (hentry h).elim, fun h => (hentry h).elim⟩
  rw [hdead ho hp] at hlive
  cases hlive

omit layout in
def RootSingle (objs : Objs) : Prop := ∀ o, objs rootCluster = some o → o.chain = [rootCluster]

theorem formatted_settled (totalSectors : Nat) (hlabel : label.length = 11) (disk : Disk) :
    Settled fs (fs.formatSectors totalSectors label disk) formattedObjs := by
  refine ⟨formatted_sound layout totalSectors hlabel disk,
    formatted_tidy layout totalSectors hlabel disk, fun x hlow hx => ?_, fun k o ho => ?_⟩
  · exact absurd ((formatSectors_fat layout totalSectors label disk).2 x hlow) hx
  · rw [(formattedObjs_eq ho).1]
    exact .root

theorem LegalChange.accounted (h : LegalChange fs disk objs call effect objs' dir)
    (settled : Settled fs disk objs) (hempty : fs.DeletesEmpty disk call) :
    Accounted (fs.view (fs.step disk call)) objs' := by
  obtain ⟨sound, tidy, accounted⟩ := settled
  have hlegal := h.effect_legal
  have hdoes := h.does
  cases effect with
  | failed => cases call <;> simp [Effect.Does] at hdoes
  | created => exact accounted.created sound layout h.change hlegal
  | replaced => exact accounted.replaced sound layout tidy h.change
  | erased =>
    cases call with
    | writeFile path data => simp [Effect.Does] at hdoes
    | createDir path => simp [Effect.Does] at hdoes
    | deleteEntry path =>
      obtain ⟨old, heffect⟩ := hdoes
      cases heffect
      refine accounted.erased sound tidy h.change ?_
      cases h.change with
      | erased _ refers found =>
        exact leaf_of_listing layout sound tidy h.parent refers found hempty
  | dotsErased => cases call <;> simp [Effect.Does] at hdoes

omit layout in
theorem LegalChange.created_name {d : Nat}
    (h : LegalChange fs disk objs call (.created d name k isDir bytes) objs' dir) :
    d = dir ∧ name = lastPart call.path := by
  have hdoes := h.does
  cases call with
  | writeFile path data =>
    obtain ⟨k, heffect | ⟨old, heffect⟩⟩ := hdoes
    · cases heffect
      exact ⟨rfl, rfl⟩
    · cases heffect
  | createDir path =>
    obtain ⟨k, heffect⟩ := hdoes
    cases heffect
    exact ⟨rfl, rfl⟩
  | deleteEntry path =>
    obtain ⟨old, heffect⟩ := hdoes
    cases heffect

omit layout in
theorem Inserted.chain_eq (h : Inserted fs view chain slot dirChain p view')
    (hfree : (positions chain).find? (fun p => (view.slotAt p).isFree) ≠ none) :
    dirChain = chain := by
  cases h with
  | free _ _ => rfl
  | grown hfull _ _ => exact absurd hfull hfree

theorem RootRoom.find (hroom : (disk (fs.clusterToLba fs.rootCluster)).freeSlot ≠ none)
    (ho : objs rootCluster = some o) (hsingle : RootSingle objs)
    (sound : Sound fs (fs.view disk) objs) (fresh : FreshChain fs (fs.view disk) chain view₁) :
    (positions o.chain).find? (fun p => (view₁.slotAt p).isFree) ≠ none := by
  have hroot : fs.rootCluster = rootCluster := layout.rootCluster
  have hdata := (fresh.frame sound ⟨rootCluster, o, ho, sound.first ho⟩).2
  rw [hroot, data_view disk layout.valid_root, ← hdata, freeSlot_eq] at hroom
  rw [hsingle o ho]
  have hpositions : positions [rootCluster] = clusterPositions rootCluster := by
    simp [positions]
  rw [hpositions]
  intro hnone
  rw [hnone] at hroom
  exact hroom rfl

omit layout in
theorem RootSingle.created (hsingle : RootSingle objs) (sound : Sound fs view objs)
    (ho : objs dir = some o) (fresh : FreshChain fs view (k :: rest) view₁)
    (hins : Inserted fs view₁ o.chain slot dirChain p view') (hfree : dir = rootCluster →
      (positions o.chain).find? (fun p => (view₁.slotAt p).isFree) ≠ none) :
    RootSingle (Objs.setChain (update objs k (some ⟨isDir, k :: rest, dir⟩)) dir o dirChain) := by
  have ho' : update objs k (some ⟨isDir, k :: rest, dir⟩) dir = some o := by
    rw [update_of_ne (fresh.obj_ne sound ho), ho]
  intro o' hroot
  obtain ⟨old, hold, _, _, ⟨rfl, hchain, rfl⟩ | ⟨_, rfl⟩⟩ := setChain_cases ho' hroot
  · rw [hchain, hins.chain_eq (hfree rfl)]
    exact hsingle old ho
  · rcases update_some_cases hold with ⟨hk, _⟩ | ⟨_, hold⟩
    · exact absurd hk fresh.root_ne
    · exact hsingle o' hold

theorem LegalChange.rootSingle (h : LegalChange fs disk objs call effect objs' dir)
    (sound : Sound fs (fs.view disk) objs) (hroom : fs.RootRoom disk call)
    (hsingle : RootSingle objs) : RootSingle objs' := by
  have hparent := h.parent
  have hchange := h.change
  cases hchange with
  | failed _ => exact hsingle
  | created _ ho _ habsent fresh _ hins =>
    obtain ⟨rfl, rfl⟩ := h.created_name
    refine hsingle.created sound ho fresh hins ?_
    rintro rfl
    have htarget : fs.target disk call.path = none := by
      have hfind := findEntryInDir_eq layout (lastPart call.path) (sound.valid ho)
        (sound.follows ho)
      rw [habsent] at hfind
      rw [Fat32Fs.parentOf] at hparent
      rw [lastPart] at hfind
      simp only [Fat32Fs.target, hparent, hfind, Option.map_none]
    have hroot : fs.rootCluster = rootCluster := layout.rootCluster
    exact RootRoom.find layout (hroom (hroot ▸ hparent) htarget) ho hsingle sound fresh
  | replaced _ refers _ _ _ fresh _ _ =>
    intro o' ho'
    rcases update_some_cases ho' with ⟨hk, _⟩ | ⟨_, ho'⟩
    · exact absurd hk fresh.root_ne
    · exact hsingle o' (update_none_eq ho').2
  | erased _ _ _ _ _ => exact fun o' ho' => hsingle o' (update_none_eq ho').2
  | dotsErased _ _ => exact hsingle

theorem settled_step (settled : Settled fs disk objs) (hcall : fs.LegalOk disk call)
    (hempty : fs.DeletesEmpty disk call) :
    ∃ objs', Settled fs (fs.step disk call) objs' ∧
      (fs.RootRoom disk call → RootSingle objs → RootSingle objs') := by
  obtain ⟨effect, objs', dir, hchange⟩ := legal_change layout settled.sound settled.tidy
    hcall.legal hcall.ok
  exact ⟨objs', ⟨hchange.change.sound layout settled.sound,
    hchange.change.tidy layout settled.sound settled.tidy hchange.effect_legal,
    hchange.accounted layout settled hempty⟩, hchange.rootSingle layout settled.sound⟩

theorem Settled.taken_iff (h : Settled fs disk objs) {c : Nat} (hlow : 3 ≤ c)
    (hhigh : c < fs.entryCount) :
    fs.readFatEntry disk c ≠ fatFree ↔ ∃ way entry chain, Reachable fs disk way entry ∧
      HasChain fs disk entry.firstCluster chain ∧ c ∈ chain := by
  have hfat : (fs.view disk).fat c = fs.readFatEntry disk c := if_pos hhigh
  rw [← hfat]
  constructor
  · intro hc
    obtain ⟨k, o, ho, hmem⟩ := h.accounted.owned c hlow hc
    obtain ⟨way, entry, hreach, rfl⟩ := reachable_of_attached layout h.sound h.tidy
      (h.accounted.attached k o ho)
    exact ⟨way, entry, o.chain, hreach, hasChain_of_obj layout h.sound ho, hmem⟩
  · rintro ⟨way, entry, chain, hreach, hchain, hmem⟩
    obtain ⟨o, ho, _⟩ := hreach.obj layout h.sound
    rw [hchain.unique (hasChain_of_obj layout h.sound ho)] at hmem
    exact h.sound.owned_ne_free ⟨_, o, ho, hmem⟩

theorem Settled.freeClusters_eq (h : Settled fs disk objs) (hsingle : RootSingle objs)
    (halone : ∀ way entry, Reachable fs disk way entry → way = []) (totalSectors : Nat)
    (hlabel : label.length = 11) (before : Disk) :
    fs.freeClusters disk = fs.freeClusters (fs.formatSectors totalSectors label before) := by
  have hnew := formatted_settled layout totalSectors hlabel before
  refine List.countP_congr fun c hc => ?_
  have hrange := List.mem_range'_1.mp hc
  have hvalid : fs.Valid c := ⟨hrange.1, by omega⟩
  rw [beq_iff_eq, beq_iff_eq]
  by_cases hroot : c = rootCluster
  · subst hroot
    rw [readFatEntry_view layout _ hvalid, readFatEntry_view layout _ hvalid]
    have htaken {disk : Disk} {objs : Objs} (h : Settled fs disk objs) :
        (fs.view disk).fat rootCluster ≠ fatFree := by
      obtain ⟨o, ho, _⟩ := h.sound.root
      exact h.sound.owned_ne_free ⟨_, o, ho, h.sound.first ho⟩
    exact iff_of_false (htaken h) (htaken hnew)
  · have hlow : 3 ≤ c := by
      grind
    refine iff_of_true (Classical.byContradiction fun hc => ?_) ?_
    · obtain ⟨way, entry, chain, hreach, hchain, hmem⟩ :=
        (h.taken_iff layout hlow (layout.entry_of_valid hvalid)).mp hc
      obtain rfl := halone way entry hreach
      cases hreach
      obtain ⟨o, ho, _⟩ := h.sound.root
      have hfirst : fs.rootEntry.firstCluster = rootCluster := layout.rootCluster
      rw [hfirst] at hchain
      rw [hchain.unique (hasChain_of_obj layout h.sound ho), hsingle o ho] at hmem
      exact hroot (List.mem_singleton.mp hmem)
    · rw [readFatEntry_view layout _ hvalid]
      exact (formatSectors_fat layout totalSectors label before).2 c hlow

end Runs

theorem Reachable.eq_root {fs : Fat32Fs} {way : List Nat} {entry : FatDirEntry}
    (h : Reachable fs disk way entry)
    (hlisted : fs.listDirectoryCluster disk fs.rootCluster = .ok []) :
    way = [] ∧ entry = fs.rootEntry := by
  induction h with
  | root => exact ⟨rfl, rfl⟩
  | entry _ _ hlist hplace _ _ ih =>
    obtain ⟨_, rfl⟩ := ih
    cases hlisted.symm.trans hlist
    cases hplace

/-- As long as no directory is deleted that has entries, the taken clusters are those of what
can be reached from the root; and once everything is deleted, as many clusters are free as on
the new volume if the root has not outgrown its first cluster. -/
theorem no_lost_clusters {disk disk₀ : Disk} {lbaStart totalSectors : Nat} {label : List UInt8}
    {fs : Fat32Fs} (hlba : lbaStart < 2 ^ 32) (htotal : totalSectors < 2 ^ 32)
    (hformat : format disk lbaStart totalSectors label = (.ok fs, disk₀))
    (hclusters : fs.totalClusters ≤ fatBad) (calls : List Call)
    (hcalls : Guarded fs.step (fun disk call => fs.LegalOk disk call ∧ fs.DeletesEmpty disk call)
      disk₀ calls) :
    let final := calls.foldl fs.step disk₀
    (∀ c, 3 ≤ c → c < fs.entryCount →
      (fs.readFatEntry final c ≠ fatFree ↔ ∃ way entry chain, Reachable fs final way entry ∧
        HasChain fs final entry.firstCluster chain ∧ c ∈ chain)) ∧
      (Guarded fs.step fs.RootRoom disk₀ calls →
        (∀ way entry, Reachable fs final way entry → way = []) →
        fs.freeClusters final = fs.freeClusters disk₀) := by
  intro final
  obtain ⟨hgeometry, rfl⟩ := format_eq hformat
  obtain ⟨layout, _, _⟩ := layout_of_formatGeometry hgeometry hlba htotal hclusters
  have hlabel := length_padTo 11 label
  have hstart := formatted_settled layout totalSectors hlabel disk
  refine ⟨fun c hlow hhigh => ?_, fun hroom halone => ?_⟩
  · have hstep (s : Disk) (call : Call) (h : ∃ objs, Settled fs s objs)
        (hcall : fs.LegalOk s call ∧ fs.DeletesEmpty s call) :
        ∃ objs, Settled fs (fs.step s call) objs := by
      obtain ⟨objs, settled⟩ := h
      obtain ⟨objs', settled', _⟩ := settled_step layout settled hcall.1 hcall.2
      exact ⟨objs', settled'⟩
    obtain ⟨objs, settled⟩ := invariant_of_guarded hstep ⟨formattedObjs, hstart⟩ hcalls
    exact settled.taken_iff layout hlow hhigh
  · have hstep (s : Disk) (call : Call) (h : ∃ objs, Settled fs s objs ∧ RootSingle objs)
        (hcall : (fs.LegalOk s call ∧ fs.DeletesEmpty s call) ∧ fs.RootRoom s call) :
        ∃ objs, Settled fs (fs.step s call) objs ∧ RootSingle objs := by
      obtain ⟨objs, settled, hsingle⟩ := h
      obtain ⟨objs', settled', hkeep⟩ := settled_step layout settled hcall.1.1 hcall.1.2
      exact ⟨objs', settled', hkeep hcall.2 hsingle⟩
    have hsingle : RootSingle formattedObjs := fun o ho => by
      rw [(formattedObjs_eq ho).2]
    obtain ⟨objs, settled, hsingle⟩ := invariant_of_guarded hstep
      ⟨formattedObjs, hstart, hsingle⟩ (hcalls.and hroom)
    exact settled.freeClusters_eq layout hsingle halone totalSectors hlabel disk

/-- A file is written twice in a directory and deleted, and then the directory. -/
theorem no_lost_clusters_small :
    let calls := smallCalls ++ [Call.deleteEntry pathA]
    let final := calls.foldl smallVolume.step smallDisk
    (∀ c, 3 ≤ c → c < smallVolume.entryCount →
      (smallVolume.readFatEntry final c ≠ fatFree ↔ ∃ way entry chain,
        Reachable smallVolume final way entry ∧
        HasChain smallVolume final entry.firstCluster chain ∧ c ∈ chain)) ∧
      smallVolume.freeClusters final = smallVolume.freeClusters smallDisk := by
  intro calls final
  let state (k : Nat) := (calls.take k).foldl smallVolume.step smallDisk
  have hok : (smallVolume.perform (state 0) (.createDir pathA)).1 = .ok () ∧
      (smallVolume.perform (state 1) (.writeFile pathAB [1, 2, 3])).1 = .ok () ∧
      (smallVolume.perform (state 2) (.writeFile pathAB [4])).1 = .ok () ∧
      (smallVolume.perform (state 3) (.deleteEntry pathAB)).1 = .ok () ∧
      (smallVolume.perform (state 4) (.deleteEntry pathA)).1 = .ok () := by
    decide +kernel
  have htarget : smallVolume.target (state 4) pathA =
      some ⟨[0x41], true, 3, 0, attrDirectory⟩ := by decide +kernel
  have hlisted : smallVolume.listDirectoryCluster (state 4) 3 =
      .ok [⟨[dot], true, 3, 0, attrDirectory⟩, ⟨[dot, dot], true, 0, 0, attrDirectory⟩] := by
    decide +kernel
  have hempty : smallVolume.listDirectoryCluster final 2 = .ok [] := by decide +kernel
  have hroom : Guarded smallVolume.step smallVolume.RootRoom smallDisk calls := by
    have hslot : ∀ k, k < 5 → ((state k).sectors
        (smallVolume.clusterToLba smallVolume.rootCluster)).freeSlot ≠ none := by decide +kernel
    refine guarded_iff_getElem?.mpr fun k call hcall _ _ => hslot k ?_
    exact (List.getElem?_eq_some_iff.mp hcall).1
  have hcalls : Guarded smallVolume.step (fun disk call => smallVolume.LegalOk disk call ∧
      smallVolume.DeletesEmpty disk call) smallDisk calls := by
    obtain ⟨hfirst, hwrite, hagain, hdelete, _⟩ := smallCalls_legal
    obtain ⟨hok₀, hok₁, hok₂, hok₃, hok₄⟩ := hok
    refine ⟨⟨⟨hfirst, hok₀⟩, nofun⟩, ⟨⟨hwrite, hok₁⟩, nofun⟩, ⟨⟨hagain, hok₂⟩, nofun⟩,
      ⟨⟨hdelete, hok₃⟩, ?_⟩, ⟨⟨⟨legalPath_small.1, nofun⟩, hok₄⟩, ?_⟩, trivial⟩
    · rintro path entry entries ⟨⟩ h hkind
      cases smallCalls_targets.2.2.symm.trans h
      cases hkind
    · rintro path entry entries ⟨⟩ h _ hentries e he
      cases htarget.symm.trans h
      cases hlisted.symm.trans hentries
      rcases List.mem_cons.mp he with rfl | he
      · exact .inl rfl
      · rw [List.mem_singleton.mp he]
        exact .inr rfl
  obtain ⟨htaken, hfree⟩ := no_lost_clusters (by decide) (by decide) format_blankDisk (by decide)
    calls hcalls
  exact ⟨htaken, hfree hroom fun way entry h => (h.eq_root hempty).1⟩

/-- Deleting a directory with a file in it leaves the cluster of the file taken, and a root
that held sixteen directories keeps the cluster it got for the last of them. -/
theorem clusters_lost :
    let calls : List Call := [.createDir pathA, .writeFile pathAB [1], .deleteEntry pathA]
    let names : List (List UInt8) := (List.range 16).map fun i => [UInt8.ofNat (0x41 + i)]
    let many : List Call := names.map .createDir ++ names.map .deleteEntry
    (¬ (smallVolume.readFatEntry (calls.foldl smallVolume.step smallDisk) 4 ≠ fatFree ↔
      ∃ way entry chain, Reachable smallVolume (calls.foldl smallVolume.step smallDisk) way entry ∧
        HasChain smallVolume (calls.foldl smallVolume.step smallDisk) entry.firstCluster chain ∧
        4 ∈ chain)) ∧
      smallVolume.listDirectoryCluster (many.foldl smallVolume.step smallDisk) 2 = .ok [] ∧
      smallVolume.readFatEntry (many.foldl smallVolume.step smallDisk) 19 = fatEoc := by
  intro calls names many
  refine ⟨fun h => ?_, by decide +kernel⟩
  generalize hdisk : calls.foldl smallVolume.step smallDisk = disk at h
  have htaken : smallVolume.readFatEntry disk 4 ≠ fatFree := by
    subst hdisk
    decide +kernel
  have hlisted : smallVolume.listDirectoryCluster disk 2 = .ok [] := by
    subst hdisk
    decide +kernel
  have hend : smallVolume.readFatEntry disk 2 = fatEoc := by
    subst hdisk
    decide +kernel
  obtain ⟨way, entry, chain, hreach, hchain, hmem⟩ := h.mp htaken
  obtain ⟨_, rfl⟩ := hreach.eq_root hlisted
  have hroot : HasChain smallVolume disk 2 [2] :=
    ⟨List.cons_ne_nil 2 [], by decide, fatEoc, by decide, rfl, hend⟩
  rw [hchain.unique hroot] at hmem
  exact absurd hmem (by decide)

end AuraOS.Fat32
