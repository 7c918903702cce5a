import AuraOS.Fat32Paths

namespace AuraOS.Fat32

open LinkedChains Function

variable {x k dir old : Nat} {chain rest dirChain : List Nat} {p : Nat × Nat} {slot : Slot}
  {isDir : Bool} {bytes : List UInt8} {o oldObj : Obj}

inductive Inserted (fs : Fat32Fs) (view : View) (chain : List Nat) (slot : Slot) :
    List Nat → Nat × Nat → View → Prop
  | free {p : Nat × Nat} {view' : View}
      (first : (positions chain).find? (fun p => (view.slotAt p).isFree) = some p)
      (put : Puts view p slot view') : Inserted fs view chain slot chain p view'
  | grown {x : Nat} {view₁ view' : View}
      (full : (positions chain).find? (fun p => (view.slotAt p).isFree) = none)
      (allocated : Allocated fs view chain.getLast? x view₁)
      (put : Puts view₁ (x, 0) slot view') :
      Inserted fs view chain slot (chain ++ [x]) (x, 0) view'

def attrOf (isDir : Bool) : UInt8 := if isDir then attrDirectory else attrArchive

def View.Holds (view : View) (chain : List Nat) (isDir : Bool) (dir : Nat) (bytes : List UInt8) :
    Prop :=
  if isDir then
    bytes = [] ∧ ∃ k, chain = [k] ∧ view.data k = dirSector k (if dir = rootCluster then 0 else dir)
  else view.Stores chain bytes

inductive Effect where
  | failed
  | created (dir : Nat) (name : List UInt8) (first : Nat) (isDir : Bool) (bytes : List UInt8)
  | replaced (dir : Nat) (name : List UInt8) (old first : Nat) (bytes : List UInt8)
  | erased (dir : Nat) (name : List UInt8) (old : Nat)
  | dotsErased

def newSlot (name : List UInt8) (isDir : Bool) (first : Nat) (bytes : List UInt8) : Slot :=
  entrySlot (toShortName name) (attrOf isDir) first (bytes.length % 2 ^ 32)

inductive Change (fs : Fat32Fs) (view : View) (objs : Objs) : Effect → View → Objs → Prop
  | failed {chain : List Nat} {view' : View} (fresh : FreshChain fs view chain view') :
      Change fs view objs .failed view' objs
  | created {dir : Nat} {o : Obj} {name : List UInt8} {k : Nat} {rest : List Nat} {isDir : Bool}
      {bytes : List UInt8} {view₁ view' : View} {dirChain : List Nat} {p : Nat × Nat}
      (attached : Attached view objs dir) (obj : objs dir = some o) (isDirectory : o.isDir = true)
      (absent : (view.visible o.chain).find?
        (fun p => (view.slotAt p).hasName (toAsciiUppercase name)) = none)
      (fresh : FreshChain fs view (k :: rest) view₁)
      (holds : view₁.Holds (k :: rest) isDir dir bytes)
      (inserted : Inserted fs view₁ o.chain (newSlot name isDir k bytes) dirChain p view') :
      Change fs view objs (.created dir name k isDir bytes) view'
        (Objs.setChain (update objs k (some ⟨isDir, k :: rest, dir⟩)) dir o dirChain)
  | replaced {dir : Nat} {name : List UInt8} {p : Nat × Nat} {old : Nat} {oldObj : Obj} {k : Nat}
      {rest : List Nat} {bytes : List UInt8} {view₁ view' : View}
      (attached : Attached view objs dir) (refers : Refers view objs dir p old)
      (found : (view.slotAt p).hasName (toAsciiUppercase name) = true)
      (obj : objs old = some oldObj) (isFile : oldObj.isDir = false)
      (fresh : FreshChain fs view (k :: rest) view₁) (stores : view₁.Stores (k :: rest) bytes)
      (put : Puts (view₁.clear oldObj.chain) p
        ((view.slotAt p).updated k (bytes.length % 2 ^ 32)) view') :
      Change fs view objs (.replaced dir name old k bytes) view'
        (update (update objs old none) k (some ⟨false, k :: rest, dir⟩))
  | erased {dir : Nat} {name : List UInt8} {p : Nat × Nat} {old : Nat} {oldObj : Obj} {view' : View}
      (attached : Attached view objs dir) (refers : Refers view objs dir p old)
      (found : (view.slotAt p).hasName (toAsciiUppercase name) = true)
      (obj : objs old = some oldObj)
      (put : Puts (view.clear oldObj.chain) p (view.slotAt p).deleted view') :
      Change fs view objs (.erased dir name old) view' (update objs old none)
  | dotsErased {dir : Nat} {p : Nat × Nat} {view' : View} (inDir : InDir objs dir p)
      (put : Puts view p (view.slotAt p).deleted view') :
      Change fs view objs .dotsErased view' objs

theorem slotsPerSector_pos : 0 < slotsPerSector := by decide

section Soundness

variable {fs : Fat32Fs} {view view₁ view' : View} {objs : Objs}

theorem Layout.lt_two_pow (layout : Layout fs) (hx : fs.Valid x) : x < 2 ^ 32 := by
  have := layout.lt_fatBad hx
  grind

theorem Sound.owned_ne_free (sound : Sound fs view objs) (hx : Owned objs x) :
    view.fat x ≠ fatFree := by
  obtain ⟨k, o, ho, hmem⟩ := hx
  exact fat_ne_free (sound.valid ho) (sound.follows ho) hmem

theorem FreshChain.not_owned (fresh : FreshChain fs view chain view₁) (sound : Sound fs view objs)
    (hx : x ∈ chain) : ¬ Owned objs x := fun howned =>
  sound.owned_ne_free howned (fresh.free x hx)

theorem FreshChain.obj_ne (fresh : FreshChain fs view (k :: rest) view₁)
    (sound : Sound fs view objs)
    {j : Nat} (hj : objs j = some o) : j ≠ k := by
  rintro rfl
  exact fresh.not_owned sound (.head _) ⟨j, o, hj, sound.first hj⟩

theorem FreshChain.frame (fresh : FreshChain fs view chain view₁) (sound : Sound fs view objs)
    (hx : Owned objs x) : view₁.fat x = view.fat x ∧ view₁.data x = view.data x := by
  have hnot : x ∉ chain := fun hmem => fresh.not_owned sound hmem hx
  exact ⟨fresh.fat x hnot, fresh.data x hnot⟩

theorem Sound.fresh (sound : Sound fs view objs) (fresh : FreshChain fs view chain view₁) :
    Sound fs view₁ objs :=
  sound.frame fun _ hx => fresh.frame sound hx

theorem FreshChain.not_refers (fresh : FreshChain fs view (k :: rest) view₁)
    (sound : Sound fs view objs) : ¬ Refers view₁ objs dir p k := by
  intro href
  obtain ⟨_, o, ho, _⟩ := (sound.fresh fresh).child href
  exact fresh.obj_ne sound ho rfl

theorem isDir_entrySlot {name : List UInt8 × List UInt8} (hname : name.1.length = 8)
    (hext : name.2.length = 3) (attr : UInt8) (firstCluster fileSize : Nat) :
    (entrySlot name attr firstCluster fileSize).isDir = (attr &&& attrDirectory != 0) := by
  rw [Slot.isDir, attr_entrySlot hname hext]

theorem isDir_dotSlot (name : List UInt8) (cluster : Nat) : (dotSlot name cluster).isDir = true :=
  isDir_entrySlot (length_padTo 8 name) (length_padTo 3 []) attrDirectory cluster 0

theorem dirSector_slots (hk : 3 ≤ k) (hk' : k < 2 ^ 32) (hdir : dir < 2 ^ 32) {i : Nat}
    (hslot : slot = (dirSector k (if dir = rootCluster then 0 else dir)).slot i)
    (hlive : slot.isLive = true) : slot.isDots ∧ DotsSound k dir slot := by
  have hroot : k ≠ rootCluster := by
    grind
  match i with
  | 0 =>
    rw [slot_dirSector_zero] at hslot
    subst hslot
    have hname := fullName_dotSlot k
    have hfirst : (dotSlot [dot] k).firstCluster = k :=
      firstCluster_entrySlot (length_padTo 8 [dot]) (length_padTo 3 []) _ _ _ hk'
    refine ⟨.inl hname, fun _ => ⟨hroot, isDir_dotSlot _ _, hfirst⟩, fun hup => ?_⟩
    cases hup
  | 1 =>
    rw [slot_dirSector_one] at hslot
    subst hslot
    have hname := fullName_dotDotSlot (if dir = rootCluster then 0 else dir)
    have htarget : (if dir = rootCluster then 0 else dir) < 2 ^ 32 := by
      split
      · exact Nat.two_pow_pos 32
      · exact hdir
    have hfirst : (dotSlot [dot, dot] (if dir = rootCluster then 0 else dir)).firstCluster = _ :=
      firstCluster_entrySlot (length_padTo 8 [dot, dot]) (length_padTo 3 []) _ _ _ htarget
    refine ⟨.inr hname, fun hself => ?_, fun _ => ⟨hroot, isDir_dotSlot _ _, hfirst⟩⟩
    rw [hname] at hself
    cases hself
  | i + 2 =>
    rw [slot_dirSector_of_two_le _ _ (Nat.le_add_left 2 i)] at hslot
    subst hslot
    cases hlive

theorem FreshChain.dotSlots (layout : Layout fs) (sound : Sound fs view objs)
    (ho : objs dir = some o) (fresh : FreshChain fs view (k :: rest) view₁)
    (holds : view₁.Holds (k :: rest) isDir dir bytes) (hkind : isDir = true) (p : Nat × Nat)
    (hp : p ∈ positions (k :: rest)) (hlive : (view₁.slotAt p).isLive = true) :
    (view₁.slotAt p).isDots ∧ DotsSound k dir (view₁.slotAt p) := by
  subst hkind
  obtain ⟨_, k', hchain, hdata⟩ := holds
  obtain ⟨hmem, _⟩ := mem_positions.mp hp
  rw [hchain] at hmem
  have hk : k = k' := (List.cons.inj hchain).1
  subst hk
  have hp1 : p.1 = k := List.mem_singleton.mp hmem
  refine dirSector_slots (fresh.range k (.head _)).1
    (layout.lt_two_pow (fresh.valid k (.head _)))
    (layout.lt_two_pow (sound.valid ho dir (sound.first ho))) (i := p.2) ?_ hlive
  rw [View.slotAt, hp1, hdata]

theorem Sound.create (sound : Sound fs view objs) (layout : Layout fs) (ho : objs dir = some o)
    (fresh : FreshChain fs view (k :: rest) view₁)
    (holds : view₁.Holds (k :: rest) isDir dir bytes) :
    Sound fs view₁ (update objs k (some ⟨isDir, k :: rest, dir⟩)) :=
  (sound.fresh fresh).add fresh.follows List.mem_cons_self fresh.valid
    (fun _ hx => fresh.not_owned sound hx) (fresh.dotSlots layout sound ho holds)

theorem Sound.grown (sound : Sound fs view objs) (layout : Layout fs) (ho : objs dir = some o)
    (halloc : Allocated fs view o.chain.getLast? x view₁) : Grown view objs dir o x view₁ := by
  have hne : o.chain ≠ [] := List.ne_nil_of_mem (sound.first ho)
  have hfresh : ¬ Owned objs x := fun hx => sound.owned_ne_free hx halloc.free
  have hview := halloc.eq
  rw [List.getLast?_eq_some_getLast hne] at hview
  have howned {y : Nat} (hy : Owned objs y) : y ≠ x := fun heq => hfresh (heq ▸ hy)
  refine ⟨ho, hfresh, ?_, fun y hy => ?_, fun k o' y hk ho' hy => ?_, ?_⟩
  · rw [hview, View.setData_data, update_self]
  · rw [hview, View.setData_data, update_of_ne (howned hy)]
    rfl
  · have hlast : y ≠ o.chain.getLast hne := fun heq =>
      hk (sound.disjoint ho' ho hy (heq ▸ List.getLast_mem hne))
    rw [hview]
    exact (update_of_ne hlast _ _).trans (update_of_ne (howned ⟨k, o', ho', hy⟩) _ _)
  · rw [hview]
    exact (sound.follows ho).extend (layout.stop_notMem (sound.valid ho)) hne fun hx =>
      hfresh ⟨dir, o, ho, hx⟩

theorem Sound.insert (sound : Sound fs view objs) (layout : Layout fs) (ho : objs dir = some o)
    (hdir : o.isDir = true) (hins : Inserted fs view o.chain slot dirChain p view')
    (hdots : ¬ slot.isDots) (hroot : slot.firstCluster ≠ rootCluster)
    (hchild : ∃ child, objs slot.firstCluster = some child ∧ child.isDir = slot.isDir ∧
      child.parent = dir) (hfree : ∀ dir' q, ¬ Refers view objs dir' q slot.firstCluster) :
    Sound fs view' (objs.setChain dir o dirChain) := by
  cases hins with
  | free hfirst hput =>
    rw [setChain_self ho]
    exact sound.put hput ho hdir (List.mem_of_find?_eq_some hfirst) fun _ =>
      ⟨hdots, hroot, hchild, fun dir' q _ => hfree dir' q⟩
  | grown hfull halloc hput =>
    have hgrown := sound.grown layout ho halloc
    refine (sound.grow hgrown (valid_of_range halloc.range)).put hput
      (update_self _ _ _) hdir ?_ fun _ => ⟨hdots, hroot, ?_, fun dir' q _ href => ?_⟩
    · exact mem_positions.mpr ⟨List.mem_append_right _ (.head _), slotsPerSector_pos⟩
    · obtain ⟨child, hobj, hkind, hparent⟩ := hchild
      obtain ⟨child', hobj', hkind', hparent'⟩ := setChain_of_some ho hobj
      exact ⟨child', hobj', hkind'.trans hkind, hparent'.trans hparent⟩
    · exact hfree dir' q (hgrown.refers href).1

theorem Sound.release (sound : Sound fs view objs) (ho : objs k = some o) (hroot : k ≠ rootCluster)
    (hfree : ∀ dir p, ¬ Refers view objs dir p k) :
    Sound fs (view.clear o.chain) (update objs k none) := by
  refine (sound.remove hroot hfree).frame fun x hx => ⟨if_neg fun hmem => ?_, rfl⟩
  obtain ⟨j, o', ho', hx'⟩ := hx
  obtain ⟨hne, hold⟩ := update_none_eq ho'
  exact hne (sound.disjoint hold ho hx' hmem)

theorem Refers.of_update {j : Nat} {value : Option Obj}
    (h : Refers view (update objs k value) dir p j) (hdir : dir ≠ k) :
    Refers view objs dir p j := by
  obtain ⟨⟨o, ho, hkind, hp⟩, hlive, hdots, htarget⟩ := h
  rw [update_of_ne hdir] at ho
  exact ⟨⟨o, ho, hkind, hp⟩, hlive, hdots, htarget⟩

theorem FreshChain.not_refers_new (fresh : FreshChain fs view (k :: rest) view₁)
    (sound : Sound fs view objs)
    (sound₁ : Sound fs view₁ (update objs k (some ⟨isDir, k :: rest, dir⟩)))
    (ho : objs dir = some o) (d : Nat) (p : Nat × Nat) :
    ¬ Refers view₁ (update objs k (some ⟨isDir, k :: rest, dir⟩)) d p k := by
  intro href
  obtain ⟨_, o', ho', _, hparent⟩ := sound₁.child href
  rw [update_self, Option.some.injEq] at ho'
  subst ho'
  have hdir : d ≠ k := by
    rintro rfl
    simp only at hparent
    subst hparent
    exact fresh.obj_ne sound ho rfl
  exact fresh.not_refers sound (href.of_update hdir)

theorem newSlot_fields (name : List UInt8) (isDir : Bool) (bytes : List UInt8) (hk : k < 2 ^ 32) :
    ¬ (newSlot name isDir k bytes).isDots ∧ (newSlot name isDir k bytes).firstCluster = k ∧
      (newSlot name isDir k bytes).isDir = isDir := by
  obtain ⟨hself, hup⟩ := fullName_entrySlot_ne name (attrOf isDir) k (bytes.length % 2 ^ 32)
  refine ⟨fun h => h.elim hself hup, ?_, ?_⟩
  · exact firstCluster_entrySlot (length_padTo 8 _) (length_padTo 3 _) _ _ _ hk
  · rw [newSlot, isDir_entrySlot (length_padTo 8 _) (length_padTo 3 _)]
    cases isDir <;> rfl

theorem Puts.of_clear (h : Puts (view.clear chain) p slot view') :
    Puts view p slot ⟨view.fat, view'.data⟩ ∧ view' = View.clear ⟨view.fat, view'.data⟩ chain := by
  refine ⟨⟨rfl, h.data, h.slot, h.others⟩, ?_⟩
  obtain ⟨fat, data⟩ := view'
  have hfat : fat = _ := h.fat
  rw [hfat]
  rfl

theorem Sound.created (sound : Sound fs view objs) (layout : Layout fs) {name : List UInt8}
    {objs' : Objs} (change : Change fs view objs (.created dir name k isDir bytes) view' objs') :
    Sound fs view' objs' := by
  cases change with
  | created _ ho hkind _ fresh holds hins =>
    have hrange := fresh.range k (.head _)
    have sound₁ := sound.create layout ho fresh holds
    obtain ⟨hdots, hfirst, hnewKind⟩ := newSlot_fields name isDir bytes
      (layout.lt_two_pow (valid_of_range hrange))
    refine sound₁.insert layout (by rw [update_of_ne (fresh.obj_ne sound ho), ho]) hkind
      hins hdots ?_ ?_ ?_
    · rw [hfirst]
      grind
    · rw [hfirst, hnewKind]
      exact ⟨_, update_self _ _ _, rfl, rfl⟩
    · rw [hfirst]
      exact fresh.not_refers_new sound sound₁ ho

theorem Sound.erased (sound : Sound fs view objs) (refers : Refers view objs dir p old)
    (ho : objs old = some oldObj)
    (hput : Puts (view.clear oldObj.chain) p (view.slotAt p).deleted view') :
    Sound fs view' (update objs old none) := by
  obtain ⟨hroot, _⟩ := sound.child refers
  obtain ⟨hput', hview⟩ := hput.of_clear
  obtain ⟨dirObj, hdirObj, hdirKind, hp⟩ := refers.inDir
  rw [hview]
  refine (sound.put hput' hdirObj hdirKind hp fun hlive => by cases hlive).release ho hroot ?_
  -- The entry was the only one.
  rintro d q ⟨hin, hlive, hdots, htarget⟩
  by_cases hq : q = p
  · rw [hq, hput'.slot, isLive_deleted] at hlive
    cases hlive
  · rw [hput'.slotAt_of_ne hq] at hlive hdots htarget
    exact hq (sound.single ⟨hin, hlive, hdots, htarget⟩ refers)

theorem Sound.replaced (sound : Sound fs view objs) (layout : Layout fs) {name : List UInt8}
    {objs' : Objs} (change : Change fs view objs (.replaced dir name old k bytes) view' objs') :
    Sound fs view' objs' := by
  cases change with
  | @replaced _ _ p _ oldObj _ rest _ view₁ _ _ refers _ ho hfile fresh stores hput =>
    have hrange := fresh.range k (.head _)
    obtain ⟨hroot, oldObj', ho', holdKind, _⟩ := sound.child refers
    rw [ho, Option.some.injEq] at ho'
    subst ho'
    obtain ⟨dirObj, hdirObj, hdirKind, hp⟩ := refers.inDir
    have holds : view₁.Holds (k :: rest) false dir bytes := stores
    have sound₁ := sound.create layout hdirObj fresh holds
    obtain ⟨hput', hview⟩ := hput.of_clear
    have hfirst : ((view.slotAt p).updated k (bytes.length % 2 ^ 32)).firstCluster = k :=
      firstCluster_updated _ _ (layout.lt_two_pow (valid_of_range hrange))
    have hdirObj₁ : update objs k (some ⟨false, k :: rest, dir⟩) dir = some dirObj := by
      rw [update_of_ne (fresh.obj_ne sound hdirObj), hdirObj]
    -- First the entry leads to the new chain, then the old one is given back.
    have sound₂ := sound₁.put hput' hdirObj₁ hdirKind hp fun _ => by
      refine ⟨?_, ?_, ?_, ?_⟩
      · rw [Slot.isDots, fullName_updated]
        exact refers.notDots
      · rw [hfirst]
        grind
      · rw [hfirst]
        refine ⟨_, update_self _ _ _, ?_, rfl⟩
        exact hfile.symm.trans holdKind
      · rw [hfirst]
        exact fun d q _ => fresh.not_refers_new sound sound₁ hdirObj d q
    have hold := fresh.obj_ne sound ho
    rw [hview, update_comm hold]
    refine sound₂.release (by rw [update_of_ne hold, ho]) hroot ?_
    rintro d q ⟨hin, hlive, hdots, htarget⟩
    by_cases hq : q = p
    · rw [hq, hput'.slot, hfirst] at htarget
      exact hold htarget.symm
    · rw [hput'.slotAt_of_ne hq] at hlive hdots htarget
      have hsame : view₁.slotAt p = view.slotAt p := by
        rw [View.slotAt, View.slotAt, (fresh.frame sound (owned_of_inDir refers.inDir)).2]
      have hbefore : Refers view₁ (update objs k (some ⟨false, k :: rest, dir⟩)) dir p old :=
        ⟨⟨dirObj, hdirObj₁, hdirKind, hp⟩, hsame ▸ refers.live, hsame ▸ refers.notDots,
          hsame ▸ refers.target⟩
      exact hq (sound₁.single ⟨hin, hlive, hdots, htarget⟩ hbefore)

theorem Change.sound (layout : Layout fs) (sound : Sound fs view objs) {effect : Effect}
    {objs' : Objs} (change : Change fs view objs effect view' objs') : Sound fs view' objs' := by
  cases effect with
  | failed =>
    cases change with
    | failed fresh => exact sound.fresh fresh
  | created => exact sound.created layout change
  | replaced => exact sound.replaced layout change
  | erased =>
    cases change with
    | erased _ refers _ ho hput => exact sound.erased refers ho hput
  | dotsErased =>
    cases change with
    | dotsErased inDir hput =>
      obtain ⟨dirObj, hdirObj, hdirKind, hp⟩ := inDir
      exact sound.put hput hdirObj hdirKind hp fun hlive => by cases hlive

end Soundness

end AuraOS.Fat32
