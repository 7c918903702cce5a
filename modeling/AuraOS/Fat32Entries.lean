import AuraOS.Fat32Changes

namespace AuraOS.Fat32

open LinkedChains Function

variable {dir k old : Nat} {p : Nat × Nat} {o oldObj : Obj} {chain dirChain rest : List Nat}

structure EntryAt (view : View) (objs : Objs) (dir : Nat) (p : Nat × Nat) (slot : Slot) : Prop where
  inDir : InDir objs dir p
  slotAt : view.slotAt p = slot
  live : slot.isLive = true
  notDots : ¬ slot.isDots

theorem refers_iff {view : View} {objs : Objs} :
    Refers view objs dir p k ↔ ∃ slot, EntryAt view objs dir p slot ∧ slot.firstCluster = k := by
  constructor
  · rintro ⟨hin, hlive, hdots, htarget⟩
    exact ⟨_, ⟨hin, rfl, hlive, hdots⟩, htarget⟩
  · rintro ⟨_, ⟨hin, rfl, hlive, hdots⟩, htarget⟩
    exact ⟨hin, hlive, hdots, htarget⟩

section Steps

variable {fs : Fat32Fs} {view view' : View} {objs : Objs} {d : Nat} {q p : Nat × Nat}
  {s slot : Slot}

theorem entryAt_frame (h : ∀ {d q}, InDir objs d q → view'.slotAt q = view.slotAt q) :
    EntryAt view' objs d q s ↔ EntryAt view objs d q s := by
  constructor
  · rintro ⟨hin, hslot, hlive, hdots⟩
    exact ⟨hin, (h hin).symm.trans hslot, hlive, hdots⟩
  · rintro ⟨hin, hslot, hlive, hdots⟩
    exact ⟨hin, (h hin).trans hslot, hlive, hdots⟩

theorem entryAt_put (hput : Puts view p slot view') :
    EntryAt view' objs d q s ↔ q ≠ p ∧ EntryAt view objs d q s ∨
      q = p ∧ InDir objs d p ∧ s = slot ∧ slot.isLive = true ∧ ¬ slot.isDots := by
  by_cases hq : q = p
  · subst hq
    constructor
    · rintro ⟨hin, hslot, hlive, hdots⟩
      rw [hput.slot] at hslot
      subst hslot
      exact .inr ⟨rfl, hin, rfl, hlive, hdots⟩
    · rintro (⟨hne, _⟩ | ⟨_, hin, rfl, hlive, hdots⟩)
      · exact absurd rfl hne
      · exact ⟨hin, hput.slot, hlive, hdots⟩
  · constructor
    · rintro ⟨hin, hslot, hlive, hdots⟩
      exact .inl ⟨hq, hin, (hput.slotAt_of_ne hq).symm.trans hslot, hlive, hdots⟩
    · rintro (⟨_, hin, hslot, hlive, hdots⟩ | ⟨heq, _⟩)
      · exact ⟨hin, (hput.slotAt_of_ne hq).trans hslot, hlive, hdots⟩
      · exact absurd heq hq

theorem entryAt_add (hk : objs k = none)
    (hslots : o.isDir = true → ∀ p ∈ positions o.chain, (view.slotAt p).isLive = true →
      (view.slotAt p).isDots) :
    EntryAt view (update objs k (some o)) d q s ↔ EntryAt view objs d q s := by
  constructor
  · rintro ⟨⟨o', ho', hdir, hq⟩, rfl, hlive, hdots⟩
    rcases update_some_cases ho' with ⟨rfl, rfl⟩ | ⟨_, ho'⟩
    · exact absurd (hslots hdir q hq hlive) hdots
    · exact ⟨⟨o', ho', hdir, hq⟩, rfl, hlive, hdots⟩
  · rintro ⟨⟨o', ho', hdir, hq⟩, hslot, hlive, hdots⟩
    have hd : d ≠ k := by
      rintro rfl
      cases hk.symm.trans ho'
    exact ⟨⟨o', by rw [update_of_ne hd, ho'], hdir, hq⟩, hslot, hlive, hdots⟩

theorem entryAt_remove :
    EntryAt view (update objs k none) d q s ↔ d ≠ k ∧ EntryAt view objs d q s := by
  constructor
  · rintro ⟨⟨o, ho, hdir, hq⟩, hslot, hlive, hdots⟩
    obtain ⟨hd, ho⟩ := update_none_eq ho
    exact ⟨hd, ⟨o, ho, hdir, hq⟩, hslot, hlive, hdots⟩
  · rintro ⟨hd, ⟨o, ho, hdir, hq⟩, hslot, hlive, hdots⟩
    exact ⟨⟨o, by rw [update_of_ne hd, ho], hdir, hq⟩, hslot, hlive, hdots⟩

theorem Grown.entryAt {x : Nat} (h : Grown view objs dir o x view') :
    EntryAt view' (objs.setChain dir o (o.chain ++ [x])) d q s ↔ EntryAt view objs d q s := by
  constructor
  · rintro ⟨⟨o', ho', hdir, hq⟩, rfl, hlive, hdots⟩
    obtain ⟨old, hold, hkind, _, hqold⟩ := h.place ho' hq hlive
    exact ⟨⟨old, hold, hkind.trans hdir, hqold⟩,
      (h.slotAt ⟨d, old, hold, (mem_positions.mp hqold).1⟩).symm, hlive, hdots⟩
  · rintro ⟨⟨old, hold, hdir, hq⟩, rfl, hlive, hdots⟩
    obtain ⟨hmem, hindex⟩ := mem_positions.mp hq
    refine ⟨?_, h.slotAt ⟨d, old, hold, hmem⟩, hlive, hdots⟩
    by_cases hd : d = dir
    · subst hd
      cases h.obj.symm.trans hold
      exact ⟨_, update_self _ _ _, hdir, mem_positions.mpr ⟨List.mem_append_left _ hmem, hindex⟩⟩
    · exact ⟨old, by rw [Objs.setChain, update_of_ne hd, hold], hdir, hq⟩

theorem entryAt_clear : EntryAt (view.clear chain) objs d q s ↔ EntryAt view objs d q s :=
  entryAt_frame fun _ => rfl

theorem isLive_of_isFree (h : slot.isFree = true) : slot.isLive = false := by
  rw [Slot.isLive, h]
  rfl

theorem Inserted.entryAt (sound : Sound fs view objs) (layout : Layout fs)
    (hins : Inserted fs view o.chain slot dirChain p view') (ho : objs dir = some o)
    (hdir : o.isDir = true) (hlive : slot.isLive = true) (hdots : ¬ slot.isDots) :
    EntryAt view' (objs.setChain dir o dirChain) d q s ↔
      EntryAt view objs d q s ∨ d = dir ∧ q = p ∧ s = slot := by
  cases hins with
  | free hfirst hput =>
    have hin : InDir objs dir p := ⟨o, ho, hdir, List.mem_of_find?_eq_some hfirst⟩
    have hfound := List.find?_some hfirst
    have hfree : (view.slotAt p).isLive = false := isLive_of_isFree hfound
    rw [setChain_self ho, entryAt_put hput]
    constructor
    · rintro (⟨_, hold⟩ | ⟨rfl, hin', rfl, _⟩)
      · exact .inl hold
      · exact .inr ⟨hin'.unique sound hin, rfl, rfl⟩
    · rintro (hold | ⟨rfl, rfl, rfl⟩)
      · refine .inl ⟨?_, hold⟩
        rintro rfl
        have hold' := hold.live
        rw [← hold.slotAt, hfree] at hold'
        cases hold'
      · exact .inr ⟨rfl, hin, rfl, hlive, hdots⟩
  | grown hfull halloc hput =>
    rename_i x view₁
    have hgrown := sound.grown layout ho halloc
    have sound₁ := sound.grow hgrown (valid_of_range halloc.range)
    have hin : InDir (objs.setChain dir o (o.chain ++ [x])) dir (x, 0) :=
      ⟨_, update_self _ _ _, hdir,
        mem_positions.mpr ⟨List.mem_append_right _ (.head _), slotsPerSector_pos⟩⟩
    rw [entryAt_put hput, hgrown.entryAt]
    constructor
    · rintro (⟨_, hold⟩ | ⟨rfl, hin', rfl, _⟩)
      · exact .inl hold
      · exact .inr ⟨hin'.unique sound₁ hin, rfl, rfl⟩
    · rintro (hold | ⟨rfl, rfl, rfl⟩)
      · refine .inl ⟨?_, hold⟩
        rintro rfl
        exact hgrown.fresh (owned_of_inDir hold.inDir)
      · exact .inr ⟨rfl, hin, rfl, hlive, hdots⟩

end Steps

section Changes

variable {fs : Fat32Fs} {view view₁ view' : View} {objs : Objs} {d : Nat} {q : Nat × Nat} {s : Slot}

theorem FreshChain.entryAt (fresh : FreshChain fs view chain view₁) (sound : Sound fs view objs) :
    EntryAt view₁ objs d q s ↔ EntryAt view objs d q s :=
  entryAt_frame fun hin => by
    rw [View.slotAt, View.slotAt, (fresh.frame sound (owned_of_inDir hin)).2]

theorem FreshChain.obj_eq_none (fresh : FreshChain fs view (k :: rest) view₁)
    (sound : Sound fs view objs) : objs k = none := by
  cases hk : objs k with
  | none => rfl
  | some o => exact absurd rfl (fresh.obj_ne sound hk)

theorem created_entryAt (sound : Sound fs view objs) (layout : Layout fs) {name : List UInt8}
    {isDir : Bool} {bytes : List UInt8} {objs' : Objs}
    (change : Change fs view objs (.created dir name k isDir bytes) view' objs')
    (hlive : (newSlot name isDir k bytes).isLive = true) :
    ∃ p, ∀ {d q s}, EntryAt view' objs' d q s ↔
      EntryAt view objs d q s ∨ d = dir ∧ q = p ∧ s = newSlot name isDir k bytes := by
  cases change with
  | @created _ _ _ _ _ _ _ _ _ _ p _ ho hkind _ fresh holds hins =>
    have hvalid := fresh.valid k (.head _)
    have hdots := (newSlot_fields name isDir bytes (layout.lt_two_pow hvalid)).1
    refine ⟨p, fun {d q s} => ?_⟩
    rw [hins.entryAt (sound.create layout ho fresh holds) layout
      (by rw [update_of_ne (fresh.obj_ne sound ho), ho]) hkind hlive hdots,
      entryAt_add (fresh.obj_eq_none sound), fresh.entryAt sound]
    exact fun hnew p' hp' hlive' => (fresh.dotSlots layout sound ho holds hnew p' hp' hlive').1

theorem erased_entryAt (hput : Puts (view.clear oldObj.chain) p (view.slotAt p).deleted view') :
    EntryAt view' (update objs old none) d q s ↔ EntryAt view objs d q s ∧ d ≠ old ∧ q ≠ p := by
  rw [entryAt_remove, entryAt_put hput, entryAt_clear]
  constructor
  · rintro ⟨hd, ⟨hq, hold⟩ | ⟨_, _, _, hlive, _⟩⟩
    · exact ⟨hold, hd, hq⟩
    · cases hlive
  · rintro ⟨hold, hd, hq⟩
    exact ⟨hd, .inl ⟨hq, hold⟩⟩

theorem replaced_entryAt (sound : Sound fs view objs) {name bytes : List UInt8} {objs' : Objs}
    (change : Change fs view objs (.replaced dir name old k bytes) view' objs') :
    ∃ p, Refers view objs dir p old ∧ (view.slotAt p).hasName (toAsciiUppercase name) = true ∧
      ∀ {d q s}, EntryAt view' objs' d q s ↔ EntryAt view objs d q s ∧ q ≠ p ∨
        d = dir ∧ q = p ∧ s = (view.slotAt p).updated k (bytes.length % 2 ^ 32) := by
  cases change with
  | @replaced _ _ p _ _ _ rest _ _ _ _ refers found ho hfile fresh _ hput =>
    refine ⟨p, refers, found, fun {d q s} => ?_⟩
    have hnone' : update objs old none k = none := by
      rw [update_of_ne (fresh.obj_ne sound ho).symm, fresh.obj_eq_none sound]
    -- The old file had no entries.
    have hfrom {p' : Nat × Nat} (hin : InDir objs old p') : False := by
      obtain ⟨o, ho', hkind, _⟩ := hin
      cases ho.symm.trans ho'
      rw [hfile] at hkind
      cases hkind
    have hnew : EntryAt view' (update (update objs old none) k
        (some ⟨false, k :: rest, dir⟩)) d q s ↔
        EntryAt view' (update objs old none) d q s :=
      entryAt_add hnone' fun hkind => absurd hkind Bool.false_ne_true
    rw [hnew, entryAt_remove, entryAt_put hput, entryAt_clear, fresh.entryAt sound]
    constructor
    · rintro ⟨_, ⟨hq, hentry⟩ | ⟨rfl, hin, rfl, _⟩⟩
      · exact .inl ⟨hentry, hq⟩
      · exact .inr ⟨hin.unique sound refers.inDir, rfl, rfl⟩
    · rintro (⟨hentry, hq⟩ | ⟨rfl, rfl, rfl⟩)
      · refine ⟨?_, .inl ⟨hq, hentry⟩⟩
        rintro rfl
        exact hfrom hentry.inDir
      · refine ⟨?_, .inr ⟨rfl, refers.inDir, rfl, ?_, ?_⟩⟩
        · rintro rfl
          exact hfrom refers.inDir
        · rw [isLive_updated]
          exact refers.live
        · rw [Slot.isDots, fullName_updated]
          exact refers.notDots

end Changes

end AuraOS.Fat32
