import AuraOS.NameGraphs
import AuraOS.Fat32Entries
import AuraOS.Fat32Names

namespace AuraOS.Fat32

open LinkedChains NameGraphs Function

variable {α : Type} {f : α → Bool} {dir size : Nat} {o oldObj : Obj} {dirChain rest : List Nat}
  {name bytes : List UInt8} {p : Nat × Nat} {isDir : Bool} {slot : Slot} {effect : Effect}
  {call : Call}

def Edge (view : View) (objs : Objs) (dir : Nat) (name : List UInt8) (k : Nat) : Prop :=
  ∃ p slot, EntryAt view objs dir p slot ∧ toAsciiUppercase slot.fullName = name ∧
    slot.firstCluster = k

def View.Packed (view : View) (chain : List Nat) : Prop :=
  ∀ p ∈ positions chain, (view.slotAt p).isLive = true → p ∈ view.visible chain

def AllPacked (view : View) (objs : Objs) : Prop :=
  ∀ dir o, objs dir = some o → o.isDir = true → view.Packed o.chain

structure Tidy (view : View) (objs : Objs) : Prop where
  packed : AllPacked view objs
  legal : ∀ {dir p slot}, EntryAt view objs dir p slot →
    ∃ name, LegalName name ∧ slot.fullName = toAsciiUppercase name
  distinct : ∀ {dir p p' slot slot'}, EntryAt view objs dir p slot →
    EntryAt view objs dir p' slot' →
    toAsciiUppercase slot.fullName = toAsciiUppercase slot'.fullName → p = p'

section Packed

variable {fs : Fat32Fs} {view view' : View} {objs : Objs} {chain : List Nat} {p : Nat × Nat}
  {slot : Slot}

theorem takeWhile_subset_of_imp {g : α → Bool} {xs : List α}
    (h : ∀ x ∈ xs, f x = true → g x = true) :
    xs.takeWhile f ⊆ xs.takeWhile g := by
  induction xs with
  | nil => exact List.Subset.refl _
  | cons x rest ih =>
    cases hf : f x with
    | false =>
      rw [List.takeWhile_cons_of_neg (by simp [hf])]
      exact List.nil_subset _
    | true =>
      rw [List.takeWhile_cons_of_pos hf, List.takeWhile_cons_of_pos (h x List.mem_cons_self hf)]
      exact List.cons_subset_cons x (ih fun y hy => h y (.tail x hy))

theorem mem_takeWhile_of_append {front back : List α} {x : α} (hfront : ∀ y ∈ front, f y = true)
    (hx : f x = true) : x ∈ (front ++ x :: back).takeWhile f := by
  rw [List.takeWhile_append_of_pos hfront, List.takeWhile_cons_of_pos hx]
  exact List.mem_append_right _ (.head _)

theorem isEnd_of_isLive (h : slot.isLive = true) : slot.isEnd = false := by
  cases hend : slot.isEnd with
  | false => rfl
  | true =>
    have hfree : slot.isFree = true := by
      exact Bool.or_eq_true_iff.mpr (.inl hend)
    rw [isLive_of_isFree hfree] at h
    cases h

theorem isEnd_of_not_isFree (h : slot.isFree ≠ true) : slot.isEnd = false := by
  cases hend : slot.isEnd with
  | false => rfl
  | true => exact absurd (Bool.or_eq_true_iff.mpr (.inl hend)) h

theorem View.Packed.congr (h : view.Packed chain)
    (hslots : ∀ p ∈ positions chain, view'.slotAt p = view.slotAt p) : view'.Packed chain := by
  intro q hq hlive
  rw [hslots q hq] at hlive
  refine takeWhile_subset_of_imp (fun r hr hend => ?_) (h q hq hlive)
  rw [hslots r hr]
  exact hend

theorem View.Packed.put (h : view.Packed chain) (hput : Puts view p slot view')
    (hend : slot.isEnd = false)
    (hp : slot.isLive = true → p ∈ positions chain → p ∈ view'.visible chain) :
    view'.Packed chain := by
  intro q hq hlive
  by_cases hqp : q = p
  · subst hqp
    rw [hput.slot] at hlive
    exact hp hlive hq
  · rw [hput.slotAt_of_ne hqp] at hlive
    refine takeWhile_subset_of_imp (fun r _ hr => ?_) (h q hq hlive)
    by_cases hrp : r = p
    · rw [hrp, hput.slot, hend]
      rfl
    · rw [hput.slotAt_of_ne hrp]
      exact hr

theorem visible_of_first
    (hfirst : (positions chain).find? (fun p => (view.slotAt p).isFree) = some p)
    (hput : Puts view p slot view') (hlive : slot.isLive = true) : p ∈ view'.visible chain := by
  obtain ⟨_, front, back, hsplit, hfront⟩ := List.find?_eq_some_iff_append.mp hfirst
  rw [View.visible, hsplit]
  refine mem_takeWhile_of_append (fun q hq => ?_) ?_
  · by_cases hqp : q = p
    · rw [hqp, hput.slot, isEnd_of_isLive hlive]
      rfl
    · have hnot := hfront q hq
      rw [hput.slotAt_of_ne hqp, isEnd_of_not_isFree (by simpa using hnot)]
      rfl
  · rw [hput.slot, isEnd_of_isLive hlive]
    rfl

theorem packed_grown {x : Nat} (hfull : ∀ q ∈ positions chain, (view'.slotAt q).isFree ≠ true)
    (hslot : (view'.slotAt (x, 0)).isLive = true)
    (hrest : ∀ i, i ≠ 0 → (view'.slotAt (x, i)).isLive = false) : view'.Packed (chain ++ [x]) := by
  intro q hq hlive
  have hpositions : positions (chain ++ [x]) = positions chain ++ clusterPositions x := by
    simp [positions]
  have hall : ∀ q ∈ positions chain, (!(view'.slotAt q).isEnd) = true := fun q hq => by
    rw [isEnd_of_not_isFree (hfull q hq)]
    rfl
  rw [View.visible, hpositions, List.takeWhile_append_of_pos hall]
  rw [hpositions] at hq
  rcases List.mem_append.mp hq with hold | hnew
  · exact List.mem_append_left _ hold
  · obtain ⟨hx, _⟩ := mem_clusterPositions.mp hnew
    have hzero : q = (x, 0) := by
      refine Prod.ext hx (Classical.byContradiction fun hi => ?_)
      have hdead := hrest q.2 hi
      rw [← hx, hlive] at hdead
      cases hdead
    subst hzero
    refine List.mem_append_right _ ?_
    have hfirst : clusterPositions x = [] ++ (x, 0) :: (clusterPositions x).tail := rfl
    rw [hfirst]
    refine mem_takeWhile_of_append (by simp) ?_
    rw [isEnd_of_isLive hslot]
    rfl

theorem AllPacked.insert (h : AllPacked view objs) (sound : Sound fs view objs) (layout : Layout fs)
    (hins : Inserted fs view o.chain slot dirChain p view') (ho : objs dir = some o)
    (hdir : o.isDir = true) (hlive : slot.isLive = true) :
    AllPacked view' (objs.setChain dir o dirChain) := by
  cases hins with
  | free hfirst hput =>
    rw [setChain_self ho]
    intro d o' ho' hkind
    refine (h d o' ho' hkind).put hput (isEnd_of_isLive hlive) fun _ hp => ?_
    have hin : InDir objs dir p := ⟨o, ho, hdir, List.mem_of_find?_eq_some hfirst⟩
    have hin' : InDir objs d p := ⟨o', ho', hkind, hp⟩
    obtain rfl := hin.unique sound hin'
    cases ho.symm.trans ho'
    exact visible_of_first hfirst hput hlive
  | grown hfull halloc hput =>
    rename_i x view₁
    have hgrown := sound.grown layout ho halloc
    have hslots {q : Nat × Nat} (hq : Owned objs q.1) : view'.slotAt q = view.slotAt q := by
      have hqx : q ≠ (x, 0) := by
        rintro rfl
        exact hgrown.fresh hq
      rw [hput.slotAt_of_ne hqx, hgrown.slotAt hq]
    intro d o' ho' hkind
    obtain ⟨old, hold, hkind', _, ⟨rfl, hchain, rfl⟩ | ⟨_, rfl⟩⟩ := setChain_cases ho ho'
    · rw [hchain]
      refine packed_grown (fun q hq => ?_) ?_ fun i hi => ?_
      · rw [hslots ⟨d, old, hold, (mem_positions.mp hq).1⟩]
        exact List.find?_eq_none.mp hfull q hq
      · rw [hput.slot]
        exact hlive
      · rw [hput.others i hi, View.slotAt, hgrown.empty]
        rfl
    · exact (h d o' hold hkind).congr fun q hq => hslots ⟨d, o', hold, (mem_positions.mp hq).1⟩

end Packed

section Edges

variable {fs : Fat32Fs} {view view₁ view' : View} {objs : Objs} {dir k old : Nat}

theorem edge_refers (h : Edge view objs dir name k) :
    ∃ p, Refers view objs dir p k ∧ toAsciiUppercase (view.slotAt p).fullName = name := by
  obtain ⟨p, slot, hentry, hname, htarget⟩ := h
  exact ⟨p, refers_iff.mpr ⟨slot, hentry, htarget⟩, by rw [hentry.slotAt, hname]⟩

theorem Refers.edge (h : Refers view objs dir p k) :
    Edge view objs dir (toAsciiUppercase (view.slotAt p).fullName) k :=
  ⟨p, _, ⟨h.inDir, rfl, h.live, h.notDots⟩, rfl, h.target⟩

variable (sound : Sound fs view objs)
include sound

theorem nameTree (tidy : Tidy view objs) : NameTree (Edge view objs) rootCluster where
  root h := by
    obtain ⟨p, href, _⟩ := edge_refers h
    exact (sound.child href).1 rfl
  single h h' := by
    obtain ⟨p, href, rfl⟩ := edge_refers h
    obtain ⟨p', href', rfl⟩ := edge_refers h'
    obtain rfl := sound.single href href'
    exact ⟨href.inDir.unique sound href'.inDir, rfl⟩
  functional h h' := by
    obtain ⟨p, slot, hentry, hname, rfl⟩ := h
    obtain ⟨p', slot', hentry', hname', rfl⟩ := h'
    obtain rfl := tidy.distinct hentry hentry' (hname.trans hname'.symm)
    rw [← hentry.slotAt, ← hentry'.slotAt]

theorem created_edge (layout : Layout fs) {objs' : Objs}
    (change : Change fs view objs (.created dir name k isDir bytes) view' objs')
    (hname : LegalName name) :
    Edge view' objs' = addLeaf (Edge view objs) dir (toAsciiUppercase name) k := by
  obtain ⟨hfull, hlive⟩ := newSlot_legal hname isDir k bytes
  have hupper : toAsciiUppercase (newSlot name isDir k bytes).fullName = toAsciiUppercase name := by
    rw [hfull, toAsciiUppercase_toAsciiUppercase]
  have hfirst : (newSlot name isDir k bytes).firstCluster = k := by
    cases change with
    | created _ _ _ _ fresh =>
      exact (newSlot_fields name isDir bytes (layout.lt_two_pow (fresh.valid k (.head _)))).2.1
  obtain ⟨p, hentries⟩ := created_entryAt sound layout change hlive
  funext d l j
  refine propext ⟨?_, ?_⟩
  · rintro ⟨q, slot, hentry, rfl, rfl⟩
    rcases hentries.mp hentry with hold | ⟨rfl, _, rfl⟩
    · exact .inl ⟨q, slot, hold, rfl, rfl⟩
    · exact .inr ⟨rfl, hupper, hfirst⟩
  · rintro (⟨q, slot, hold, hl, hj⟩ | ⟨rfl, rfl, rfl⟩)
    · exact ⟨q, slot, hentries.mpr (.inl hold), hl, hj⟩
    · exact ⟨p, _, hentries.mpr (.inr ⟨rfl, rfl, rfl⟩), hupper, hfirst⟩

theorem EntryAt.ne_place {d j : Nat} {q : Nat × Nat} (hentry : EntryAt view objs d q slot)
    (hslot : slot.firstCluster = j) (refers : Refers view objs dir p old) : q ≠ p ↔ j ≠ old := by
  refine not_congr ⟨?_, ?_⟩
  · rintro rfl
    rw [← hslot, ← hentry.slotAt, refers.target]
  · rintro rfl
    exact sound.single (refers_iff.mpr ⟨slot, hentry, hslot⟩) refers

theorem erased_edge (refers : Refers view objs dir p old)
    (hput : Puts (view.clear oldObj.chain) p (view.slotAt p).deleted view') :
    Edge view' (update objs old none) = cut (Edge view objs) old := by
  funext d l j
  refine propext ⟨?_, ?_⟩
  · rintro ⟨q, slot, hentry, hl, hj⟩
    obtain ⟨hold, hd, hq⟩ := (erased_entryAt hput).mp hentry
    exact ⟨⟨q, slot, hold, hl, hj⟩, hd, (hold.ne_place sound hj refers).mp hq⟩
  · rintro ⟨⟨q, slot, hold, hl, hj⟩, hd, hne⟩
    exact ⟨q, slot, (erased_entryAt hput).mpr ⟨hold, hd, (hold.ne_place sound hj refers).mpr hne⟩,
      hl, hj⟩

omit sound in
theorem not_inDir_of_file (ho : objs k = some o) (hfile : o.isDir = false) : ¬ InDir objs k p := by
  rintro ⟨o', ho', hkind, _⟩
  cases ho.symm.trans ho'
  rw [hfile] at hkind
  cases hkind

theorem replaced_edge (layout : Layout fs) {objs' : Objs}
    (change : Change fs view objs (.replaced dir name old k bytes) view' objs') :
    Edge view' objs' = addLeaf (cut (Edge view objs) old) dir (toAsciiUppercase name) k := by
  obtain ⟨p, refers, found, hentries⟩ := replaced_entryAt sound change
  have hupper : toAsciiUppercase ((view.slotAt p).updated k (bytes.length % 2 ^ 32)).fullName =
      toAsciiUppercase name := by
    exact upper_of_hasName found
  obtain ⟨hfirst, hfile⟩ : ((view.slotAt p).updated k (bytes.length % 2 ^ 32)).firstCluster = k ∧
      ∀ q, ¬ InDir objs old q := by
    cases change with
    | replaced _ _ _ ho hfile fresh =>
      exact ⟨firstCluster_updated _ _ (layout.lt_two_pow (fresh.valid k (.head _))),
        fun _ => not_inDir_of_file ho hfile⟩
  funext d l j
  refine propext ⟨?_, ?_⟩
  · rintro ⟨q, slot, hentry, rfl, rfl⟩
    rcases hentries.mp hentry with ⟨hold, hq⟩ | ⟨rfl, _, rfl⟩
    · refine .inl ⟨⟨q, slot, hold, rfl, rfl⟩, ?_, (hold.ne_place sound rfl refers).mp hq⟩
      rintro rfl
      exact hfile q hold.inDir
    · exact .inr ⟨rfl, hupper, hfirst⟩
  · rintro (⟨⟨q, slot, hold, hl, hj⟩, _, hne⟩ | ⟨rfl, rfl, rfl⟩)
    · exact ⟨q, slot, hentries.mpr (.inl ⟨hold, (hold.ne_place sound hj refers).mpr hne⟩), hl, hj⟩
    · exact ⟨p, _, hentries.mpr (.inr ⟨rfl, rfl, rfl⟩), hupper, hfirst⟩

end Edges

section Tidiness

variable {fs : Fat32Fs} {view view₁ view' : View} {objs : Objs} {dir k old : Nat}

variable (h : AllPacked view objs)
include h

theorem FreshChain.allPacked {chain : List Nat}
    (fresh : FreshChain fs view chain view₁) (sound : Sound fs view objs) :
    AllPacked view₁ objs := by
  intro d o ho hkind
  refine (h d o ho hkind).congr fun q hq => ?_
  rw [View.slotAt, View.slotAt, (fresh.frame sound ⟨d, o, ho, (mem_positions.mp hq).1⟩).2]

omit h in
theorem packed_dirSector {target : Nat} (h : view.data k = dirSector k target) :
    view.Packed [k] := by
  intro q hq hlive
  obtain ⟨hk, _⟩ := mem_positions.mp hq
  have hfirst : view.slotAt (k, 0) = dotSlot [dot] k := by
    rw [View.slotAt, h, slot_dirSector_zero]
  have hsecond : view.slotAt (k, 1) = dotSlot [dot, dot] target := by
    rw [View.slotAt, h, slot_dirSector_one]
  have hindex : q.2 < 2 := by
    refine Classical.byContradiction fun hle => ?_
    rw [View.slotAt, List.mem_singleton.mp hk, h,
      slot_dirSector_of_two_le _ _ (Nat.le_of_not_lt hle)] at hlive
    cases hlive
  have hpositions : positions [k] = [(k, 0), (k, 1)] ++ (positions [k]).drop 2 := rfl
  have hvisible : view.visible [k] = [(k, 0), (k, 1)] ++
      ((positions [k]).drop 2).takeWhile fun p => !(view.slotAt p).isEnd := by
    rw [View.visible, hpositions]
    refine List.takeWhile_append_of_pos fun p hp => ?_
    rcases List.mem_cons.mp hp with rfl | hp
    · rw [hfirst]
      rfl
    · rw [List.mem_singleton.mp hp, hsecond]
      rfl
  rw [hvisible]
  refine List.mem_append_left _ ?_
  obtain ⟨x, i⟩ := q
  obtain rfl : x = k := List.mem_singleton.mp hk
  interval_cases i
  · exact .head _
  · exact .tail _ (.head _)

theorem AllPacked.create (sound : Sound fs view objs)
    (fresh : FreshChain fs view (k :: rest) view₁)
    (holds : view₁.Holds (k :: rest) isDir dir bytes) :
    AllPacked view₁ (update objs k (some ⟨isDir, k :: rest, dir⟩)) := by
  intro d o ho hkind
  rcases update_some_cases ho with ⟨rfl, rfl⟩ | ⟨_, ho⟩
  · simp only at hkind ⊢
    subst hkind
    obtain ⟨_, k', hchain, hdata⟩ := holds
    obtain ⟨rfl, rfl⟩ := List.cons.inj hchain
    exact packed_dirSector hdata
  · exact FreshChain.allPacked h fresh sound d o ho hkind

theorem AllPacked.delete (hput : Puts view p slot.deleted view') : AllPacked view' objs := by
  intro d o ho hkind
  exact (h d o ho hkind).put hput rfl fun hlive => by cases hlive

theorem AllPacked.remove : AllPacked view (update objs k none) := fun d o ho hkind =>
  h d o (update_none_eq ho).2 hkind

theorem AllPacked.clear (chain : List Nat) :
    AllPacked (view.clear chain) objs := fun d o ho hkind =>
  (h d o ho hkind).congr fun _ _ => rfl

theorem AllPacked.replaced (sound : Sound fs view objs) {objs' : Objs}
    (change : Change fs view objs (.replaced dir name old k bytes) view' objs') :
    AllPacked view' objs' := by
  cases change with
  | @replaced _ _ p _ oldObj _ rest _ view₁ _ _ refers _ ho hfile fresh _ hput =>
    have hpacked := (FreshChain.allPacked h fresh sound).clear oldObj.chain
    have hsame : (view₁.clear oldObj.chain).slotAt p = view.slotAt p := by
      have hdata := (fresh.frame sound (owned_of_inDir refers.inDir)).2
      exact congrArg (·.slot p.2) hdata
    have hlive := (isLive_updated (view.slotAt p) k (bytes.length % 2 ^ 32)).trans refers.live
    intro d o hd hkind
    rcases update_some_cases hd with ⟨_, rfl⟩ | ⟨_, hd⟩
    · cases hkind
    · have hd := (update_none_eq hd).2
      refine (hpacked d o hd hkind).put hput (isEnd_of_isLive hlive) fun _ hp => ?_
      refine takeWhile_subset_of_imp (fun r _ hr => ?_)
        (hpacked d o hd hkind p hp (hsame ▸ refers.live))
      by_cases hrp : r = p
      · rw [hrp, hput.slot, isEnd_of_isLive hlive]
        rfl
      · rw [hput.slotAt_of_ne hrp]
        exact hr

omit h in
theorem Tidy.created (tidy : Tidy view objs) (sound : Sound fs view objs) (layout : Layout fs)
    {objs' : Objs} (change : Change fs view objs (.created dir name k isDir bytes) view' objs')
    (hname : LegalName name) : Tidy view' objs' := by
  obtain ⟨hfull, hlive⟩ := newSlot_legal hname isDir k bytes
  obtain ⟨p, hentries⟩ := created_entryAt sound layout change hlive
  cases change with
  | @created _ o _ _ _ _ _ _ _ _ _ _ ho hkind habsent fresh holds hins =>
    -- The new name is not among the names of the directory.
    have hnew {q : Nat × Nat} {slot : Slot} (hentry : EntryAt view objs dir q slot)
        (heq : toAsciiUppercase slot.fullName =
          toAsciiUppercase (newSlot name isDir k bytes).fullName) : False := by
      obtain ⟨o₁, ho₁, hkind₁, hq⟩ := hentry.inDir
      cases ho.symm.trans ho₁
      have hslot := hentry.slotAt
      subst hslot
      have hvisible := tidy.packed dir o ho hkind q hq hentry.live
      have hnot := List.find?_eq_none.mp habsent q hvisible
      rw [hfull, toAsciiUppercase_toAsciiUppercase] at heq
      exact hnot (Bool.and_eq_true_iff.mpr ⟨hentry.live, beq_iff_eq.mpr heq⟩)
    refine ⟨(tidy.packed.create sound fresh holds).insert (sound.create layout ho fresh holds)
      layout hins (by rw [update_of_ne (fresh.obj_ne sound ho), ho]) hkind hlive,
      fun {d q s} h => ?_, fun {d q q' s s'} h h' heq => ?_⟩
    · rcases hentries.mp h with hold | ⟨_, _, rfl⟩
      · exact tidy.legal hold
      · exact ⟨name, hname, hfull⟩
    · rcases hentries.mp h with hold | ⟨rfl, rfl, rfl⟩
      · rcases hentries.mp h' with hold' | ⟨rfl, rfl, rfl⟩
        · exact tidy.distinct hold hold' heq
        · exact (hnew hold heq).elim
      · rcases hentries.mp h' with hold' | ⟨_, rfl, _⟩
        · exact (hnew hold' heq.symm).elim
        · rfl

omit h in
theorem Tidy.erased (tidy : Tidy view objs)
    (hput : Puts (view.clear oldObj.chain) p (view.slotAt p).deleted view') :
    Tidy view' (update objs old none) where
  packed := ((tidy.packed.clear oldObj.chain).delete hput).remove
  legal h := tidy.legal ((erased_entryAt hput).mp h).1
  distinct h h' heq :=
    tidy.distinct ((erased_entryAt hput).mp h).1 ((erased_entryAt hput).mp h').1 heq

omit h in
theorem Tidy.replaced (tidy : Tidy view objs) (sound : Sound fs view objs) {objs' : Objs}
    (change : Change fs view objs (.replaced dir name old k bytes) view' objs') :
    Tidy view' objs' := by
  obtain ⟨p, refers, -, hentries⟩ := replaced_entryAt sound change
  have hself : EntryAt view objs dir p (view.slotAt p) :=
    ⟨refers.inDir, rfl, refers.live, refers.notDots⟩
  refine ⟨?_, fun {d q s} h => ?_, fun {d q q' s s'} h h' heq => ?_⟩
  · exact tidy.packed.replaced sound change
  · rcases hentries.mp h with ⟨hold, _⟩ | ⟨_, _, rfl⟩
    · exact tidy.legal hold
    · rw [fullName_updated]
      exact tidy.legal hself
  · rcases hentries.mp h with ⟨hold, hq⟩ | ⟨rfl, rfl, rfl⟩
    · rcases hentries.mp h' with ⟨hold', _⟩ | ⟨rfl, rfl, rfl⟩
      · exact tidy.distinct hold hold' heq
      · rw [fullName_updated] at heq
        exact tidy.distinct hold hself heq
    · rw [fullName_updated] at heq
      rcases hentries.mp h' with ⟨hold', _⟩ | ⟨_, rfl, _⟩
      · exact tidy.distinct hself hold' heq
      · rfl

omit h in
def Effect.Legal : Effect → Prop
  | .created _ name _ _ _ => LegalName name
  | _ => True

omit h in
theorem Change.tidy (layout : Layout fs) (sound : Sound fs view objs) (tidy : Tidy view objs)
    {objs' : Objs} (change : Change fs view objs effect view' objs') (hlegal : effect.Legal) :
    Tidy view' objs' := by
  cases effect with
  | failed =>
    cases change with
    | failed fresh =>
      exact ⟨FreshChain.allPacked tidy.packed fresh sound,
        fun h => tidy.legal ((fresh.entryAt sound).mp h),
        fun h h' => tidy.distinct ((fresh.entryAt sound).mp h) ((fresh.entryAt sound).mp h')⟩
  | created => exact tidy.created sound layout change hlegal
  | replaced => exact tidy.replaced sound change
  | erased =>
    cases change with
    | erased _ _ _ _ hput => exact tidy.erased hput
  | dotsErased =>
    cases change with
    | dotsErased _ hput =>
      have hold {d : Nat} {q : Nat × Nat} {s : Slot} (h : EntryAt view' objs d q s) :
          EntryAt view objs d q s := by
        rcases (entryAt_put hput).mp h with ⟨_, hold⟩ | ⟨_, _, _, hlive, _⟩
        · exact hold
        · cases hlive
      exact ⟨tidy.packed.delete hput, fun h => tidy.legal (hold h),
        fun h h' => tidy.distinct (hold h) (hold h')⟩

end Tidiness

def Effect.Does (effect : Effect) (call : Call) (dir : Nat) : Prop :=
  match call with
  | .writeFile path data => ∃ k, effect = .created dir (lastPart path) k false data ∨
      ∃ old, effect = .replaced dir (lastPart path) old k data
  | .createDir path => ∃ k, effect = .created dir (lastPart path) k true []
  | .deleteEntry path => ∃ old, effect = .erased dir (lastPart path) old

section LegalChanges

variable {fs : Fat32Fs} {disk : Disk} {objs : Objs}

structure LegalChange (fs : Fat32Fs) (disk : Disk) (objs : Objs) (call : Call) (effect : Effect)
    (objs' : Objs) (dir : Nat) : Prop where
  change : Change fs (fs.view disk) objs effect (fs.view (fs.step disk call)) objs'
  does : effect.Does call dir
  parent : fs.parentOf disk call.path = .ok dir
  named : lastPart call.path ≠ []
  legal : LegalName (lastPart call.path)

theorem LegalChange.effect_legal {objs' : Objs}
    (h : LegalChange fs disk objs call effect objs' dir) :
    effect.Legal := by
  have hdoes := h.does
  have hname := h.legal
  cases call with
  | writeFile path data =>
    obtain ⟨k, rfl | ⟨old, rfl⟩⟩ := hdoes
    · exact hname
    · trivial
  | createDir path =>
    obtain ⟨k, rfl⟩ := hdoes
    exact hname
  | deleteEntry path =>
    obtain ⟨old, rfl⟩ := hdoes
    trivial

theorem Tidy.name_ne_nil (tidy : Tidy (fs.view disk) objs) {k : Nat}
    (refers : Refers (fs.view disk) objs dir p k)
    (found : ((fs.view disk).slotAt p).hasName (toAsciiUppercase name) = true) : name ≠ [] := by
  rintro rfl
  obtain ⟨name, hname, hfull⟩ := tidy.legal ⟨refers.inDir, rfl, refers.live, refers.notDots⟩
  have hupper := upper_of_hasName found
  rw [hfull, toAsciiUppercase_toAsciiUppercase] at hupper
  exact hname.ne_nil (List.map_eq_nil_iff.mp hupper)

theorem legal_change (layout : Layout fs) (sound : Sound fs (fs.view disk) objs)
    (tidy : Tidy (fs.view disk) objs) (hcall : fs.Legal disk call)
    (hok : (fs.perform disk call).1 = .ok ()) :
    ∃ effect objs' dir, LegalChange fs disk objs call effect objs' dir := by
  have hcareful := hcall.careful layout sound
  have hpath := hcall.path
  cases call with
  | writeFile path data =>
    obtain ⟨effect, objs', hperformed, hdone⟩ := writeFile_performed layout sound path data hcareful
    obtain ⟨hne, dir, k, hparent, heffect⟩ := hdone hok
    exact ⟨effect, objs', dir, hperformed.change, ⟨k, heffect⟩, hparent, hne,
      legal_lastPart hpath hne⟩
  | createDir path =>
    obtain ⟨effect, objs', hperformed, hdone⟩ := createDir_performed layout sound path
    obtain ⟨hne, dir, k, hparent, heffect⟩ := hdone hok
    exact ⟨effect, objs', dir, hperformed.change, ⟨k, heffect⟩, hparent, hne,
      legal_lastPart hpath hne⟩
  | deleteEntry path =>
    obtain ⟨effect, objs', hperformed, hdone⟩ := deleteEntry_performed layout sound path hcareful
    rcases hdone hok with ⟨entry, htarget, hdots⟩ | ⟨dir, old, hparent, heffect⟩
    · have hname := target_name layout sound htarget
      obtain ⟨hself, hup⟩ := lastPart_not_dots hpath
      have hlast : lastPart (Call.deleteEntry path).path = lastPart path := rfl
      rw [hlast, ← hname] at hself hup
      rcases hdots with hdots | hdots <;> rw [hdots] at hself hup
      · exact absurd rfl hself
      · exact absurd rfl hup
    · have hchange := hperformed.change
      subst heffect
      have hne : lastPart path ≠ [] := by
        cases hchange with
        | erased _ refers found _ _ => exact tidy.name_ne_nil refers found
      exact ⟨_, objs', dir, hperformed.change, ⟨old, rfl⟩, hparent, hne, legal_lastPart hpath hne⟩

end LegalChanges

end AuraOS.Fat32
