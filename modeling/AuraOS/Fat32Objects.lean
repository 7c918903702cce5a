import AuraOS.Fat32Slots

namespace AuraOS.Fat32

open LinkedChains Function

variable {dir k j d : Nat} {p : Nat × Nat} {o o' : Obj} {chain : List Nat}

structure Obj where
  isDir : Bool
  chain : List Nat
  parent : Nat

abbrev Objs := Nat → Option Obj

def rootCluster : Nat := 2

attribute [grind =] rootCluster

def Slot.isDir (slot : Slot) : Bool := slot.attr &&& attrDirectory != 0

def Slot.isDots (slot : Slot) : Prop := slot.fullName = [dot] ∨ slot.fullName = [dot, dot]

instance (slot : Slot) : Decidable slot.isDots := inferInstanceAs (Decidable (_ ∨ _))

def Owned (objs : Objs) (x : Nat) : Prop := ∃ k o, objs k = some o ∧ x ∈ o.chain

def InDir (objs : Objs) (dir : Nat) (p : Nat × Nat) : Prop :=
  ∃ o, objs dir = some o ∧ o.isDir = true ∧ p ∈ positions o.chain

structure Refers (view : View) (objs : Objs) (dir : Nat) (p : Nat × Nat) (target : Nat) : Prop where
  inDir : InDir objs dir p
  live : (view.slotAt p).isLive = true
  notDots : ¬ (view.slotAt p).isDots
  target : (view.slotAt p).firstCluster = target

structure DotsSound (dir parent : Nat) (slot : Slot) : Prop where
  self : slot.fullName = [dot] → dir ≠ rootCluster ∧ slot.isDir = true ∧ slot.firstCluster = dir
  up : slot.fullName = [dot, dot] →
    dir ≠ rootCluster ∧ slot.isDir = true ∧
      slot.firstCluster = if parent = rootCluster then 0 else parent

structure Sound (fs : Fat32Fs) (view : View) (objs : Objs) : Prop where
  root : ∃ o, objs rootCluster = some o ∧ o.isDir = true
  follows : ∀ {k o}, objs k = some o → Follows view.fat fatEoc k o.chain
  first : ∀ {k o}, objs k = some o → k ∈ o.chain
  valid : ∀ {k o}, objs k = some o → ∀ x ∈ o.chain, fs.Valid x
  disjoint : ∀ {k k' o o' x}, objs k = some o → objs k' = some o' → x ∈ o.chain → x ∈ o'.chain →
    k = k'
  dots : ∀ {dir o p}, objs dir = some o → o.isDir = true → p ∈ positions o.chain →
    (view.slotAt p).isLive = true → DotsSound dir o.parent (view.slotAt p)
  child : ∀ {dir p k}, Refers view objs dir p k → k ≠ rootCluster ∧
    ∃ o, objs k = some o ∧ o.isDir = (view.slotAt p).isDir ∧ o.parent = dir
  single : ∀ {dir dir' p p' k}, Refers view objs dir p k → Refers view objs dir' p' k → p = p'

section Changes

variable {fs : Fat32Fs} {view view' : View} {objs : Objs}

theorem owned_of_inDir (h : InDir objs dir p) : Owned objs p.1 := by
  obtain ⟨o, ho, _, hp⟩ := h
  exact ⟨dir, o, ho, (mem_positions.mp hp).1⟩

variable (h : Sound fs view objs)
include h

theorem InDir.unique {dir' : Nat} (hp : InDir objs dir p)
    (hp' : InDir objs dir' p) : dir = dir' := by
  obtain ⟨o, ho, _, hmem⟩ := hp
  obtain ⟨o', ho', _, hmem'⟩ := hp'
  exact h.disjoint ho ho' (mem_positions.mp hmem).1 (mem_positions.mp hmem').1

omit h in
theorem update_some_cases (h : update objs k (some o) j = some o') :
    j = k ∧ o = o' ∨ j ≠ k ∧ objs j = some o' := by
  by_cases heq : j = k
  · subst heq
    rw [update_self, Option.some.injEq] at h
    exact .inl ⟨rfl, h⟩
  · rw [update_of_ne heq] at h
    exact .inr ⟨heq, h⟩

omit h in
theorem update_none_eq (h : update objs k none j = some o) : j ≠ k ∧ objs j = some o := by
  by_cases heq : j = k
  · subst heq
    rw [update_self] at h
    cases h
  · rw [update_of_ne heq] at h
    exact ⟨heq, h⟩

theorem Sound.frame
    (hframe : ∀ x, Owned objs x → view'.fat x = view.fat x ∧ view'.data x = view.data x) :
    Sound fs view' objs := by
  have hslot {dir : Nat} {p : Nat × Nat} (hp : InDir objs dir p) :
      view'.slotAt p = view.slotAt p := by
    rw [View.slotAt, View.slotAt, (hframe _ (owned_of_inDir hp)).2]
  have hrefers {dir : Nat} {p : Nat × Nat} {k : Nat} (href : Refers view' objs dir p k) :
      Refers view objs dir p k := by
    obtain ⟨hin, hlive, hdots, htarget⟩ := href
    rw [hslot hin] at hlive hdots htarget
    exact ⟨hin, hlive, hdots, htarget⟩
  refine ⟨h.root, fun {k o} ho => ?_, h.first, h.valid, h.disjoint,
    fun {dir o p} ho hdir hp hlive => ?_,
    fun {dir p k} href => ?_, fun {dir dir' p p' k} href href' => ?_⟩
  · exact (h.follows ho).congr fun x hx => (hframe x ⟨k, o, ho, hx⟩).1
  · rw [hslot ⟨o, ho, hdir, hp⟩] at hlive ⊢
    exact h.dots ho hdir hp hlive
  · rw [hslot href.inDir]
    exact h.child (hrefers href)
  · exact h.single (hrefers href) (hrefers href')

theorem Sound.add (hfollows : Follows view.fat fatEoc k o.chain) (hfirst : k ∈ o.chain)
    (hvalid : ∀ x ∈ o.chain, fs.Valid x) (hfresh : ∀ x ∈ o.chain, ¬ Owned objs x)
    (hslots : o.isDir = true → ∀ p ∈ positions o.chain, (view.slotAt p).isLive = true →
      (view.slotAt p).isDots ∧ DotsSound k o.parent (view.slotAt p)) :
    Sound fs view (update objs k (some o)) := by
  have hkey {j : Nat} {o' : Obj} (hj : objs j = some o') : j ≠ k := fun heq =>
    hfresh k hfirst ⟨j, o', hj, heq ▸ h.first hj⟩
  have hrefers {dir : Nat} {p : Nat × Nat} {j : Nat}
      (href : Refers view (update objs k (some o)) dir p j) :
      Refers view objs dir p j := by
    obtain ⟨⟨o', ho', hdir, hp⟩, hlive, hdots, htarget⟩ := href
    rcases update_some_cases ho' with ⟨rfl, rfl⟩ | ⟨_, ho'⟩
    · exact absurd (hslots hdir p hp hlive).1 hdots
    · exact ⟨⟨o', ho', hdir, hp⟩, hlive, hdots, htarget⟩
  refine ⟨?_, fun {j o'} hj => ?_, fun {j o'} hj => ?_, fun {j o'} hj => ?_,
    fun {j j' o₁ o₂ x} hj hj' hx hx' => ?_, fun {dir o' p} hj hdir hp hlive => ?_,
    fun {dir p j} href => ?_, fun {dir dir' p p' j} href href' => ?_⟩
  · obtain ⟨root, hroot, hdir⟩ := h.root
    exact ⟨root, by rw [update_of_ne (hkey hroot), hroot], hdir⟩
  · rcases update_some_cases hj with ⟨rfl, rfl⟩ | ⟨_, hj⟩
    · exact hfollows
    · exact h.follows hj
  · rcases update_some_cases hj with ⟨rfl, rfl⟩ | ⟨_, hj⟩
    · exact hfirst
    · exact h.first hj
  · rcases update_some_cases hj with ⟨rfl, rfl⟩ | ⟨_, hj⟩
    · exact hvalid
    · exact h.valid hj
  · rcases update_some_cases hj with ⟨rfl, rfl⟩ | ⟨_, hold⟩
    · rcases update_some_cases hj' with ⟨rfl, rfl⟩ | ⟨_, hold'⟩
      · rfl
      · exact absurd ⟨j', o₂, hold', hx'⟩ (hfresh x hx)
    · rcases update_some_cases hj' with ⟨rfl, rfl⟩ | ⟨_, hold'⟩
      · exact absurd ⟨j, o₁, hold, hx⟩ (hfresh x hx')
      · exact h.disjoint hold hold' hx hx'
  · rcases update_some_cases hj with ⟨rfl, rfl⟩ | ⟨_, hj⟩
    · exact (hslots hdir p hp hlive).2
    · exact h.dots hj hdir hp hlive
  · obtain ⟨hroot, o', ho', hchild⟩ := h.child (hrefers href)
    exact ⟨hroot, o', by rw [update_of_ne (hkey ho'), ho'], hchild⟩
  · exact h.single (hrefers href) (hrefers href')

theorem Sound.put {slot : Slot} (hput : Puts view p slot view') (ho : objs dir = some o)
    (hdir : o.isDir = true) (hp : p ∈ positions o.chain)
    (hslot : slot.isLive = true → ¬ slot.isDots ∧ slot.firstCluster ≠ rootCluster ∧
      (∃ child, objs slot.firstCluster = some child ∧ child.isDir = slot.isDir ∧
        child.parent = dir) ∧
      ∀ dir' q, q ≠ p → ¬ Refers view objs dir' q slot.firstCluster) : Sound fs view' objs := by
  have hinDir : InDir objs dir p := ⟨o, ho, hdir, hp⟩
  have hrefers {dir' : Nat} {q : Nat × Nat} {k : Nat} (href : Refers view' objs dir' q k)
      (hq : q ≠ p) : Refers view objs dir' q k := by
    obtain ⟨hin, hlive, hdots, htarget⟩ := href
    rw [hput.slotAt_of_ne hq] at hlive hdots htarget
    exact ⟨hin, hlive, hdots, htarget⟩
  have hself {dir' : Nat} {k : Nat} (href : Refers view' objs dir' p k) :
      slot.isLive = true ∧ slot.firstCluster = k := by
    obtain ⟨_, hlive, _, htarget⟩ := href
    rw [hput.slot] at hlive htarget
    exact ⟨hlive, htarget⟩
  refine ⟨h.root, fun {k o} hk => ?_, h.first, h.valid, h.disjoint,
    fun {dir' o' q} ho' hdir' hq hlive => ?_, fun {dir' q k} href => ?_,
    fun {dir₁ dir₂ q₁ q₂ k} href₁ href₂ => ?_⟩
  · rw [hput.fat]
    exact h.follows hk
  · by_cases hqp : q = p
    · subst hqp
      rw [hput.slot] at hlive ⊢
      have hdots := (hslot hlive).1
      exact ⟨fun hname => absurd (.inl hname) hdots, fun hname => absurd (.inr hname) hdots⟩
    · rw [hput.slotAt_of_ne hqp] at hlive ⊢
      exact h.dots ho' hdir' hq hlive
  · by_cases hqp : q = p
    · subst hqp
      obtain ⟨hlive, rfl⟩ := hself href
      obtain ⟨_, hroot, ⟨child, hchild, hkind, hparent⟩, _⟩ := hslot hlive
      rw [hput.slot]
      exact ⟨hroot, child, hchild, hkind, hparent.trans (hinDir.unique h href.inDir)⟩
    · rw [hput.slotAt_of_ne hqp]
      exact h.child (hrefers href hqp)
  · by_cases hq₁ : q₁ = p
    · subst hq₁
      by_cases hq₂ : q₂ = q₁
      · exact hq₂.symm
      · obtain ⟨hlive, rfl⟩ := hself href₁
        exact absurd (hrefers href₂ hq₂) ((hslot hlive).2.2.2 dir₂ q₂ hq₂)
    · by_cases hq₂ : q₂ = p
      · subst hq₂
        obtain ⟨hlive, rfl⟩ := hself href₂
        exact absurd (hrefers href₁ hq₁) ((hslot hlive).2.2.2 dir₁ q₁ hq₁)
      · exact h.single (hrefers href₁ hq₁) (hrefers href₂ hq₂)

theorem Sound.remove (hroot : k ≠ rootCluster) (hfree : ∀ dir p, ¬ Refers view objs dir p k) :
    Sound fs view (update objs k none) := by
  have hrefers {dir : Nat} {p : Nat × Nat} {j : Nat}
      (href : Refers view (update objs k none) dir p j) : Refers view objs dir p j := by
    obtain ⟨⟨o, ho, hdir, hp⟩, hlive, hdots, htarget⟩ := href
    exact ⟨⟨o, (update_none_eq ho).2, hdir, hp⟩, hlive, hdots, htarget⟩
  refine ⟨?_, fun {j o} hj => h.follows (update_none_eq hj).2,
    fun {j o} hj => h.first (update_none_eq hj).2,
    fun {j o} hj => h.valid (update_none_eq hj).2,
    fun {j j' o o' x} hj hj' => h.disjoint (update_none_eq hj).2 (update_none_eq hj').2,
    fun {dir o p} ho => h.dots (update_none_eq ho).2, fun {dir p j} href => ?_,
    fun {dir dir' p p' j} href href' => h.single (hrefers href) (hrefers href')⟩
  · obtain ⟨root, hroot', hdir⟩ := h.root
    exact ⟨root, by rw [update_of_ne hroot.symm, hroot'], hdir⟩
  · obtain ⟨hjroot, o, ho, hchild⟩ := h.child (hrefers href)
    have hjk : j ≠ k := by
      rintro rfl
      exact hfree dir p (hrefers href)
    exact ⟨hjroot, o, by rw [update_of_ne hjk, ho], hchild⟩

end Changes

structure Grown (view : View) (objs : Objs) (dir : Nat) (o : Obj) (x : Nat) (view' : View) :
    Prop where
  obj : objs dir = some o
  fresh : ¬ Owned objs x
  empty : view'.data x = zeroSector
  data : ∀ y, Owned objs y → view'.data y = view.data y
  fat : ∀ k o' y, k ≠ dir → objs k = some o' → y ∈ o'.chain → view'.fat y = view.fat y
  follows : Follows view'.fat fatEoc dir (o.chain ++ [x])

def Objs.setChain (objs : Objs) (dir : Nat) (o : Obj) (chain : List Nat) : Objs :=
  update objs dir (some { o with chain })

section Growth

variable {fs : Fat32Fs} {view view' : View} {objs : Objs} {dir x : Nat} {o : Obj}

theorem setChain_cases (ho : objs dir = some o) (h : objs.setChain dir o chain k = some o') :
    ∃ old, objs k = some old ∧ old.isDir = o'.isDir ∧ old.parent = o'.parent ∧
      (k = dir ∧ o'.chain = chain ∧ old = o ∨ k ≠ dir ∧ o' = old) := by
  rcases update_some_cases h with ⟨rfl, rfl⟩ | ⟨hne, hold⟩
  · exact ⟨o, ho, rfl, rfl, .inl ⟨rfl, rfl, rfl⟩⟩
  · exact ⟨o', hold, rfl, rfl, .inr ⟨hne, rfl⟩⟩

theorem setChain_of_some {old : Obj} (ho : objs dir = some o) (h : objs k = some old) :
    ∃ o', objs.setChain dir o chain k = some o' ∧ o'.isDir = old.isDir ∧
    o'.parent = old.parent := by
  by_cases hk : k = dir
  · subst hk
    rw [ho, Option.some.injEq] at h
    subst h
    exact ⟨_, update_self _ _ _, rfl, rfl⟩
  · exact ⟨old, by rw [Objs.setChain, update_of_ne hk, h], rfl, rfl⟩

theorem setChain_self (ho : objs dir = some o) : objs.setChain dir o o.chain = objs := by
  rw [Objs.setChain, ← ho, update_eq_self]

variable (h : Grown view objs dir o x view')
include h

theorem Grown.slotAt (hp : Owned objs p.1) : view'.slotAt p = view.slotAt p := by
  rw [View.slotAt, View.slotAt, h.data p.1 hp]

theorem Grown.place (ho' : objs.setChain dir o (o.chain ++ [x]) d = some o')
    (hp : p ∈ positions o'.chain) (hlive : (view'.slotAt p).isLive = true) :
    ∃ old, objs d = some old ∧ old.isDir = o'.isDir ∧ old.parent = o'.parent ∧
      p ∈ positions old.chain := by
  obtain ⟨old, hold, hkind, hparent, ⟨rfl, hchain, rfl⟩ | ⟨_, rfl⟩⟩ := setChain_cases h.obj ho'
  · obtain ⟨hmem, hindex⟩ := mem_positions.mp hp
    rw [hchain] at hmem
    rcases List.mem_append.mp hmem with hmem | hlast
    · exact ⟨old, hold, hkind, hparent, mem_positions.mpr ⟨hmem, hindex⟩⟩
    · rw [View.slotAt, List.mem_singleton.mp hlast, h.empty] at hlive
      cases hlive
  · exact ⟨o', hold, hkind, hparent, hp⟩

theorem Grown.refers (href : Refers view' (objs.setChain dir o (o.chain ++ [x])) d p k) :
    Refers view objs d p k ∧ view'.slotAt p = view.slotAt p := by
  obtain ⟨⟨o', ho', hdir, hp⟩, hlive, hdots, htarget⟩ := href
  obtain ⟨old, hold, hkind, _, hpold⟩ := h.place ho' hp hlive
  have hsame := h.slotAt ⟨d, old, hold, (mem_positions.mp hpold).1⟩
  rw [hsame] at hlive hdots htarget
  exact ⟨⟨⟨old, hold, hkind.trans hdir, hpold⟩, hlive, hdots, htarget⟩, hsame⟩

theorem Grown.mem_chain {y : Nat} (ho' : objs.setChain dir o (o.chain ++ [x]) k = some o')
    (hy : y ∈ o'.chain) : (∃ old, objs k = some old ∧ y ∈ old.chain) ∨ k = dir ∧ y = x := by
  obtain ⟨old, hold, _, _, ⟨rfl, hchain, rfl⟩ | ⟨_, rfl⟩⟩ := setChain_cases h.obj ho'
  · rw [hchain] at hy
    rcases List.mem_append.mp hy with hy | hlast
    · exact .inl ⟨old, hold, hy⟩
    · exact .inr ⟨rfl, List.mem_singleton.mp hlast⟩
  · exact .inl ⟨o', hold, hy⟩

omit h in
theorem Sound.grow (sound : Sound fs view objs) (h : Grown view objs dir o x view')
    (hvalid : fs.Valid x) : Sound fs view' (objs.setChain dir o (o.chain ++ [x])) := by
  refine ⟨?_, fun {k o'} hk => ?_, fun {k o'} hk => ?_, fun {k o'} hk y hy => ?_,
    fun {k k' o₁ o₂ y} hk hk' hy hy' => ?_, fun {d o' p} ho' hdir hp hlive => ?_,
    fun {d p k} href => ?_, fun {d d' p p' k} href href' => ?_⟩
  · obtain ⟨root, hroot, hdir⟩ := sound.root
    obtain ⟨root', hroot', hkind, _⟩ := setChain_of_some h.obj hroot
    exact ⟨root', hroot', hkind.trans hdir⟩
  · obtain ⟨old, hold, _, _, ⟨rfl, hchain, rfl⟩ | ⟨hne, rfl⟩⟩ := setChain_cases h.obj hk
    · rw [hchain]
      exact h.follows
    · exact (sound.follows hold).congr fun y hy => h.fat k o' y hne hold hy
  · obtain ⟨old, hold, _, _, ⟨rfl, hchain, rfl⟩ | ⟨_, rfl⟩⟩ := setChain_cases h.obj hk
    · rw [hchain]
      exact List.mem_append_left _ (sound.first hold)
    · exact sound.first hold
  · rcases h.mem_chain hk hy with ⟨old, hold, hmem⟩ | ⟨_, rfl⟩
    · exact sound.valid hold y hmem
    · exact hvalid
  · rcases h.mem_chain hk hy with ⟨old, hold, hmem⟩ | ⟨rfl, rfl⟩
    · rcases h.mem_chain hk' hy' with ⟨old', hold', hmem'⟩ | ⟨_, rfl⟩
      · exact sound.disjoint hold hold' hmem hmem'
      · exact absurd ⟨k, old, hold, hmem⟩ h.fresh
    · rcases h.mem_chain hk' hy' with ⟨old', hold', hmem'⟩ | ⟨rfl, _⟩
      · exact absurd ⟨k', old', hold', hmem'⟩ h.fresh
      · rfl
  · obtain ⟨old, hold, hkind, hparent, hpold⟩ := h.place ho' hp hlive
    rw [h.slotAt ⟨d, old, hold, (mem_positions.mp hpold).1⟩] at hlive ⊢
    rw [← hparent]
    exact sound.dots hold (hkind.trans hdir) hpold hlive
  · obtain ⟨hold, hsame⟩ := h.refers href
    obtain ⟨hroot, child, hchild, hkind, hparent⟩ := sound.child hold
    obtain ⟨child', hchild', hkind', hparent'⟩ := setChain_of_some h.obj hchild
    rw [hsame]
    exact ⟨hroot, child', hchild', hkind'.trans hkind, hparent'.trans hparent⟩
  · exact sound.single (h.refers href).1 (h.refers href').1

end Growth

end AuraOS.Fat32
