import AuraOS.Syscalls

namespace AuraOS.Syscalls

open PhysicalFrames PageTables VirtualAreas UserSpace MessageRouter

variable {access : Access} {r : Request} {byte : BitVec 8} {len addr : Nat}
  {bytes : List (BitVec 8)} {pages : List Translation}

/-- An access stays on a page of the user's, that is there or that the fault handler can add. -/
def Serves (writeProtect : Bool) (s : SpaceState) (access : Access) : Prop :=
  canonical access.addr = true ∧
    match translate s.mem s.space.pml4 access.addr with
    | some page => page.user = true ∧ permits writeProtect page access.isWrite = true
    | none => (∃ area, Admits s.space.vmas access.addr access.isWrite area) ∧
        framesToMap s.mem access.addr 3 s.space.pml4 ≤ s.pmm.freeCount

def byteAt (s : SpaceState) (addr : Nat) : BitVec 8 :=
  match translate s.mem s.space.pml4 addr with
  | some page => readByte s.mem page.frame (addr % pageSize)
  | none => 0

structure Touched (s s' : SpaceState) (levels levels' : Nat → Option Nat) (addr : Nat)
    (page : Translation) : Prop where
  tables : TableLevels s'.mem s'.pmm s'.space.pml4 levels'
  growth : TableGrowth s.pages s'.pages levels levels'
  root : s'.space.pml4 = s.space.pml4
  translate : translate s'.mem s'.space.pml4 addr = some page
  byte : readByte s'.mem page.frame (addr % pageSize) = byteAt s addr

section Access

variable {writeProtect : Bool} {s s' : SpaceState} {levels : Nat → Option Nat} {access : Access}
  {page : Translation}

theorem readByte_zero {mem : Mem} {frame : Nat} (h : ∀ i, mem frame i = 0) (offset : Nat) :
    readByte mem frame offset = 0 := by
  rw [readByte, h]
  simp

variable (h : TableLevels s.mem s.pmm s.space.pml4 levels)
include h

theorem touch_spec (writeProtect : Bool) (access : Access) :
    (touch writeProtect s access = none ∧ ¬ Serves writeProtect s access) ∨
    ∃ page s' levels', touch writeProtect s access = some (page, s') ∧
      (Serves writeProtect s access ↔ page.user = true) ∧
      Touched s s' levels levels' access.addr page := by
  simp only [touch, Serves]
  by_cases hcanonical : canonical access.addr = true
  swap
  · exact .inl ⟨by simp [hcanonical], fun h => hcanonical h.1⟩
  simp only [hcanonical, if_true, true_and]
  cases htranslate : translate s.mem s.space.pml4 access.addr with
  | some page =>
    by_cases hpermits : permits writeProtect page access.isWrite = true
    · refine .inr ⟨page, s, levels, by simp [hpermits], by simp [hpermits], h,
        TableGrowth.refl _ _, rfl, htranslate, ?_⟩
      rw [byteAt, htranslate]
    · exact .inl ⟨by simp [hpermits], fun h => hpermits h.2⟩
  | none =>
    rcases handleDemandFault_of_absent h htranslate access.isWrite with
      ⟨area, s', levels', page, hadmits, hframes, heq, hroot, hadded⟩ | ⟨heq, hfull⟩
    · have hpermits : permits writeProtect page access.isWrite = true := by
        rw [permits, hadded.writable]
        cases hwrite : access.isWrite with
        | false => rfl
        | true => simp [hadmits.2.2.2 hwrite]
      have hadd : translate s'.mem s'.space.pml4 access.addr = some page :=
        hroot ▸ hadded.translate
      refine .inr ⟨page, s', levels', ?_, iff_of_true ⟨⟨area, hadmits⟩, hframes⟩ hadded.user,
        hroot ▸ hadded.tables, hadded.growth, hroot, hadd, ?_⟩
      · simp only [heq, hadd, hpermits, if_true]
      · rw [byteAt, htranslate]
        exact readByte_zero hadded.zero _
    · refine .inl ⟨?_, ?_⟩
      · generalize s.handleDemandFault access.addr access.isWrite = r at heq
        obtain ⟨ok, after⟩ := r
        cases heq
        rfl
      · rintro ⟨⟨area, hadmits⟩, hframes⟩
        exact absurd hframes (Nat.not_le.mpr (hfull area hadmits))

theorem touched_of_touch (htouch : touch writeProtect s access = some (page, s')) :
    ∃ levels', Touched s s' levels levels' access.addr page := by
  rcases touch_spec h writeProtect access with ⟨heq, -⟩ | ⟨_, _, levels', heq, -, htouched⟩
  · rw [heq] at htouch
    cases htouch
  · rw [heq] at htouch
    cases htouch
    exact ⟨levels', htouched⟩

theorem serves_iff_touch :
    Serves writeProtect s access ↔
      ∃ page s', touch writeProtect s access = some (page, s') ∧ page.user = true := by
  rcases touch_spec h writeProtect access with ⟨heq, hserves⟩ | ⟨_, _, _, heq, hserves, -⟩
  · simp [heq, hserves]
  · simp [heq, hserves]

omit h in
theorem perform_eq_some_iff : perform writeProtect s access = some (page, s') ↔
    ∃ s₁, touch writeProtect s access = some (page, s₁) ∧
      s' = match access.store with
        | none => s₁
        | some byte =>
          { s₁ with mem := s₁.mem.writeByte page.frame (access.addr % pageSize) byte } := by
  cases htouch : touch writeProtect s access with
  | none => simp [perform, htouch]
  | some r =>
    cases hstore : access.store <;> simp only [perform, htouch, hstore, Option.bind_eq_bind,
      Option.bind_some, Option.some.injEq, Prod.mk.injEq] <;> grind

theorem serves_iff_perform :
    Serves writeProtect s access ↔
      ∃ page s', perform writeProtect s access = some (page, s') ∧ page.user = true := by
  rw [serves_iff_touch h]
  simp only [perform_eq_some_iff]
  constructor
  · rintro ⟨page, s', htouch, huser⟩
    exact ⟨page, _, ⟨s', htouch, rfl⟩, huser⟩
  · rintro ⟨page, -, ⟨s', htouch, -⟩, huser⟩
    exact ⟨page, s', htouch, huser⟩

theorem perform_tables (hperform : perform writeProtect s access = some (page, s'))
    (huser : page.user = true) : ∃ levels', TableLevels s'.mem s'.pmm s'.space.pml4 levels' := by
  obtain ⟨s₁, htouch, rfl⟩ := perform_eq_some_iff.mp hperform
  obtain ⟨levels', htouched⟩ := touched_of_touch h htouch
  refine ⟨levels', ?_⟩
  cases access.store with
  | none => exact htouched.tables
  | some byte =>
    obtain ⟨_, -, -, hpage⟩ := (TableGrowth.refl s₁.pages levels').translate htouched.tables
      htouched.translate
    refine htouched.tables.same (fun _ hfree => hfree) fun t l i ht _ =>
      .inl (setEntry_of_ne ?_ _ _ _)
    rintro rfl
    rw [(hpage huser).2.2] at ht
    cases ht

end Access

def performAll (writeProtect : Bool) : List Access → SpaceState →
    Option (List Translation × SpaceState)
  | [], s => some ([], s)
  | access :: rest, s => do
      let (page, s) ← perform writeProtect s access
      let (pages, s) ← performAll writeProtect rest s
      return (page :: pages, s)

def afterAccess (writeProtect : Bool) (s : SpaceState) (access : Access) : SpaceState :=
  ((perform writeProtect s access).map Prod.snd).getD s

def ServesAll (writeProtect : Bool) (s : SpaceState) : List Access → Prop
  | [] => True
  | access :: rest =>
    Serves writeProtect s access ∧ ServesAll writeProtect (afterAccess writeProtect s access) rest

section Copies

variable {writeProtect : Bool} {s : SpaceState} {levels : Nat → Option Nat}

theorem servesAll_iff_performAll (h : TableLevels s.mem s.pmm s.space.pml4 levels)
    (accesses : List Access) :
    ServesAll writeProtect s accesses ↔ ∃ pages s',
      performAll writeProtect accesses s = some (pages, s') ∧ ∀ page ∈ pages, page.user = true := by
  induction accesses generalizing s levels with
  | nil => exact ⟨fun _ => ⟨[], s, rfl, by simp⟩, fun _ => trivial⟩
  | cons access rest ih =>
    rw [ServesAll, serves_iff_perform h, performAll]
    cases hperform : perform writeProtect s access with
    | none => simp
    | some r =>
      obtain ⟨page, s₁⟩ := r
      have hafter : afterAccess writeProtect s access = s₁ := by simp [afterAccess, hperform]
      rw [hafter]
      simp only [Option.some.injEq, Prod.mk.injEq, Option.bind_eq_bind, Option.bind_some]
      constructor
      · rintro ⟨⟨page', s', ⟨rfl, rfl⟩, huser⟩, hrest⟩
        obtain ⟨levels', h'⟩ := perform_tables h hperform huser
        obtain ⟨pages, s', heq, husers⟩ := (ih h').mp hrest
        refine ⟨page :: pages, s', by simp [heq], ?_⟩
        exact List.forall_mem_cons.mpr ⟨huser, husers⟩
      · rintro ⟨pages, s', heq, husers⟩
        obtain ⟨⟨pages', s''⟩, hrest, hpages⟩ := Option.bind_eq_some_iff.mp heq
        cases hpages
        rw [List.forall_mem_cons] at husers
        obtain ⟨levels', h'⟩ := perform_tables h hperform husers.1
        exact ⟨⟨page, s₁, ⟨rfl, rfl⟩, husers.1⟩, (ih h').mpr ⟨pages', _, hrest, husers.2⟩⟩

def addresses : Nat → Nat → List Nat
  | 0, _ => []
  | len + 1, addr => addr :: addresses len (add64 addr 1)

def stores : List (BitVec 8) → Nat → List Access
  | [], _ => []
  | byte :: bytes, addr => ⟨addr, some byte⟩ :: stores bytes (add64 addr 1)

theorem readBytes_pages (len addr : Nat) (s : SpaceState) :
    (readBytes writeProtect len addr s).map Prod.snd =
      performAll writeProtect ((addresses len addr).map .load) s := by
  induction len generalizing addr s with
  | zero => rfl
  | succ len ih =>
    rw [readBytes, loadByte, addresses, List.map_cons, performAll]
    cases perform writeProtect s (.load addr) with
    | none => rfl
    | some r =>
      obtain ⟨page, s₁⟩ := r
      simp only [Option.pure_def, Option.bind_eq_bind, Option.bind_some, ← ih]
      cases readBytes writeProtect len (add64 addr 1) s₁ <;> rfl

theorem writeBytes_pages (bytes : List (BitVec 8)) (addr : Nat) (s : SpaceState) :
    writeBytes writeProtect bytes addr s = performAll writeProtect (stores bytes addr) s := by
  induction bytes generalizing addr s with
  | nil => rfl
  | cons byte bytes ih => simp only [writeBytes, stores, performAll, ih]

end Copies

/-- The addresses that a loop of `SYS_WRITE` gets to. -/
def reached (s : SpaceState) : Nat → Nat → List Nat
  | 0, _ => []
  | len + 1, addr => addr :: if byteAt s addr = 0 then [] else reached s len (add64 addr 1)

section Strings

variable {writeProtect : Bool} {s s' : SpaceState} {levels : Nat → Option Nat} {addr : Nat}
  {page : Translation}

theorem perform_load (s : SpaceState) (addr : Nat) :
    perform writeProtect s (.load addr) = touch writeProtect s (.load addr) := by
  rw [perform]
  cases touch writeProtect s (.load addr) <;> rfl

theorem canonical_of_touch {r : Translation × SpaceState}
    (h : touch writeProtect s access = some r) :
    canonical access.addr = true := by
  by_contra hcanonical
  simp [touch, hcanonical] at h

variable (h : TableLevels s.mem s.pmm s.space.pml4 levels)
include h

theorem loadByte_spec (hload : loadByte writeProtect s addr = some (byte, page, s')) :
    touch writeProtect s (.load addr) = some (page, s') ∧ byte = byteAt s addr ∧
      ∃ levels', Touched s s' levels levels' addr page := by
  obtain ⟨⟨page', s₁⟩, hperform, heq⟩ := Option.bind_eq_some_iff.mp hload
  cases heq
  rw [perform_load] at hperform
  obtain ⟨levels', htouched⟩ := touched_of_touch h hperform
  exact ⟨hperform, htouched.byte, levels', htouched⟩

omit h in
theorem loadByte_present (hcanonical : canonical addr = true)
    (htranslate : translate s.mem s.space.pml4 addr = some page) :
    loadByte writeProtect s addr = some (byteAt s addr, page, s) := by
  simp [loadByte, perform, touch, byteAt, Access.load, Access.isWrite, permits, hcanonical,
    htranslate]

theorem loadByte_nonzero
    (hload : loadByte writeProtect s addr = some (byte, page, s')) (hbyte : byte ≠ 0) :
    s' = s ∧ canonical addr = true ∧ translate s.mem s.space.pml4 addr = some page := by
  obtain ⟨htouch, heq, -⟩ := loadByte_spec h hload
  have hcanonical : canonical addr = true := canonical_of_touch htouch
  cases htranslate : translate s.mem s.space.pml4 addr with
  | none =>
    rw [byteAt, htranslate] at heq
    exact absurd heq hbyte
  | some page' =>
    rw [loadByte_present hcanonical htranslate] at hload
    cases hload
    exact ⟨rfl, hcanonical, rfl⟩

omit h in
theorem readUntilNul_succ_iff :
    readUntilNul writeProtect (len + 1) addr s = some (bytes, pages, s') ↔
      ∃ byte page s₁, loadByte writeProtect s addr = some (byte, page, s₁) ∧
        (byte = 0 ∧ bytes = [] ∧ pages = [page] ∧ s' = s₁ ∨
          byte ≠ 0 ∧ ∃ bytes' pages',
            readUntilNul writeProtect len (add64 addr 1) s₁ = some (bytes', pages', s') ∧
              bytes = byte :: bytes' ∧ pages = page :: pages') := by
  rw [readUntilNul]
  cases loadByte writeProtect s addr with
  | none => simp
  | some r =>
    obtain ⟨byte, page, s₁⟩ := r
    simp only [Option.bind_eq_bind, Option.bind_some]
    constructor
    · intro heq
      split at heq
      · rename_i hzero
        cases heq
        exact ⟨byte, page, _, rfl, .inl ⟨hzero, rfl, rfl, rfl⟩⟩
      · rename_i hnonzero
        obtain ⟨⟨bytes', pages', s₂⟩, hrest, hcons⟩ := Option.bind_eq_some_iff.mp heq
        cases hcons
        exact ⟨byte, page, s₁, rfl, .inr ⟨hnonzero, bytes', pages', hrest, rfl, rfl⟩⟩
    · rintro ⟨_, _, _, heq, hrest⟩
      cases heq
      rcases hrest with ⟨hzero, rfl, rfl, rfl⟩ | ⟨hnonzero, bytes', pages', hrest, rfl, rfl⟩
      · exact if_pos hzero
      · rw [if_neg hnonzero, hrest]
        rfl

theorem servesAll_reached_iff (len addr : Nat) :
    ServesAll writeProtect s ((reached s len addr).map .load) ↔ ∃ bytes pages s',
      readUntilNul writeProtect len addr s = some (bytes, pages, s') ∧
        ∀ page ∈ pages, page.user = true := by
  induction len generalizing addr with
  | zero => exact ⟨fun _ => ⟨[], [], s, rfl, by simp⟩, fun _ => trivial⟩
  | succ len ih =>
    rw [reached, List.map_cons, ServesAll, serves_iff_touch h]
    simp only [readUntilNul_succ_iff]
    constructor
    · rintro ⟨⟨page, s₁, htouch, huser⟩, hrest⟩
      have hload : loadByte writeProtect s addr =
          some (readByte s₁.mem page.frame (addr % pageSize), page, s₁) := by
        simp [loadByte, perform_load, htouch]
      obtain ⟨-, hbyte, -⟩ := loadByte_spec h hload
      by_cases hzero : byteAt s addr = 0
      · exact ⟨[], [page], s₁, ⟨_, page, s₁, hload, .inl ⟨hbyte.trans hzero, rfl, rfl, rfl⟩⟩,
          by simpa using huser⟩
      · have hnonzero : readByte s₁.mem page.frame (addr % pageSize) ≠ 0 := hbyte ▸ hzero
        obtain ⟨rfl, -, -⟩ := loadByte_nonzero h hload hnonzero
        have hafter : afterAccess writeProtect s₁ (.load addr) = s₁ := by
          simp [afterAccess, perform_load, htouch]
        rw [hafter, if_neg hzero, ih] at hrest
        obtain ⟨bytes, pages, s', hrest, husers⟩ := hrest
        exact ⟨_, _, s', ⟨_, page, s₁, hload, .inr ⟨hnonzero, bytes, pages, hrest, rfl, rfl⟩⟩,
          List.forall_mem_cons.mpr ⟨huser, husers⟩⟩
    · rintro ⟨_, _, s', ⟨byte, page, s₁, hload, hrest⟩, husers⟩
      obtain ⟨htouch, hbyte, -⟩ := loadByte_spec h hload
      rcases hrest with ⟨hzero, rfl, rfl, rfl⟩ | ⟨hnonzero, bytes, pages, hrest, rfl, rfl⟩
      · rw [if_pos (hbyte.symm.trans hzero)]
        exact ⟨⟨page, s', htouch, by simpa using husers⟩, trivial⟩
      · obtain ⟨rfl, -, -⟩ := loadByte_nonzero h hload hnonzero
        have hafter : afterAccess writeProtect s₁ (.load addr) = s₁ := by
          simp [afterAccess, perform_load, htouch]
        rw [List.forall_mem_cons] at husers
        rw [hafter, if_neg (hbyte ▸ hnonzero), ih]
        exact ⟨⟨page, s₁, htouch, husers.1⟩, bytes, pages, s', hrest, husers.2⟩

theorem readUntilNul_growth
    (hread : readUntilNul writeProtect len addr s = some (bytes, pages, s')) :
    ∃ levels', TableGrowth s.pages s'.pages levels levels' ∧ s'.space.pml4 = s.space.pml4 := by
  induction len generalizing addr bytes pages with
  | zero =>
    cases hread
    exact ⟨levels, TableGrowth.refl _ _, rfl⟩
  | succ len ih =>
    obtain ⟨byte, page, s₁, hload, hrest⟩ := readUntilNul_succ_iff.mp hread
    rcases hrest with ⟨-, -, -, rfl⟩ | ⟨hnonzero, bytes', pages', hrest, -, -⟩
    · obtain ⟨-, -, levels', htouched⟩ := loadByte_spec h hload
      exact ⟨levels', htouched.growth, htouched.root⟩
    · rw [(loadByte_nonzero h hload hnonzero).1] at hrest
      exact ih hrest

theorem loadByte_kept {levels' : Nat → Option Nat}
    (hgrowth : TableGrowth s.pages s'.pages levels levels') (hroot : s'.space.pml4 = s.space.pml4)
    (hcanonical : canonical addr = true)
    (htranslate : translate s.mem s.space.pml4 addr = some page) (huser : page.user = true) :
    ∃ page', loadByte writeProtect s' addr = some (byteAt s addr, page', s') ∧
      page'.user = true := by
  obtain ⟨page', htranslate', hframe, huser'⟩ := hgrowth.translate h htranslate
  have htranslate' : translate s'.mem s'.space.pml4 addr = some page' := hroot ▸ htranslate'
  obtain ⟨huser', hused, hnone⟩ := huser' huser
  refine ⟨page', ?_, huser'⟩
  have hbyte : byteAt s' addr = byteAt s addr := by
    have hword : ∀ i, s'.mem page.frame i = s.mem page.frame i := fun i =>
      hgrowth.other page.frame i hnone hused
    simp only [byteAt, htranslate', htranslate, hframe, readByte, hword]
  rw [loadByte_present hcanonical htranslate', hbyte]

theorem readUntilNul_again (hread : readUntilNul writeProtect len addr s = some (bytes, pages, s'))
    (husers : ∀ page ∈ pages, page.user = true) :
    ∃ pages', readUntilNul writeProtect len addr s' = some (bytes, pages', s') ∧
      ∀ page ∈ pages', page.user = true := by
  obtain ⟨levels', hgrowth, hroot⟩ := readUntilNul_growth h hread
  induction len generalizing addr bytes pages with
  | zero =>
    cases hread
    exact ⟨[], rfl, by simp⟩
  | succ len ih =>
    obtain ⟨byte, page, s₁, hload, hrest⟩ := readUntilNul_succ_iff.mp hread
    obtain ⟨htouch, hbyte, levels₁, htouched⟩ := loadByte_spec h hload
    have hcanonical : canonical addr = true := canonical_of_touch htouch
    rcases hrest with ⟨hzero, rfl, rfl, rfl⟩ | ⟨hnonzero, bytes', pages', hrest, rfl, rfl⟩
    · -- the page is there now, with the byte that ended the first loop
      have hagain : byteAt s' addr = byte := by
        rw [byteAt, htouched.translate, hbyte]
        exact htouched.byte
      have hload' : loadByte writeProtect s' addr = some (byte, page, s') := by
        rw [loadByte_present hcanonical htouched.translate, hagain]
      exact ⟨[page], readUntilNul_succ_iff.mpr ⟨byte, page, s', hload',
        .inl ⟨hzero, rfl, rfl, rfl⟩⟩, husers⟩
    · obtain ⟨rfl, -, htranslate⟩ := loadByte_nonzero h hload hnonzero
      rw [List.forall_mem_cons] at husers
      obtain ⟨page', hload', huser'⟩ :=
        loadByte_kept h hgrowth hroot hcanonical htranslate husers.1
      obtain ⟨pages'', hrest', husers'⟩ := ih hrest husers.2
      exact ⟨page' :: pages'', readUntilNul_succ_iff.mpr ⟨byte, page', s', hbyte ▸ hload',
        .inr ⟨hnonzero, bytes', pages'', hrest', rfl, rfl⟩⟩,
        List.forall_mem_cons.mpr ⟨huser', husers'⟩⟩

end Strings

structure Request where
  addr : Nat
  len : Nat
  isWrite : Bool
deriving DecidableEq, Repr

def writeRequest (args : Args) : Option Request :=
  if (args.arg1 = 1 ∨ args.arg1 = 2) ∧ args.arg2 ≠ 0 ∧ args.arg3.toNat ≤ 4096 then
    some ⟨args.arg2.toNat, args.arg3.toNat, false⟩
  else none

def sendRequest (args : Args) : Option Request :=
  if args.arg3 ≠ 0 ∧ 0 < min args.arg4.toNat ipcPayloadMax then
    some ⟨args.arg3.toNat, min args.arg4.toNat ipcPayloadMax, false⟩
  else none

def messageSize : Nat := 88

def recvRequest (k : Kernel) (args : Args) : Option Request :=
  if (k.router.receive k.pid).1.isSome ∧ args.arg1 ≠ 0 then
    some ⟨args.arg1.toNat, messageSize, true⟩
  else none

def request (k : Kernel) (nr : UInt64) (args : Args) : Option Request :=
  match SyscallNr.ofNumber nr with
  | .write => writeRequest args
  | .send => sendRequest args
  | .recv => recvRequest k args
  | _ => none

def VmAllows (vmas : List VmArea) (isWrite : Bool) (addr : Nat) : Prop :=
  ∃ area ∈ vmas, area.contains addr = true ∧ area.isGuardPage = false ∧
    (if isWrite then area.isWritable = true else area.prot &&& protRead ≠ 0)

def RequestAllowed (k : Kernel) (nr : UInt64) (args : Args) : Prop :=
  ∀ r ∈ request k nr args, ∀ addr ∈ addresses r.len r.addr,
    VmAllows k.space.space.vmas r.isWrite addr

/-- The call returns, having touched pages of the user's only; and either what it asked for was
allowed, or it returns an error and has touched nothing. -/
def Outcome.Stays (allowed : Prop) : Outcome → Prop
  | .returned result touched _ => (∀ page ∈ touched, page.user = true) ∧
      (allowed ∨ result = errorResult ∧ touched = [])
  | .halted => False

def Confined (k : Kernel) (nr : UInt64) (args : Args) : Prop :=
  (syscallDispatch k nr args).Stays (RequestAllowed k nr args)

/-- The accesses that a call makes for its request.  `SYS_WRITE` gets to the first zero byte. -/
def requestAccesses (k : Kernel) (nr : UInt64) (r : Request) : List Access :=
  match SyscallNr.ofNumber nr with
  | .write => (reached k.space r.len r.addr).map .load
  | .recv =>
    match (k.router.receive k.pid).1 with
    | some msg => stores (messageBytes msg) r.addr
    | none => []
  | _ => (addresses r.len r.addr).map .load

def RequestServed (k : Kernel) (nr : UInt64) (args : Args) : Prop :=
  ∀ r ∈ request k nr args, ServesAll k.writeProtect k.space (requestAccesses k nr r)

structure UserTask extends Kernel where
  levels : Nat → Option Nat
  tables : TableLevels space.mem space.pmm space.space.pml4 levels

section Calls

variable {k : Kernel} {levels : Nat → Option Nat} {args : Args}

variable (h : TableLevels k.space.mem k.space.pmm k.space.space.pml4 levels)
include h

theorem sysWrite_stays (hr : writeRequest args = some r) (allowed : Prop) :
    (sysWrite k args).Stays allowed ↔
      allowed ∧ ServesAll k.writeProtect k.space ((reached k.space r.len r.addr).map .load) := by
  rw [servesAll_reached_iff h]
  simp only [writeRequest, Option.ite_none_right_eq_some, Option.some.injEq] at hr
  obtain ⟨⟨hfd, hptr, hlen⟩, rfl⟩ := hr
  simp only [sysWrite, if_pos hfd, if_pos (And.intro hptr hlen)]
  cases hread : readUntilNul k.writeProtect args.arg3.toNat args.arg2.toNat k.space with
  | none => simp [Outcome.Stays]
  | some first =>
    obtain ⟨shown, pages, space⟩ := first
    -- the length is no error
    have hresult : args.arg3.toNat ≠ errorResult := by
      rw [errorResult]
      omega
    constructor
    · intro hstays
      cases hagain : readUntilNul k.writeProtect args.arg3.toNat args.arg2.toNat space with
      | none =>
        simp only [hagain] at hstays
        exact hstays.elim
      | some second =>
        simp only [hagain] at hstays
        obtain ⟨husers, hallowed⟩ := hstays
        refine ⟨hallowed.resolve_right fun herror => hresult herror.1, shown, pages, space, rfl, ?_⟩
        exact fun page hpage => husers page (List.mem_append_left _ hpage)
    · rintro ⟨hallowed, _, _, _, heq, husers⟩
      cases heq
      obtain ⟨pages', hagain, husers'⟩ := readUntilNul_again h hread husers
      simp only [hagain]
      refine ⟨fun page hpage => ?_, .inl hallowed⟩
      exact (List.mem_append.mp hpage).elim (husers page) (husers' page)

omit h in
theorem performAll_ne_nil {writeProtect : Bool} {s s' : SpaceState} {rest : List Access}
    (h : performAll writeProtect (access :: rest) s = some (pages, s')) : pages ≠ [] := by
  rintro rfl
  obtain ⟨⟨page, s₁⟩, -, h⟩ := Option.bind_eq_some_iff.mp h
  obtain ⟨⟨pages, s₂⟩, -, h⟩ := Option.bind_eq_some_iff.mp h
  cases h

theorem sysSend_stays (hr : sendRequest args = some r) (allowed : Prop) :
    (sysSend k args).Stays allowed ↔
      allowed ∧ ServesAll k.writeProtect k.space ((addresses r.len r.addr).map .load) := by
  rw [servesAll_iff_performAll h, ← readBytes_pages]
  simp only [sendRequest, Option.ite_none_right_eq_some, Option.some.injEq] at hr
  obtain ⟨hcopy, rfl⟩ := hr
  simp only [sysSend, if_pos hcopy]
  cases hread : readBytes k.writeProtect (min args.arg4.toNat ipcPayloadMax) args.arg3.toNat
      k.space with
  | none => simp [Outcome.Stays]
  | some first =>
    obtain ⟨data, pages, space⟩ := first
    have hpages : pages ≠ [] := by
      obtain ⟨len, hlen⟩ := Nat.exists_eq_succ_of_ne_zero (Nat.ne_of_gt hcopy.2)
      have hperform : performAll k.writeProtect ((addresses (min args.arg4.toNat ipcPayloadMax)
          args.arg3.toNat).map .load) k.space = some (pages, space) := by
        rw [← readBytes_pages, hread]
        rfl
      rw [hlen, addresses] at hperform
      exact performAll_ne_nil hperform
    simp only [Outcome.Stays, Option.map_some, Option.some.injEq, Prod.mk.injEq]
    constructor
    · rintro ⟨husers, hallowed⟩
      exact ⟨hallowed.resolve_right fun herror => hpages herror.2, pages, space, ⟨rfl, rfl⟩, husers⟩
    · rintro ⟨hallowed, _, _, ⟨rfl, rfl⟩, husers⟩
      exact ⟨husers, .inl hallowed⟩

theorem sysRecv_stays {msg : Message} (hmsg : (k.router.receive k.pid).1 = some msg)
    (hptr : args.arg1 ≠ 0) (allowed : Prop) :
    (sysRecv k args).Stays allowed ↔
      allowed ∧ ServesAll k.writeProtect k.space (stores (messageBytes msg) args.arg1.toNat) := by
  rw [servesAll_iff_performAll h, ← writeBytes_pages]
  simp only [sysRecv]
  generalize k.router.receive k.pid = received at hmsg
  obtain ⟨_, router⟩ := received
  cases hmsg
  simp only [if_pos hptr]
  cases hwrite : writeBytes k.writeProtect (messageBytes msg) args.arg1.toNat k.space with
  | none => simp [Outcome.Stays]
  | some written =>
    obtain ⟨pages, space⟩ := written
    have hresult : 1 ≠ errorResult := by decide
    simp only [Outcome.Stays, Option.some.injEq, Prod.mk.injEq]
    constructor
    · rintro ⟨husers, hallowed⟩
      exact ⟨hallowed.resolve_right fun herror => hresult herror.1, pages, space, ⟨rfl, rfl⟩,
        husers⟩
    · rintro ⟨hallowed, _, _, ⟨rfl, rfl⟩, husers⟩
      exact ⟨husers, .inl hallowed⟩

omit h in
theorem dispatch_no_request {nr : UInt64} (h : request k nr args = none) :
    ∃ result k', syscallDispatch k nr args = .returned result [] k' := by
  simp only [request] at h
  simp only [syscallDispatch]
  cases hnr : SyscallNr.ofNumber nr with
  | write =>
    simp only [hnr, writeRequest, ite_eq_right_iff, reduceCtorEq, imp_false, not_and] at h
    simp only [sysWrite]
    split
    · rename_i hfd
      split
      · rename_i hcopy
        exact absurd hcopy.2 (h hfd hcopy.1)
      · exact ⟨_, _, rfl⟩
    · exact ⟨_, _, rfl⟩
  | send =>
    simp only [hnr, sendRequest, ite_eq_right_iff, reduceCtorEq, imp_false] at h
    simp only [sysSend, if_neg h]
    exact ⟨_, _, rfl⟩
  | recv =>
    simp only [hnr, recvRequest, ite_eq_right_iff, reduceCtorEq, imp_false, not_and] at h
    simp only [sysRecv]
    generalize k.router.receive k.pid = received at h
    obtain ⟨_ | msg, router⟩ := received
    · exact ⟨_, _, rfl⟩
    · exact ⟨_, _, if_neg (h rfl)⟩
  | mmap =>
    simp only [sysMmap]
    split <;> exact ⟨_, _, rfl⟩
  | munmap =>
    simp only [sysMunmap]
    split <;> exact ⟨_, _, rfl⟩
  | _ => exact ⟨_, _, rfl⟩

end Calls

/-- A call stays within the memory of its caller if and only if the caller's areas allow what it
asks for and the pages that it gets to are the user's or can be added. -/
theorem confined_iff_allowed_served (task : UserTask) (nr : UInt64) (args : Args) :
    Confined task.toKernel nr args ↔
      RequestAllowed task.toKernel nr args ∧ RequestServed task.toKernel nr args := by
  cases hr : request task.toKernel nr args with
  | none =>
    obtain ⟨result, k', heq⟩ := dispatch_no_request hr
    simp [Confined, heq, Outcome.Stays, RequestAllowed, RequestServed, hr]
  | some r =>
    have hserved : RequestServed task.toKernel nr args ↔
        ServesAll task.writeProtect task.space (requestAccesses task.toKernel nr r) := by
      simp [RequestServed, hr]
    rw [hserved, Confined]
    simp only [request] at hr
    simp only [syscallDispatch, requestAccesses]
    cases hnr : SyscallNr.ofNumber nr with
    | write =>
      simp only [hnr] at hr
      exact sysWrite_stays task.tables hr _
    | send =>
      simp only [hnr] at hr
      exact sysSend_stays task.tables hr _
    | recv =>
      simp only [hnr, recvRequest, Option.ite_none_right_eq_some, Option.some.injEq] at hr
      obtain ⟨⟨hsome, hptr⟩, rfl⟩ := hr
      obtain ⟨msg, hmsg⟩ := Option.isSome_iff_exists.mp hsome
      simp only [hmsg]
      exact sysRecv_stays task.tables hmsg hptr _
    | _ =>
      simp only [hnr] at hr
      cases hr

def kernelMem : Mem := fun t i =>
  if t = 0x1000 ∧ i = 0 then makeEntry 0x2000 tableFlags
  else if t = 0x2000 ∧ i = 0 then makeEntry 0 (present ||| PageTables.writable ||| hugePage)
  else if t = 0x100000 ∧ i = 0 then 0x53
  else 0

def emptySpace : SpaceState :=
  ⟨kernelMem, ⟨fun _ => 0⟩, ⟨0x1000, [], [], mmapBaseStart, defaultUserHeapStart,
    defaultUserHeapStart⟩⟩

def kernelLevels (t : Nat) : Option Nat :=
  if t = 0x1000 then some 3 else if t = 0x2000 then some 2 else none

theorem kernelMem_entry {t l : Nat} {i : Fin 512} (ht : kernelLevels t = some l)
    (hpresent : isPresent (kernelMem t i) = true) :
    l = 3 ∧ kernelMem t i = makeEntry 0x2000 tableFlags ∨
      l = 2 ∧ kernelMem t i = makeEntry 0 (present ||| PageTables.writable ||| hugePage) := by
  simp only [kernelLevels] at ht
  split at ht
  · rename_i heq
    cases ht
    by_cases hi : i = 0
    · exact .inl ⟨rfl, by simp [kernelMem, heq, hi]⟩
    · simp [kernelMem, heq, hi] at hpresent
      exact absurd hpresent (by decide)
  · split at ht
    · rename_i heq
      cases ht
      by_cases hi : i = 0
      · exact .inr ⟨rfl, by simp [kernelMem, heq, hi]⟩
      · simp [kernelMem, heq, hi] at hpresent
        exact absurd hpresent (by decide)
    · cases ht

theorem kernelMem_tables : TableLevels kernelMem ⟨fun _ => 0⟩ 0x1000 kernelLevels where
  root := rfl
  used := by
    rintro t l ht ⟨frame, hframe, rfl, -⟩
    have hwindow := (frameAddr_window hframe).1.1
    simp only [kernelLevels, pmmBase] at *
    split at ht
    · omega
    · split at ht
      · omega
      · cases ht
  next := by
    intro t l i ht hpresent hleaf
    rcases kernelMem_entry ht hpresent with ⟨hl, heq⟩ | ⟨hl, heq⟩
    · cases hl
      rw [heq]
      decide
    · rw [heq, hl] at hleaf
      exact absurd hleaf (by decide)
  page := by
    intro t l i virt ht hpresent hleaf huser
    rcases kernelMem_entry ht hpresent with ⟨hl, heq⟩ | ⟨-, heq⟩
    · rw [heq, hl] at hleaf
      exact absurd hleaf (by decide)
    · rw [heq] at huser
      exact absurd huser (by decide)

def spy : UserTask :=
  { space := emptySpace, router := IpcRouter.new, pid := 7, dead := false, rtc := ⟨0, 0, 0⟩
    writeProtect := true, vga := [], serial := [], levels := kernelLevels
    tables := kernelMem_tables }

/-- `write(1, 0x100000, 1)`. -/
def spyArgs : Args := ⟨1, 0x100000, 1, 0, 0, 0⟩

theorem spy_prints_kernel_byte :
    (∃ page k', syscallDispatch spy.toKernel 4 spyArgs = .returned 1 [page, page] k' ∧
      page.frame = 0x100000 ∧ page.user = false ∧ k'.vga = [0x53] ∧ k'.serial = [0x53]) ∧
    ¬ Confined spy.toKernel 4 spyArgs := by
  have hcall : syscallDispatch spy.toKernel 4 spyArgs =
      .returned 1 [⟨0x100000, true, false, false⟩, ⟨0x100000, true, false, false⟩]
        { spy.toKernel with vga := [0x53], serial := [0x53] } := by
    change sysWrite spy.toKernel spyArgs = _
    rfl
  refine ⟨⟨_, _, hcall, rfl, rfl, rfl, rfl⟩, ?_⟩
  rintro ⟨husers, -⟩
  exact absurd (husers _ ((.head _) ..)) (by decide)

end AuraOS.Syscalls
