import AuraOS.DemandFaults
import AuraOS.MessageRouter

/-!
The system calls of a user task.  The dispatcher runs in kernel mode on the page
tables of the caller, so it reads and writes at a user's pointer as the processor
does at any address: the walk decides, an absent page goes to the fault handler,
and a fault that is not resolved halts the machine.
-/

namespace AuraOS.Syscalls

open PhysicalFrames PageTables VirtualAreas UserSpace MessageRouter

structure Access where
  addr : Nat
  store : Option (BitVec 8)

def Access.load (addr : Nat) : Access := ⟨addr, none⟩

def Access.isWrite (access : Access) : Bool := access.store.isSome

def canonical (addr : Nat) : Bool :=
  addr < 2 ^ 47 || 2 ^ 64 - 2 ^ 47 ≤ addr

/-- The kernel may load from every page that is present.  Whether it may store to a read-only
page is up to `CR0.WP`, which the kernel leaves as it finds it. -/
def permits (writeProtect : Bool) (page : Translation) (isWrite : Bool) : Bool :=
  !(isWrite && writeProtect && !page.writable)

/-- The page of an access, after the fault that the access raises if there is none.  Without
a result the machine has halted: on an address that is not canonical, on a page that may not be
written, or on a fault that is not resolved. -/
def touch (writeProtect : Bool) (s : SpaceState) (access : Access) :
    Option (Translation × SpaceState) :=
  if canonical access.addr then
    match translate s.mem s.space.pml4 access.addr with
    | some page => if permits writeProtect page access.isWrite then some (page, s) else none
    | none =>
      match s.handleDemandFault access.addr access.isWrite with
      | (false, _) => none
      | (true, s) =>
        -- the instruction is restarted
        match translate s.mem s.space.pml4 access.addr with
        | some page => if permits writeProtect page access.isWrite then some (page, s) else none
        | none => none
  else none

def perform (writeProtect : Bool) (s : SpaceState) (access : Access) :
    Option (Translation × SpaceState) := do
  let (page, s) ← touch writeProtect s access
  match access.store with
  | none => some (page, s)
  | some byte =>
    some (page, { s with mem := s.mem.writeByte page.frame (access.addr % pageSize) byte })

def readByte (mem : Mem) (frame offset : Nat) : BitVec 8 :=
  (mem frame (Fin.ofNat 512 (offset / 8)) >>> (8 * (offset % 8))).setWidth 8

def loadByte (writeProtect : Bool) (s : SpaceState) (addr : Nat) :
    Option (BitVec 8 × Translation × SpaceState) := do
  let (page, s) ← perform writeProtect s (.load addr)
  return (readByte s.mem page.frame (addr % pageSize), page, s)

/-- One of the two loops of `SYS_WRITE`. -/
def readUntilNul (writeProtect : Bool) : Nat → Nat → SpaceState →
    Option (List (BitVec 8) × List Translation × SpaceState)
  | 0, _, s => some ([], [], s)
  | len + 1, addr, s => do
      let (byte, page, s) ← loadByte writeProtect s addr
      if byte = 0 then return ([], [page], s)
      let (bytes, pages, s) ← readUntilNul writeProtect len (add64 addr 1) s
      return (byte :: bytes, page :: pages, s)

def readBytes (writeProtect : Bool) : Nat → Nat → SpaceState →
    Option (List (BitVec 8) × List Translation × SpaceState)
  | 0, _, s => some ([], [], s)
  | len + 1, addr, s => do
      let (byte, page, s) ← loadByte writeProtect s addr
      let (bytes, pages, s) ← readBytes writeProtect len (add64 addr 1) s
      return (byte :: bytes, page :: pages, s)

def writeBytes (writeProtect : Bool) : List (BitVec 8) → Nat → SpaceState →
    Option (List Translation × SpaceState)
  | [], _, s => some ([], s)
  | byte :: bytes, addr, s => do
      let (page, s) ← perform writeProtect s ⟨addr, some byte⟩
      let (pages, s) ← writeBytes writeProtect bytes (add64 addr 1) s
      return (page :: pages, s)

def toLeBytes (count value : Nat) : List (BitVec 8) :=
  (List.range count).map fun i => BitVec.ofNat 8 (value / 2 ^ (8 * i))

/-- A `Message` in memory, which is `repr(C)`. -/
def messageBytes (msg : Message) : List (BitVec 8) :=
  toLeBytes 8 msg.sender ++ toLeBytes 8 msg.target ++ toLeBytes 4 msg.msgType.toNat ++
    msg.payload.toList.map UInt8.toBitVec ++ toLeBytes 4 msg.length.toNat

structure DateTime where
  hour : UInt8
  minute : UInt8
  second : UInt8

/-- What the dispatcher works on for the current task.  The space is that of the task, and CR3
holds its root table. -/
structure Kernel where
  space : SpaceState
  router : IpcRouter
  pid : Nat
  dead : Bool
  rtc : DateTime
  writeProtect : Bool
  vga : List (BitVec 8)
  serial : List (BitVec 8)

inductive SyscallNr where
  | exit | write | mmap | munmap | brk | yield | sleep | getpid | send | recv | time | unknown
deriving DecidableEq, Repr

def SyscallNr.ofNumber (nr : UInt64) : SyscallNr :=
  if nr = 1 then .exit
  else if nr = 4 then .write
  else if nr = 9 then .mmap
  else if nr = 11 then .munmap
  else if nr = 12 then .brk
  else if nr = 24 then .yield
  else if nr = 35 then .sleep
  else if nr = 39 then .getpid
  else if nr = 60 then .send
  else if nr = 61 then .recv
  else if nr = 201 then .time
  else .unknown

structure Args where
  arg1 : UInt64
  arg2 : UInt64
  arg3 : UInt64
  arg4 : UInt64
  arg5 : UInt64
  arg6 : UInt64

inductive Outcome where
  | returned (result : Nat) (touched : List Translation) (kernel : Kernel)
  | halted

def errorResult : Nat := 2 ^ 64 - 1

/-- `serial_print!` of a byte as a character: a line feed goes out after a carriage return,
and the characters from `0x80` on have two bytes. -/
def serialBytes (byte : BitVec 8) : List (BitVec 8) :=
  if byte = 0x0A then [0x0D, byte]
  else if byte < 0x80 then [byte]
  else [0xC0 ||| byte >>> 6, 0x80 ||| byte &&& 0x3F]

def sysWrite (k : Kernel) (args : Args) : Outcome :=
  if args.arg1 = 1 ∨ args.arg1 = 2 then
    let len := args.arg3.toNat
    if args.arg2 ≠ 0 ∧ len ≤ 4096 then
      match readUntilNul k.writeProtect len args.arg2.toNat k.space with
      | none => .halted
      | some (shown, pages, space) =>
        match readUntilNul k.writeProtect len args.arg2.toNat space with
        | none => .halted
        | some (printed, pages', space) =>
          .returned len (pages ++ pages')
            { k with
              space
              vga := k.vga ++ shown
              serial := k.serial ++ printed.flatMap serialBytes }
    else .returned len [] k
  else .returned errorResult [] k

def sendMessage (k : Kernel) (target : Nat) (msgType : BitVec 32) (data : List (BitVec 8)) :
    Nat × Kernel :=
  match k.router.send (Message.new k.pid target msgType (data.map UInt8.ofBitVec)) with
  | (true, router) => (0, { k with router })
  | (false, router) => (errorResult, { k with router })

def sysSend (k : Kernel) (args : Args) : Outcome :=
  let len := min args.arg4.toNat ipcPayloadMax
  let target := args.arg1.toNat
  let msgType := BitVec.ofNat 32 args.arg2.toNat
  if args.arg3 ≠ 0 ∧ 0 < len then
    match readBytes k.writeProtect len args.arg3.toNat k.space with
    | none => .halted
    | some (data, pages, space) =>
      let (result, k) := sendMessage { k with space } target msgType data
      .returned result pages k
  else
    let (result, k) := sendMessage k target msgType []
    .returned result [] k

def sysRecv (k : Kernel) (args : Args) : Outcome :=
  match k.router.receive k.pid with
  | (none, router) => .returned 0 [] { k with router }
  | (some msg, router) =>
    if args.arg1 ≠ 0 then
      match writeBytes k.writeProtect (messageBytes msg) args.arg1.toNat k.space with
      | none => .halted
      | some (pages, space) => .returned 1 pages { k with router, space }
    else .returned 1 [] { k with router }

def sysMmap (k : Kernel) (args : Args) : Outcome :=
  let addrHint := if args.arg1 ≠ 0 then some args.arg1.toNat else none
  match k.space.mmap addrHint args.arg2.toNat (BitVec.ofNat 32 args.arg3.toNat)
    (BitVec.ofNat 32 args.arg4.toNat) with
  | (.ok mappedVaddr, space) => .returned mappedVaddr [] { k with space }
  | (.error _, space) => .returned errorResult [] { k with space }

def sysMunmap (k : Kernel) (args : Args) : Outcome :=
  match k.space.munmap args.arg1.toNat args.arg2.toNat with
  | (.ok (), space) => .returned 0 [] { k with space }
  | (.error _, space) => .returned errorResult [] { k with space }

def sysBrk (k : Kernel) (args : Args) : Outcome :=
  let (heapEnd, space) := k.space.brk args.arg1.toNat
  .returned heapEnd [] { k with space }

def sysTime (k : Kernel) : Outcome :=
  .returned (k.rtc.hour.toNat <<< 16 ||| k.rtc.minute.toNat <<< 8 ||| k.rtc.second.toNat) [] k

def syscallDispatch (k : Kernel) (nr : UInt64) (args : Args) : Outcome :=
  match SyscallNr.ofNumber nr with
  | .exit => .returned 0 [] { k with dead := true }
  | .write => sysWrite k args
  | .getpid => .returned k.pid [] k
  | .mmap => sysMmap k args
  | .munmap => sysMunmap k args
  | .brk => sysBrk k args
  | .yield => .returned 0 [] k
  | .sleep => .returned 0 [] k
  | .time => sysTime k
  | .send => sysSend k args
  | .recv => sysRecv k args
  | .unknown => .returned errorResult [] k

end AuraOS.Syscalls
