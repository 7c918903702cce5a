import Mathlib

/-!
The inode table of the in-memory file system.  Indexing the inode vector out
of range panics in the kernel; here such a call has no result (`none`).  The
recursion of `collect_descendants` carries the number of inodes as fuel, which
`RamFileSystemInvariant` shows to be enough on every reachable table.
-/

namespace AuraOS.RamFileSystem

/-- The generator functions installed under `/proc`. -/
inductive ProcGenerator where
  | uptime
  | meminfo
  | cpuinfo
  | tasks
  deriving DecidableEq, Repr

inductive InodeKind where
  | file (content : List UInt8)
  | directory (children : List Nat)
  | procFile (generator : ProcGenerator)
  | devNull
  | devZero
  | devRandom
  | tombstone
  deriving DecidableEq, Repr

structure Inode where
  id : Nat
  parentId : Nat
  name : String
  kind : InodeKind
  deriving DecidableEq, Repr

inductive VfsError where
  | notFound
  | notADirectory
  | alreadyExists
  | isDirectory
  | notAFile
  | permissionDenied
  | diskFull
  | badPath
  | rootProtected
  | deleted
  deriving DecidableEq, Repr

/-- The file system state.  `freeInodes` is a stack, listed from its top. -/
structure Vfs where
  inodes : List Inode
  currentInode : Nat
  freeInodes : List Nat
  deriving DecidableEq, Repr

section Table

variable (v : Vfs)

def Vfs.setInode (i : Nat) (node : Inode) : Option Vfs :=
  if i < v.inodes.length then some { v with inodes := v.inodes.set i node } else none

def Vfs.allocateInode (parentId : Nat) (name : String) (kind : InodeKind) : Option (Nat × Vfs) :=
  match v.freeInodes with
  | reusedId :: rest =>
    (Vfs.setInode { v with freeInodes := rest } reusedId
      ⟨reusedId, parentId, name, kind⟩).map fun v' => (reusedId, v')
  | [] =>
    some (v.inodes.length,
      { v with inodes := v.inodes ++ [⟨v.inodes.length, parentId, name, kind⟩] })

/-- Scan a list of children for a name.  The outer `none` is a panic. -/
def Vfs.findChild (v : Vfs) (name : String) : List Nat → Option (Option Nat)
  | [] => some none
  | childId :: rest => do
      let child ← v.inodes[childId]?
      if child.name = name then some (some childId) else v.findChild name rest

def Vfs.pushChild (parentId newId : Nat) : Option Vfs := do
  let parent ← v.inodes[parentId]?
  match parent.kind with
  | .directory children =>
    v.setInode parentId { parent with kind := .directory (children ++ [newId]) }
  | _ => some v

/-- The common tail of the four creating operations: take a slot, fill it and
list it in the parent. -/
def Vfs.addChild (parentId : Nat) (name : String) (kind : InodeKind) :
    Option (Except VfsError Nat × Vfs) := do
  let (newId, allocated) ← v.allocateInode parentId name kind
  let linked ← allocated.pushChild parentId newId
  return (.ok newId, linked)

def Vfs.mkdirAt (parentId : Nat) (name : String) :
    Option (Except VfsError Nat × Vfs) := do
  let parent ← v.inodes[parentId]?
  match parent.kind with
  | .directory children =>
    match ← v.findChild name children with
    | some _ => return (.error .alreadyExists, v)
    | none => v.addChild parentId name (.directory [])
  | _ => return (.error .notADirectory, v)

def Vfs.createFileAt (parentId : Nat) (name : String) (content : List UInt8) :
    Option (Except VfsError Nat × Vfs) := do
  let parent ← v.inodes[parentId]?
  match parent.kind with
  | .directory children =>
    match ← v.findChild name children with
    | some childId =>
      let child ← v.inodes[childId]?
      match child.kind with
      | .file _ =>
        let v' ← v.setInode childId { child with kind := .file content }
        return (.ok childId, v')
      | _ => return (.error .isDirectory, v)
    | none => v.addChild parentId name (.file content)
  | _ => return (.error .notADirectory, v)

/-- Shared body of `create_proc_file_at` and `create_device_file_at`, which
make no duplicate check. -/
def Vfs.createSpecialAt (parentId : Nat) (name : String) (kind : InodeKind) :
    Option (Except VfsError Nat × Vfs) := do
  let parent ← v.inodes[parentId]?
  match parent.kind with
  | .directory _ => v.addChild parentId name kind
  | _ => return (.error .notADirectory, v)

def Vfs.createProcFileAt (parentId : Nat) (name : String) (generator : ProcGenerator)
    : Option (Except VfsError Nat × Vfs) :=
  v.createSpecialAt parentId name (.procFile generator)

def Vfs.createDeviceFileAt (parentId : Nat) (name : String) (kind : InodeKind)
    : Option (Except VfsError Nat × Vfs) :=
  v.createSpecialAt parentId name kind

def Vfs.collectDescendants (v : Vfs) : Nat → Nat → Option (List Nat)
  | 0, _ => none
  | fuel + 1, nodeId => do
      let node ← v.inodes[nodeId]?
      match node.kind with
      | .directory children =>
        let parts ← children.mapM fun childId =>
          (v.collectDescendants fuel childId).map (childId :: ·)
        return parts.flatten
      | _ => return []

def Vfs.buryAll (v : Vfs) : List Nat → Option Vfs
  | [] => some v
  | id :: rest => do
      let node ← v.inodes[id]?
      let v' ← v.setInode id { node with kind := .tombstone, name := "", parentId := 0 }
      Vfs.buryAll { v' with freeInodes := id :: v'.freeInodes } rest

def Vfs.removeEntry (targetId : Nat) : Option (Except VfsError Unit × Vfs) :=
  if targetId = 0 then some (.error .rootProtected, v)
  else do
    let descendants ← v.collectDescendants v.inodes.length targetId
    let target ← v.inodes[targetId]?
    let parent ← v.inodes[target.parentId]?
    match parent.kind with
    | .directory children =>
      if targetId ∈ children then
        let unlinked ← v.setInode target.parentId
          { parent with kind := .directory (children.erase targetId) }
        let buried ← unlinked.buryAll (descendants ++ [targetId])
        return (.ok (), buried)
      else return (.error .notFound, v)
    | _ => return (.error .notFound, v)

structure Environment where
  generate : ProcGenerator → List UInt8
  random : List UInt8

def Vfs.readFile (env : Environment) (fileId : Nat) :
    Option (Except VfsError (List UInt8)) := do
  let node ← v.inodes[fileId]?
  match node.kind with
  | .file content => return .ok content
  | .procFile generator => return .ok (env.generate generator)
  | .devNull => return .ok []
  | .devZero => return .ok (List.replicate 64 0)
  | .devRandom => return .ok env.random
  | .directory _ => return .error .isDirectory
  | .tombstone => return .error .deleted

/-- The executables that `elf::build_*_elf` produce for `/bin`. -/
structure SystemImages where
  hello : List UInt8
  counter : List UInt8
  init : List UInt8

/-- The texts that `init` writes below `/etc` and `/docs`. -/
structure SystemTexts where
  hostname : List UInt8
  version : List UInt8
  motd : List UInt8
  manifesto : List UInt8

def systemTexts : SystemTexts where
  hostname := "auraos-baremetal".toUTF8.toList
  version := "AuraOS v0.1.0-alpha (x86_64 Long Mode Pure Rust Kernel)".toUTF8.toList
  motd := "Welcome to AuraOS! Type 'help' for commands, 'ls' to inspect files.".toUTF8.toList
  manifesto :=
    ("========================================\n" ++
    "AuraOS 10-Year Vision & Core Principles\n" ++
    "========================================\n" ++
    "1. 100% Pure Rust bare-metal kernel.\n" ++
    "2. Ultra-lightweight footprint (< 1 MB core).\n" ++
    "3. Microkernel isolation with Ring 0/Ring 3.\n" ++
    "4. Zero legacy technical debt.\n").toUTF8.toList

/-- The id a creating call returned, or `0` as `unwrap_or(0)` has it. -/
def idOr0 : Except VfsError Nat → Nat
  | .ok id => id
  | .error _ => 0

/-- The table right after `self.inodes.push` of the root directory. -/
def rootOnly : Vfs :=
  { inodes := [⟨0, 0, "/", .directory []⟩], currentInode := 0, freeInodes := [] }

/-- The rest of `init`, for given file contents. -/
def Vfs.populate (images : SystemImages) (texts : SystemTexts) : Option Vfs := do
  let (etc, v) ← v.mkdirAt 0 "etc"
  let (docs, v) ← v.mkdirAt 0 "docs"
  let (bin, v) ← v.mkdirAt 0 "bin"
  let (proc, v) ← v.mkdirAt 0 "proc"
  let (dev, v) ← v.mkdirAt 0 "dev"
  let (_, v) ← v.createFileAt (idOr0 bin) "hello" images.hello
  let (_, v) ← v.createFileAt (idOr0 bin) "counter" images.counter
  let (_, v) ← v.createFileAt (idOr0 bin) "init" images.init
  let (_, v) ← v.createFileAt (idOr0 etc) "hostname" texts.hostname
  let (_, v) ← v.createFileAt (idOr0 etc) "version" texts.version
  let (_, v) ← v.createFileAt (idOr0 etc) "motd" texts.motd
  let (_, v) ← v.createFileAt (idOr0 docs) "manifesto.txt" texts.manifesto
  let (_, v) ← v.createProcFileAt (idOr0 proc) "uptime" .uptime
  let (_, v) ← v.createProcFileAt (idOr0 proc) "meminfo" .meminfo
  let (_, v) ← v.createProcFileAt (idOr0 proc) "cpuinfo" .cpuinfo
  let (_, v) ← v.createProcFileAt (idOr0 proc) "tasks" .tasks
  let (_, v) ← v.createDeviceFileAt (idOr0 dev) "null" .devNull
  let (_, v) ← v.createDeviceFileAt (idOr0 dev) "zero" .devZero
  let (_, v) ← v.createDeviceFileAt (idOr0 dev) "random" .devRandom
  let (_, v) ← v.createDeviceFileAt (idOr0 dev) "urandom" .devRandom
  return v

def Vfs.init (images : SystemImages) : Option Vfs :=
  rootOnly.populate images systemTexts

inductive Call where
  | mkdirAt (parentId : Nat) (name : String)
  | createFileAt (parentId : Nat) (name : String) (content : List UInt8)
  | removeEntry (targetId : Nat)
  deriving DecidableEq, Repr

def Call.argument : Call → Nat
  | .mkdirAt parentId _ => parentId
  | .createFileAt parentId _ _ => parentId
  | .removeEntry targetId => targetId

/-- The state after a call, successful or not; `none` when the call panics. -/
def Vfs.apply : Call → Option Vfs
  | .mkdirAt parentId name => (v.mkdirAt parentId name).map Prod.snd
  | .createFileAt parentId name content => (v.createFileAt parentId name content).map Prod.snd
  | .removeEntry targetId => (v.removeEntry targetId).map Prod.snd

end Table

end AuraOS.RamFileSystem
