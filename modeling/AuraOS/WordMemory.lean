import AuraOS.LittleEndian

namespace AuraOS.WordMemory

open LittleEndian

abbrev Word := BitVec 64

abbrev Memory := Word → UInt8

def InRange (start : Word) (length : Nat) (addr : Word) : Prop :=
  (addr - start).toNat < length

def Memory.read (mem : Memory) (addr : Word) : Word :=
  BitVec.ofNat 64 (leValue ((List.range 8).map fun i => mem (addr + BitVec.ofNat 64 i)))

def Memory.write (mem : Memory) (addr value : Word) : Memory := fun a =>
  (leBytes 8 value.toNat)[(a - addr).toNat]?.getD (mem a)

def Memory.readWords (mem : Memory) (addr : Word) : Nat → List Word
  | 0 => []
  | count + 1 => mem.read addr :: mem.readWords (addr + 8) count

def Memory.writeWords (mem : Memory) (addr : Word) : List Word → Memory
  | [] => mem
  | word :: rest => (mem.writeWords (addr + 8) rest).write addr word

variable {mem mem' : Memory} {addr a : Word} {count : Nat}

theorem write_of_not_inRange (h : ¬ InRange addr 8 a) (value : Word) :
    mem.write addr value a = mem a := by
  rw [Memory.write, List.getElem?_eq_none (by simpa [InRange] using h), Option.getD_none]

theorem read_write (mem : Memory) (addr value : Word) :
    (mem.write addr value).read addr = value := by
  have hbytes : (List.range 8).map (fun i => mem.write addr value (addr + BitVec.ofNat 64 i)) =
      leBytes 8 value.toNat := by
    refine List.ext_getElem (by simp) fun i hi hi' => ?_
    have hdiff : (addr + BitVec.ofNat 64 i - addr).toNat = i := by
      simp only [List.length_map, List.length_range] at hi
      rw [add_sub_cancel_left, BitVec.toNat_ofNat]
      omega
    rw [List.getElem_map, List.getElem_range, Memory.write, hdiff, List.getElem?_eq_getElem hi',
      Option.getD_some]
  rw [Memory.read, hbytes, leValue_leBytes, Nat.mod_eq_of_lt (b := 256 ^ 8) value.isLt,
    BitVec.ofNat_toNat,
    BitVec.setWidth_eq]

theorem inRange_next (h : InRange (addr + 8) count a) (hcount : count + 8 ≤ 2 ^ 64) :
    InRange addr (count + 8) a ∧ ¬ InRange addr 8 a := by
  have hdiff : a - (addr + 8) = a - addr - 8 := sub_add_eq_sub_sub a addr 8
  have hword : (8 : Word).toNat = 8 := rfl
  simp only [InRange, hdiff, BitVec.toNat_sub (a - addr) 8, hword] at *
  omega

theorem read_congr (h : ∀ a, InRange addr 8 a → mem' a = mem a) :
    mem'.read addr = mem.read addr := by
  rw [Memory.read, Memory.read]
  congr 2
  refine List.map_congr_left fun i hi => h _ ?_
  rw [List.mem_range] at hi
  rw [InRange, add_sub_cancel_left, BitVec.toNat_ofNat]
  omega

theorem readWords_congr (hcount : 8 * count ≤ 2 ^ 64)
    (h : ∀ a, InRange addr (8 * count) a → mem' a = mem a) :
    mem'.readWords addr count = mem.readWords addr count := by
  induction count generalizing addr with
  | zero => rfl
  | succ count ih =>
    have hread : mem'.read addr = mem.read addr := read_congr fun a ha => h a (by
      simp only [InRange] at *
      omega)
    have hrest : mem'.readWords (addr + 8) count = mem.readWords (addr + 8) count :=
      ih (by omega) fun a ha => h a (inRange_next ha (by omega)).1
    rw [Memory.readWords, Memory.readWords, hread, hrest]

theorem readWords_succ (mem : Memory) (addr : Word) (count : Nat) :
    mem.readWords addr (count + 1) =
      mem.readWords addr count ++ [mem.read (addr + BitVec.ofNat 64 (8 * count))] := by
  induction count generalizing addr with
  | zero =>
    rw [Nat.mul_zero, BitVec.add_zero]
    rfl
  | succ count ih =>
    have haddr : addr + 8 + BitVec.ofNat 64 (8 * count) =
        addr + BitVec.ofNat 64 (8 * (count + 1)) := by
      rw [Nat.mul_succ, Nat.add_comm, BitVec.ofNat_add, add_assoc]
      rfl
    rw [Memory.readWords, ih, haddr, Memory.readWords, List.cons_append]

theorem writeWords_of_not_inRange {words : List Word} (hlength : 8 * words.length ≤ 2 ^ 64)
    (h : ¬ InRange addr (8 * words.length) a) : mem.writeWords addr words a = mem a := by
  induction words generalizing addr with
  | nil => rfl
  | cons word rest ih =>
    rw [List.length_cons] at h hlength
    rw [Memory.writeWords, write_of_not_inRange]
    · exact ih (by omega) fun hrest => h (inRange_next hrest (by omega)).1
    · intro hfirst
      refine h ?_
      simp only [InRange] at *
      omega

theorem readWords_writeWords (mem : Memory) (addr : Word) {words : List Word}
    (hlength : 8 * words.length ≤ 2 ^ 64) :
    (mem.writeWords addr words).readWords addr words.length = words := by
  induction words generalizing addr with
  | nil => rfl
  | cons word rest ih =>
    rw [List.length_cons] at hlength
    have hrest : ((mem.writeWords (addr + 8) rest).write addr word).readWords (addr + 8)
        rest.length = rest := by
      rw [readWords_congr (by omega) fun a ha =>
        write_of_not_inRange (inRange_next ha (by omega)).2 word]
      exact ih (addr + 8) (by omega)
    rw [List.length_cons, Memory.writeWords, Memory.readWords, hrest, read_write]

end AuraOS.WordMemory
