import Mathlib

namespace AuraOS.CheckedBytes

inductive Panic where
  | indexOutOfRange
  | sliceOutOfRange
  | lengthMismatch
deriving DecidableEq, Repr

abbrev Checked := Except Panic

def Returns {α : Type} (computation : Checked α) : Prop :=
  ∃ value, computation = .ok value

instance {α : Type} (computation : Checked α) : Decidable (Returns computation) :=
  match computation with
  | .ok value => isTrue ⟨value, rfl⟩
  | .error _ => isFalse fun ⟨_, h⟩ => nomatch h

@[simp]
theorem ok_bind {α β : Type} (value : α) (next : α → Checked β) :
    ((Except.ok value : Checked α) >>= next) = next value :=
  rfl

@[simp]
theorem returns_ok {α : Type} (value : α) : Returns (Except.ok value : Checked α) :=
  ⟨value, rfl⟩

@[simp]
theorem returns_pure {α : Type} (value : α) : Returns (pure value : Checked α) :=
  ⟨value, rfl⟩

@[simp]
theorem not_returns_error {α : Type} (panic : Panic) :
    ¬ Returns (Except.error panic : Checked α) := by
  rintro ⟨_, h⟩
  cases h

theorem Returns.bind {α β : Type} {first : Checked α} {next : α → Checked β}
    (hfirst : Returns first) (hnext : ∀ value, Returns (next value)) :
    Returns (first >>= next) := by
  obtain ⟨value, rfl⟩ := hfirst
  exact hnext value

theorem exists_of_bind_eq_ok {α β : Type} {first : Checked α} {next : α → Checked β} {result : β}
    (h : (first >>= next) = .ok result) : ∃ value, first = .ok value ∧ next value = .ok result := by
  cases first with
  | ok value => exact ⟨value, rfl, h⟩
  | error panic => cases h

theorem Returns.of_bind {α β : Type} {first : Checked α} {next : α → Checked β}
    (h : Returns (first >>= next)) : Returns first := by
  cases first with
  | ok value => exact returns_ok value
  | error panic => exact absurd h (not_returns_error panic)

def byteAt (data : List UInt8) (i : Nat) : Checked UInt8 :=
  match data[i]? with
  | some byte => .ok byte
  | none => .error .indexOutOfRange

/-- The bytes of the range `first..last`. -/
def slice (data : List UInt8) (first last : Nat) : Checked (List UInt8) :=
  if first ≤ last ∧ last ≤ data.length then .ok ((data.take last).drop first)
  else .error .sliceOutOfRange

/-- The bytes of the range `first..`. -/
def sliceFrom (data : List UInt8) (first : Nat) : Checked (List UInt8) :=
  slice data first data.length

/-- A slice copied over a whole array of `n` bytes. -/
def toArray (n : Nat) (source : List UInt8) : Checked (Vector UInt8 n) :=
  if h : source.length = n then .ok ⟨source.toArray, by simpa using h⟩
  else .error .lengthMismatch

/-- The bytes of the range `first..last` copied over an array of `n` bytes. -/
def arrayAt (n : Nat) (data : List UInt8) (first last : Nat) : Checked (Vector UInt8 n) :=
  slice data first last >>= toArray n

def setByte (buffer : List UInt8) (i : Nat) (byte : UInt8) : Checked (List UInt8) :=
  if i < buffer.length then .ok (buffer.set i byte) else .error .indexOutOfRange

/-- A slice copied over the range `first..last` of a buffer. -/
def copyInto (buffer : List UInt8) (first last : Nat) (source : List UInt8) :
    Checked (List UInt8) :=
  if first ≤ last ∧ last ≤ buffer.length then
    if source.length = last - first then
      .ok (buffer.take first ++ source ++ buffer.drop last)
    else .error .lengthMismatch
  else .error .sliceOutOfRange

def overwriteFront {n : Nat} (array : Vector UInt8 n) (source : List UInt8)
    (h : source.length ≤ n) : Vector UInt8 n :=
  ⟨(source ++ array.toList.drop source.length).toArray, by simp; omega⟩

@[simp]
theorem take_overwriteFront {n : Nat} (array : Vector UInt8 n) (source : List UInt8)
    (h : source.length ≤ n) :
    (overwriteFront array source h).toList.take source.length = source := by
  show (source ++ array.toList.drop source.length).take source.length = source
  exact List.take_left

section Accesses

variable {data : List UInt8}

theorem byteAt_of_lt {i : Nat} (h : i < data.length) : byteAt data i = .ok (data.getD i 0) := by
  simp [byteAt, h]

theorem slice_of_le {first last : Nat} (h : first ≤ last) (hlast : last ≤ data.length) :
    slice data first last = .ok ((data.take last).drop first) :=
  if_pos ⟨h, hlast⟩

theorem returns_slice_iff {first last : Nat} :
    Returns (slice data first last) ↔ first ≤ last ∧ last ≤ data.length := by
  unfold slice
  split <;> simp_all

theorem sliceFrom_of_le {first : Nat} (h : first ≤ data.length) :
    sliceFrom data first = .ok (data.drop first) := by
  rw [sliceFrom, slice_of_le h (Nat.le_refl _), List.take_length]

theorem sliceFrom_append {front : List UInt8} {i : Nat} (back : List UInt8)
    (h : front.length = i) : sliceFrom (front ++ back) i = .ok back := by
  rw [sliceFrom_of_le (by simp [h]), ← h, List.drop_left]

theorem returns_byteAt {i : Nat} (h : i < data.length) : Returns (byteAt data i) :=
  ⟨_, byteAt_of_lt h⟩

theorem returns_sliceFrom {first : Nat} (h : first ≤ data.length) :
    Returns (sliceFrom data first) :=
  ⟨_, sliceFrom_of_le h⟩

theorem returns_arrayAt {first last n : Nat} (h : first + n = last)
    (hlast : last ≤ data.length) : Returns (arrayAt n data first last) := by
  have hlength : ((data.take last).drop first).length = n := by
    grind
  rw [arrayAt, slice_of_le (by omega) hlast, ok_bind, toArray, dif_pos hlength]
  exact returns_ok _

@[simp]
theorem toArray_toList {n : Nat} (array : Vector UInt8 n) : toArray n array.toList = .ok array := by
  rw [toArray, dif_pos (Vector.length_toList ..)]
  rfl

end Accesses

/-- A buffer of `total` bytes with the given front, and zeros behind it. -/
def filled (total : Nat) (front : List UInt8) : List UInt8 :=
  front ++ List.replicate (total - front.length) 0

section Filled

variable {total : Nat} {front : List UInt8}

theorem filled_nil : filled total [] = List.replicate total 0 :=
  rfl

theorem filled_of_length (h : front.length = total) : filled total front = front := by
  simp [filled, h]

theorem length_filled (h : front.length ≤ total) : (filled total front).length = total := by
  simp only [filled, List.length_append, List.length_replicate]
  omega

theorem copyInto_filled {first last : Nat} {source : List UInt8} (hfirst : front.length = first)
    (hlast : first + source.length = last) (htotal : last ≤ total) :
    copyInto (filled total front) first last source = .ok (filled total (front ++ source)) := by
  have hlength : (filled total front).length = total := length_filled (by omega)
  have hdrop : (filled total front).drop last =
      List.replicate (total - (front ++ source).length) 0 := by
    rw [filled, List.drop_append, List.drop_eq_nil_of_le (by omega), List.nil_append,
      List.drop_replicate, List.length_append]
    congr 1
    omega
  have htake : (filled total front).take first = front := by
    rw [filled, ← hfirst, List.take_left]
  rw [copyInto, if_pos (by omega), if_pos (by omega), hdrop, htake]
  rfl

theorem setByte_filled {i : Nat} {byte : UInt8} (hi : front.length = i) (htotal : i < total) :
    setByte (filled total front) i byte = .ok (filled total (front ++ [byte])) := by
  have hzeros : total - front.length = (total - (front ++ [byte]).length) + 1 := by
    rw [List.length_append, List.length_singleton]
    omega
  rw [setByte, if_pos (by rw [length_filled (by omega)]; exact htotal), filled, filled, ← hi,
    List.set_append_right _ _ (Nat.le_refl _), Nat.sub_self, hzeros, List.replicate_succ,
    List.set_cons_zero, List.append_assoc, List.singleton_append]

end Filled
def fromBeBytes (high low : UInt8) : UInt16 :=
  UInt16.ofNat (high.toNat * 256 + low.toNat)

/-- The word at positions `i` and `i + 1`. -/
def wordAt (data : List UInt8) (i : Nat) : Checked UInt16 := do
  return fromBeBytes (← byteAt data i) (← byteAt data (i + 1))

def wordIn (data : List UInt8) (i : Nat) : UInt16 :=
  fromBeBytes (data.getD i 0) (data.getD (i + 1) 0)

theorem wordAt_of_lt {data : List UInt8} {i : Nat} (h : i + 1 < data.length) :
    wordAt data i = .ok (wordIn data i) := by
  rw [wordAt, byteAt_of_lt (by omega), ok_bind, byteAt_of_lt h, ok_bind]
  rfl

theorem returns_wordAt {data : List UInt8} {i : Nat} (h : i + 1 < data.length) :
    Returns (wordAt data i) :=
  ⟨_, wordAt_of_lt h⟩

def highByte (word : UInt16) : UInt8 := UInt8.ofNat (word.toNat / 256)

def lowByte (word : UInt16) : UInt8 := UInt8.ofNat (word.toNat % 256)

def toBeBytes (word : UInt16) : List UInt8 := [highByte word, lowByte word]

@[simp]
theorem length_toBeBytes (word : UInt16) : (toBeBytes word).length = 2 :=
  rfl

theorem fromBeBytes_toNat (high low : UInt8) :
    (fromBeBytes high low).toNat = high.toNat * 256 + low.toNat := by
  have hhigh := high.toNat_lt
  have hlow := low.toNat_lt
  exact UInt16.toNat_ofNat_of_lt' (show _ < 65536 by omega)

theorem highByte_toNat (word : UInt16) : (highByte word).toNat = word.toNat / 256 := by
  have hword := word.toNat_lt
  exact UInt8.toNat_ofNat_of_lt' (show _ < 256 by omega)

theorem lowByte_toNat (word : UInt16) : (lowByte word).toNat = word.toNat % 256 :=
  UInt8.toNat_ofNat_of_lt' (show _ < 256 by omega)

@[simp]
theorem fromBeBytes_highByte_lowByte (word : UInt16) :
    fromBeBytes (highByte word) (lowByte word) = word := by
  refine UInt16.toNat_inj.mp ?_
  rw [fromBeBytes_toNat, highByte_toNat, lowByte_toNat]
  omega

/-- The bytes stand in the data from position `i` on. -/
def OccursAt (data : List UInt8) (i : Nat) (bytes : List UInt8) : Prop :=
  bytes <+: data.drop i

theorem occursAt_append {data front back : List UInt8} {i : Nat} :
    OccursAt data i (front ++ back) ↔
      OccursAt data i front ∧ OccursAt data (i + front.length) back := by
  simp only [OccursAt, ← List.drop_drop]
  constructor
  · rintro ⟨rest, hrest⟩
    rw [← hrest, List.append_assoc, List.drop_left]
    exact ⟨List.prefix_append _ _, List.prefix_append _ _⟩
  · rintro ⟨⟨rest, hrest⟩, hback⟩
    rw [← hrest] at hback ⊢
    rw [List.drop_left] at hback
    exact (List.prefix_append_right_inj front).mpr hback

theorem occursAt_self_append (front back : List UInt8) : OccursAt (front ++ back) 0 front :=
  List.prefix_append _ _

section OccursAt

variable {data : List UInt8} {i : Nat}

theorem OccursAt.byteAt {byte : UInt8} (h : OccursAt data i [byte]) : byteAt data i = .ok byte := by
  obtain ⟨rest, hrest⟩ := h
  have hget : data[i]? = some byte := by
    rw [← List.head?_drop, ← hrest]
    rfl
  rw [CheckedBytes.byteAt, hget]

theorem OccursAt.wordAt {word : UInt16} (h : OccursAt data i (toBeBytes word)) :
    wordAt data i = .ok word := by
  obtain ⟨hhigh, hlow⟩ := occursAt_append.mp (show OccursAt data i ([_] ++ [_]) from h)
  have hlow' : CheckedBytes.byteAt data (i + 1) = .ok (lowByte word) := hlow.byteAt
  rw [CheckedBytes.wordAt, hhigh.byteAt, ok_bind, hlow', ok_bind, fromBeBytes_highByte_lowByte]
  rfl

theorem OccursAt.slice {bytes : List UInt8} {last : Nat} (h : OccursAt data i bytes)
    (hlast : i + bytes.length = last) (hle : last ≤ data.length) :
    slice data i last = .ok bytes := by
  rw [slice_of_le (by omega) hle, ← hlast, List.drop_take, Nat.add_sub_cancel_left]
  exact congrArg Except.ok (List.prefix_iff_eq_take.mp h).symm

theorem OccursAt.arrayAt {n last : Nat} {array : Vector UInt8 n} (h : OccursAt data i array.toList)
    (hlast : i + n = last) (hle : last ≤ data.length) : arrayAt n data i last = .ok array := by
  rw [CheckedBytes.arrayAt, h.slice (by simpa using hlast) hle, ok_bind, toArray_toList]

end OccursAt

end AuraOS.CheckedBytes
