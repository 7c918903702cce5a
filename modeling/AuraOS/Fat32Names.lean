import AuraOS.Fat32Operations

namespace AuraOS.Fat32

variable {part path base name : List UInt8} {c : UInt8} {slot : Slot} {isDir : Bool}

section Segments

theorem segments_append (front back : List UInt8) :
    segments (front ++ slash :: back) = segments front ++ segments back := by
  have hsplit : (front ++ slash :: back).splitOn slash =
      front.splitOn slash ++ back.splitOn slash :=
    List.splitOnP_append_cons front back (beq_self_eq_true slash)
  rw [segments, segments, segments, hsplit, List.filter_append]

theorem segments_nil : segments [] = [] := rfl

theorem segments_of_notMem (h : slash ∉ part) (hne : part ≠ []) : segments part = [part] := by
  rw [segments, List.splitOn_eq_singleton h]
  simp [hne]

theorem segments_dropWhile (path : List UInt8) :
    segments (path.dropWhile (· == slash)) = segments path := by
  induction path with
  | nil => rfl
  | cons b rest ih =>
    by_cases hb : b = slash
    · subst hb
      have hcons : segments (slash :: rest) = segments rest := segments_append [] rest
      rw [List.dropWhile_cons_of_pos (by simp), ih, hcons]
    · rw [List.dropWhile_cons_of_neg (by simpa using hb)]

theorem segments_dropWhile_reverse (path : List UInt8) :
    segments (path.dropWhile (· == slash)).reverse = segments path.reverse := by
  induction path with
  | nil => rfl
  | cons b rest ih =>
    by_cases hb : b = slash
    · subst hb
      rw [List.dropWhile_cons_of_pos (by simp), ih, List.reverse_cons,
        segments_append, segments_nil, List.append_nil]
    · rw [List.dropWhile_cons_of_neg (by simpa using hb)]

theorem segments_trimMatches (path : List UInt8) :
    segments (trimMatches slash path) = segments path := by
  rw [trimMatches, segments_dropWhile_reverse, List.reverse_reverse, segments_dropWhile]

theorem splitLast_cases (path : List UInt8) :
    slash ∉ path ∧ splitLast path = ([], path) ∨
      ∃ parent file, path = parent ++ slash :: file ∧ slash ∉ file ∧
        splitLast path = (parent, file) := by
  have hsplit : path.reverse.takeWhile (· != slash) ++ path.reverse.dropWhile (· != slash) =
      path.reverse := List.takeWhile_append_dropWhile
  have hnot : slash ∉ (path.reverse.takeWhile (· != slash)).reverse := fun h => by
    have := List.mem_takeWhile_imp (List.mem_reverse.mp h)
    simp at this
  have hpath : path = (path.reverse.dropWhile (· != slash)).reverse ++
      (path.reverse.takeWhile (· != slash)).reverse := by
    rw [← List.reverse_append, hsplit, List.reverse_reverse]
  rw [splitLast]
  generalize (path.reverse.takeWhile (· != slash)).reverse = file at hnot hpath ⊢
  cases hrest : path.reverse.dropWhile (· != slash) with
  | nil =>
    rw [hrest] at hpath
    subst hpath
    refine .inl ⟨hnot, ?_⟩
    rw [Nat.sub_self, Nat.zero_sub, List.take_zero]
  | cons b rest =>
    have hb : b = slash := by
      have hne : path.reverse.dropWhile (· != slash) ≠ [] := by simp [hrest]
      have hhead := List.head_dropWhile_not (· != slash) hne
      simpa [hrest] using hhead
    subst hb
    rw [hrest, List.reverse_cons, List.append_assoc, List.cons_append, List.nil_append] at hpath
    refine .inr ⟨rest.reverse, file, hpath, hnot, ?_⟩
    have hlength : path.length - file.length - 1 = rest.reverse.length := by
      rw [hpath, List.length_append, List.length_cons]
      omega
    rw [hlength, hpath, List.take_left]

def parentPath (path : List UInt8) : List UInt8 := (splitLast (trimMatches slash path)).1

theorem segments_eq_concat (h : lastPart path ≠ []) :
    segments path = segments (parentPath path) ++ [lastPart path] := by
  rw [lastPart] at h
  rw [← segments_trimMatches, parentPath, lastPart]
  rcases splitLast_cases (trimMatches slash path) with ⟨hnot, hsplit⟩ |
    ⟨parent, file, hpath, hnot, hsplit⟩
  · rw [hsplit] at h ⊢
    exact segments_of_notMem hnot h
  · rw [hsplit] at h ⊢
    rw [hpath, segments_append, segments_of_notMem hnot h]

end Segments

def isNameByte (b : UInt8) : Bool := 0x21 ≤ b && b ≤ 0x7E && b != dot && b != slash

structure NamePart (len : Nat) (part : List UInt8) : Prop where
  nonempty : part ≠ []
  length : part.length ≤ len
  bytes : ∀ b ∈ part, isNameByte b = true

def LegalName (name : List UInt8) : Prop :=
  NamePart 8 name ∨ ∃ base ext, NamePart 8 base ∧ NamePart 3 ext ∧ name = base ++ dot :: ext

def LegalPath (path : List UInt8) : Prop := ∀ part ∈ segments path, LegalName part

section Bytes

theorem forall_byte {p : UInt8 → Prop} (h : ∀ n : Fin 256, p (UInt8.ofFin n)) (b : UInt8) : p b :=
  h b.toFin

theorem asciiUpper_asciiUpper (b : UInt8) : asciiUpper (asciiUpper b) = asciiUpper b :=
  forall_byte (p := fun b => asciiUpper (asciiUpper b) = asciiUpper b) (by decide +kernel) b

theorem isNameByte_asciiUpper (b : UInt8) : isNameByte (asciiUpper b) = isNameByte b :=
  forall_byte (p := fun b => isNameByte (asciiUpper b) = isNameByte b) (by decide +kernel) b

theorem nameByte_facts (b : UInt8) (h : isNameByte b = true) :
    b ≠ dot ∧ b ≠ 0x00 ∧ b ≠ 0xE5 ∧ b < 0x80 ∧ 0x20 < b := by
  revert h
  exact forall_byte (p := fun b => isNameByte b = true →
    b ≠ dot ∧ b ≠ 0x00 ∧ b ≠ 0xE5 ∧ b < 0x80 ∧ 0x20 < b) (by decide +kernel) b

theorem toAsciiUppercase_toAsciiUppercase (name : List UInt8) :
    toAsciiUppercase (toAsciiUppercase name) = toAsciiUppercase name := by
  simp [toAsciiUppercase, asciiUpper_asciiUpper]

end Bytes

section Parts

variable {len : Nat} {part : List UInt8}

theorem NamePart.toAsciiUppercase (h : NamePart len part) :
    NamePart len (toAsciiUppercase part) where
  nonempty hnil := h.nonempty (List.map_eq_nil_iff.mp hnil)
  length := by
    rw [AuraOS.Fat32.toAsciiUppercase, List.length_map]
    exact h.length
  bytes b hb := by
    obtain ⟨c, hc, rfl⟩ := List.mem_map.mp hb
    rw [isNameByte_asciiUpper]
    exact h.bytes c hc

theorem NamePart.dot_notMem (h : NamePart len part) : dot ∉ part := fun hmem =>
  (nameByte_facts dot (h.bytes dot hmem)).1 rfl

theorem padTo_eq (h : part.length ≤ len) :
    padTo len part = part ++ List.replicate (len - part.length) space := by
  rw [padTo, List.take_of_length_le h]

theorem utf8Valid_of_ascii {bytes : List UInt8} (h : ∀ b ∈ bytes, b < 0x80) :
    utf8Valid bytes = true := by
  have hfold : bytes.foldlM utf8Step [] = some [] := by
    induction bytes with
    | nil => rfl
    | cons b rest ih =>
      have hb : utf8Step [] b = some [] := by
        exact if_pos (h b (.head _))
      rw [List.foldlM_cons, hb]
      exact ih fun c hc => h c (.tail b hc)
  rw [utf8Valid, hfold]
  rfl

theorem dropWhiteSpace_name (hc : isNameByte c = true) (rest : List UInt8) :
    dropWhiteSpace (c :: rest) = none := by
  obtain ⟨-, -, -, hhigh, hlow⟩ := nameByte_facts c hc
  have hlow' : ¬ ((0x09 ≤ c ∧ c ≤ 0x0D) ∨ c = 0x20) := by
    grind
  have hne (b : UInt8) (hb : 0x80 ≤ b) : c ≠ b := by
    grind
  have hcont : ¬ 0x80 ≤ c := UInt8.not_le.mpr hhigh
  rw [dropWhiteSpace.eq_def]
  simp only [if_neg hlow']
  match rest with
  | [] => rfl
  | b :: rest =>
    simp only [hne 0x85 (by decide), hne 0xA0 (by decide), or_self, and_false, if_false]
    match rest with
    | [] => rfl
    | a :: rest =>
      simp only [hne 0x80 (by decide), hne 0xA8 (by decide), hne 0xA9 (by decide),
        hne 0xAF (by decide), hne 0x9F (by decide), hcont, false_and, or_self, and_false,
        if_false]

theorem trimEndFrom_spaces (hc : isNameByte c = true) (rest : List UInt8) {count fuel : Nat}
    (hfuel : count ≤ fuel) :
    trimEndFrom fuel (List.replicate count space ++ c :: rest) = c :: rest := by
  induction fuel generalizing count with
  | zero =>
    obtain rfl : count = 0 := Nat.le_zero.mp hfuel
    rfl
  | succ fuel ih =>
    cases count with
    | zero =>
      rw [List.replicate_zero, List.nil_append, trimEndFrom, dropWhiteSpace_name hc]
    | succ count =>
      exact ih (Nat.le_of_succ_le_succ hfuel)

theorem NamePart.trimEnd_padTo (h : NamePart len part) :
    trimEnd (fromUtf8OrEmpty (padTo len part)) = part := by
  have hascii : ∀ b ∈ padTo len part, b < 0x80 := by
    intro b hb
    rcases mem_padTo hb with hpart | rfl
    · exact (nameByte_facts b (h.bytes b hpart)).2.2.2.1
    · decide
  rw [fromUtf8OrEmpty, if_pos (utf8Valid_of_ascii hascii), trimEnd, length_padTo,
    padTo_eq h.length, List.reverse_append, List.reverse_replicate]
  obtain ⟨c, rest, hreverse⟩ := List.exists_cons_of_ne_nil (List.reverse_ne_nil_iff.mpr h.nonempty)
  have hc : c ∈ part := List.mem_reverse.mp (hreverse ▸ (.head _))
  rw [hreverse, trimEndFrom_spaces (h.bytes c hc) rest (Nat.sub_le len part.length), ← hreverse,
    List.reverse_reverse]

theorem trimEnd_padTo_nil : trimEnd (fromUtf8OrEmpty (padTo 3 [])) = [] := by decide

end Parts

section LegalNames

theorem takeWhile_append_dot (hbase : dot ∉ base) (ext : List UInt8) :
    (base ++ dot :: ext).takeWhile (· != dot) = base ∧
      (base ++ dot :: ext).dropWhile (· != dot) = dot :: ext := by
  have hall : ∀ b ∈ base, (b != dot) = true := fun b hb => by
    have hne : b ≠ dot := fun heq => hbase (heq ▸ hb)
    simpa using hne
  constructor
  · rw [List.takeWhile_append_of_pos hall]
    simp
  · rw [List.dropWhile_append_of_pos hall]
    simp

theorem takeWhile_of_dot_notMem (h : dot ∉ part) :
    part.takeWhile (· != dot) = part ∧ part.dropWhile (· != dot) = [] := by
  have hall : ∀ b ∈ part, (b != dot) = true := fun b hb => by
    have hne : b ≠ dot := fun heq => h (heq ▸ hb)
    simpa using hne
  exact ⟨List.takeWhile_eq_self_iff.mpr hall, List.dropWhile_eq_nil_iff.mpr hall⟩

theorem LegalName.toShortName (h : LegalName name) :
    ∃ base ext, AuraOS.Fat32.toShortName name = (padTo 8 base, padTo 3 ext) ∧ NamePart 8 base ∧
      (ext = [] ∧ toAsciiUppercase name = base ∨
        NamePart 3 ext ∧ toAsciiUppercase name = base ++ dot :: ext) := by
  rcases h with hname | ⟨base, ext, hbase, hext, rfl⟩
  · have hupper := hname.toAsciiUppercase
    obtain ⟨htake, hdrop⟩ := takeWhile_of_dot_notMem hupper.dot_notMem
    refine ⟨toAsciiUppercase name, [], ?_, hupper, .inl ⟨rfl, rfl⟩⟩
    rw [AuraOS.Fat32.toShortName]
    simp only [htake, hdrop]
    rfl
  · have hbase' := hbase.toAsciiUppercase
    have hext' := hext.toAsciiUppercase
    have hupper : toAsciiUppercase (base ++ dot :: ext) =
        toAsciiUppercase base ++ dot :: toAsciiUppercase ext := by
      simp only [toAsciiUppercase, List.map_append, List.map_cons]
      rfl
    obtain ⟨htake, hdrop⟩ := takeWhile_append_dot hbase'.dot_notMem (toAsciiUppercase ext)
    refine ⟨toAsciiUppercase base, toAsciiUppercase ext, ?_, hbase', .inr ⟨hext', hupper⟩⟩
    rw [AuraOS.Fat32.toShortName]
    simp only [hupper, htake, hdrop, List.drop_succ_cons, List.drop_zero,
      (takeWhile_of_dot_notMem hext'.dot_notMem).1]

theorem isSkipped_of_attrOf (h : slot.attr = attrOf isDir) : slot.isSkipped = false := by
  rw [Slot.isSkipped, h]
  cases isDir <;> decide

theorem entrySlot_first {ext : List UInt8} (hbase : NamePart 8 base) (attr : UInt8)
    (first size : Nat) :
    isNameByte (entrySlot (padTo 8 base, padTo 3 ext) attr first size 0) = true := by
  have hname : (padTo 8 base, padTo 3 ext).1.length = 8 := length_padTo 8 base
  have hbytes := (entrySlot_fields hname (length_padTo 3 ext) attr first size).2.1
  obtain ⟨c, rest, rfl⟩ := List.exists_cons_of_ne_nil hbase.nonempty
  have hhead := congrArg List.head? hbytes
  simp only [padTo_eq hbase.length, List.cons_append, List.head?_cons, Option.some.injEq] at hhead
  exact hbase.bytes c (.head _)

theorem isLive_of_nameByte (hfirst : isNameByte (slot 0) = true)
    (hattr : slot.attr = attrOf isDir) :
    slot.isLive = true := by
  obtain ⟨-, hend, hdeleted, -⟩ := nameByte_facts _ hfirst
  rw [Slot.isLive, Slot.isFree, isSkipped_of_attrOf hattr]
  simp [hend, hdeleted]

theorem newSlot_legal (h : LegalName name) (isDir : Bool) (k : Nat) (bytes : List UInt8) :
    (newSlot name isDir k bytes).fullName = toAsciiUppercase name ∧
      (newSlot name isDir k bytes).isLive = true := by
  obtain ⟨base, ext, hshort, hbase, hext⟩ := h.toShortName
  have hlength : (padTo 8 base, padTo 3 ext).1.length = 8 := length_padTo 8 base
  rw [newSlot, hshort]
  refine ⟨?_, isLive_of_nameByte (entrySlot_first hbase _ _ _)
    (attr_entrySlot hlength (length_padTo 3 ext) _ _ _)⟩
  rw [fullName_entrySlot hlength (length_padTo 3 ext)]
  simp only [hbase.trimEnd_padTo]
  rcases hext with ⟨rfl, hname⟩ | ⟨hext, hname⟩
  · rw [if_pos trimEnd_padTo_nil, hname]
  · rw [hext.trimEnd_padTo, if_neg hext.nonempty, hname]

theorem LegalName.ne_nil (h : LegalName name) : name ≠ [] := by
  rcases h with hname | ⟨base, ext, _, _, rfl⟩
  · exact hname.nonempty
  · exact List.append_ne_nil_of_right_ne_nil base (List.cons_ne_nil dot ext)

theorem LegalName.not_dots (h : LegalName name) :
    toAsciiUppercase name ≠ [dot] ∧ toAsciiUppercase name ≠ [dot, dot] := by
  have hfirst : ∃ c rest, toAsciiUppercase name = c :: rest ∧ c ≠ dot := by
    obtain ⟨base, ext, _, hbase, hname⟩ := h.toShortName
    obtain ⟨c, rest, rfl⟩ := List.exists_cons_of_ne_nil hbase.nonempty
    have hc : c ≠ dot := fun heq => hbase.dot_notMem (heq ▸ (.head _))
    rcases hname with ⟨_, hname⟩ | ⟨_, hname⟩
    · exact ⟨c, rest, hname, hc⟩
    · exact ⟨c, rest ++ dot :: ext, hname, hc⟩
  obtain ⟨c, rest, hname, hc⟩ := hfirst
  rw [hname]
  exact ⟨fun heq => hc (List.cons.inj heq).1, fun heq => hc (List.cons.inj heq).1⟩

end LegalNames

structure Fat32Fs.Legal (fs : Fat32Fs) (disk : Disk) (call : Call) : Prop where
  path : LegalPath call.path
  target : ∀ path data entry, call = .writeFile path data → fs.target disk path = some entry →
    entry.isDirectory = false

section LegalCalls

variable {fs : Fat32Fs} {disk : Disk} {objs : Objs}

theorem legal_lastPart (h : LegalPath path) (hne : lastPart path ≠ []) :
    LegalName (lastPart path) :=
  h _ (by rw [segments_eq_concat hne]; exact List.mem_append_right _ (.head _))

theorem lastPart_not_dots (h : LegalPath path) :
    toAsciiUppercase (lastPart path) ≠ [dot] ∧ toAsciiUppercase (lastPart path) ≠ [dot, dot] := by
  by_cases hne : lastPart path = []
  · rw [hne]
    exact ⟨nofun, nofun⟩
  · exact (legal_lastPart h hne).not_dots

theorem upper_of_hasName {nameUpper : List UInt8} (h : slot.hasName nameUpper = true) :
    toAsciiUppercase slot.fullName = nameUpper :=
  beq_iff_eq.mp (Bool.and_eq_true_iff.mp h).2

theorem target_name (layout : Layout fs) (sound : Sound fs (fs.view disk) objs)
    {entry : FatDirEntry} (h : fs.target disk path = some entry) :
    toAsciiUppercase entry.name = toAsciiUppercase (lastPart path) := by
  simp only [Fat32Fs.target] at h
  rw [lastPart]
  generalize splitLast (trimMatches slash path) = parts at h ⊢
  obtain ⟨parentDir, filename⟩ := parts
  cases hparent : fs.resolveParent disk parentDir with
  | error stop =>
    rw [hparent] at h
    cases h
  | ok dir =>
    simp only [hparent] at h
    rcases findEntryInDir_cases layout sound (resolveParent_dirAt layout sound hparent)
      filename with hnone | ⟨p, _, _, hname, hfind⟩
    · rw [hnone] at h
      cases h
    · rw [hfind] at h
      cases h
      exact upper_of_hasName hname

theorem Fat32Fs.Legal.careful {call : Call} (h : fs.Legal disk call) (layout : Layout fs)
    (sound : Sound fs (fs.view disk) objs) : fs.Careful disk call := by
  cases call with
  | writeFile path data => exact fun entry hentry => h.target path data entry rfl hentry
  | createDir path => trivial
  | deleteEntry path =>
    intro entry hentry hdots
    have hname := target_name layout sound hentry
    have hpath : LegalPath path := h.path
    obtain ⟨hself, hup⟩ := lastPart_not_dots hpath
    rw [← hname] at hself hup
    rcases hdots with hdots | hdots <;> rw [hdots] at hself hup
    · exact absurd rfl hself
    · exact absurd rfl hup

end LegalCalls

end AuraOS.Fat32
