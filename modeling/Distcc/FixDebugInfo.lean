import Mathlib.Data.Int.Notation
import Distcc.Base.CString
import Distcc.Base.Prog
import Distcc.Base.Replace
import Distcc.Base.Slice

/-!
# Paths in debugging information

Model of `dcc_fix_debug_info` (`src/fix_debug_info.c`). An object file that was compiled on the
server has names of directories of the server in it. They are replaced by those of the client,
in the two sections of an ELF file that hold them, and padded with slashes so that nothing
moves.

A section is found by its name. The header of the file says where the headers of the sections
are, one of which is that of the section with the names. The source has the search twice, for
files of 32 and of 64 bits; the two differ in where a field is and how long it is
(`ElfClass`). What a file should look like is `WellFormed`: what is said about
the sections (`Layout`) is in the file, and the sections are inside of it and apart from
each other and from the headers. So replacing bytes of one section does not change what is
found of the others (`WellFormed.splice`).

In a section, the loop of `replace_string` ends one position too early, and it looks at what
it has put in itself. It does as it should if no occurrence is followed by one byte only, and
none is made up by what is put in (`debugInfoFixed_iff`). The size of a section is
handed on as an `int`.

The file is read and written as a whole, without failure, and memory suffices.
-/

namespace Distcc

open CString List Prog

/-! ### Finding a section -/

/-- Where the fields are that `FindElfSection` uses, in bytes. -/
structure ElfClass where
  /-- `e_ident[EI_CLASS]` -/
  ident : ℕ
  /-- The size of the header. -/
  ehdrSize : ℕ
  /-- The place of `e_shoff`. -/
  shoffAt : ℕ
  /-- The place of `e_shnum`. -/
  shnumAt : ℕ
  /-- The place of `e_shstrndx`. -/
  shstrndxAt : ℕ
  /-- The size of `e_shoff`, `sh_offset` and `sh_size`. -/
  word : ℕ
  /-- The size of the header of a section. -/
  shdrSize : ℕ
  /-- The place of `sh_offset`. -/
  offsetAt : ℕ
  /-- The place of `sh_size`. -/
  sizeAt : ℕ
  /-- The place of `sh_link`. -/
  linkAt : ℕ
  deriving DecidableEq, Repr

/-- `Elf32_Ehdr` and `Elf32_Shdr` -/
def elf32 : ElfClass := ⟨1, 52, 32, 48, 50, 4, 40, 16, 20, 24⟩

/-- `Elf64_Ehdr` and `Elf64_Shdr` -/
def elf64 : ElfClass := ⟨2, 64, 40, 60, 62, 8, 64, 24, 32, 40⟩

/-- `ELFMAG` -/
def elfMag : CString := 0x7f :: lit "ELF"

/-- The number that some bytes stand for, the least significant of them first. -/
def littleEndian : CString → ℕ
  | [] => 0
  | b :: rest => b.toNat + 256 * littleEndian rest

/-- A field of a file. -/
def field (file : CString) (off width : ℕ) : ℕ := littleEndian (slice file off width)

/-- Reading a field of the file. -/
def readField (off width : ℕ) : Prog CString Fault ℕ := do
  let file ← Prog.get
  if off + width ≤ file.length then pure (field file off width) else Prog.fail .bounds

/-- `strcmp` of what is in the file with a string, which is given with its `NUL`: are they
equal? -/
def sameString : CString → ℕ → Prog CString Fault Bool
  | [], _ => pure true
  | b :: text, off => do
    let file ← Prog.get
    match file[off]? with
    | none => Prog.fail .bounds
    | some b' => if b' = b then sameString text (off + 1) else pure false

section Find

variable (cls : ElfClass) (name : CString)

/-- A turn of the loop over the sections. -/
def sectionTurn (shoff strndx num i : ℕ) : Prog CString Fault (ℕ ⊕ Option ℕ) :=
  if i < num then do
    let strOffset ← readField (shoff + strndx * cls.shdrSize + cls.offsetAt) cls.word
    let nameOffset ← readField (shoff + i * cls.shdrSize) 4
    if ← sameString (name ++ [0]) (strOffset + nameOffset) then pure (.inr (some i))
    else pure (.inl (i + 1))
  else pure (.inr none)

/-- The index of the section with the names. It is in the first header if it is too large. -/
def stringIndex (shoff shstrndx : ℕ) : Prog CString Fault ℕ :=
  -- `SHN_XINDEX`
  if shstrndx = 0xffff then readField (shoff + cls.linkAt) 4 else pure shstrndx

/-- `num_sections`, an `unsigned int`. It is in the first header if it is too large. -/
def sectionCount (shoff : ℕ) : Prog CString Fault ℕ := do
  let shnum ← readField cls.shnumAt 2
  if shnum = 0 then do
    let size ← readField (shoff + cls.sizeAt) cls.word
    pure (size % 2 ^ 32)
  else pure shnum

/-- Where a section begins and how long it is, if it is not empty. The length is an `int`. -/
def sectionPlace (shoff i : ℕ) : Prog CString Fault (Option (ℕ × ℤ)) := do
  let size ← readField (shoff + i * cls.shdrSize + cls.sizeAt) cls.word
  if size > 0 then do
    let offset ← readField (shoff + i * cls.shdrSize + cls.offsetAt) cls.word
    pure (some (offset, (size : ℤ).bmod (2 ^ 32)))
  else pure none

/-- The part of `FindElfSection` for a class, when `e_shoff` and `e_shstrndx` are fine. -/
def findSection (shoff shstrndx : ℕ) : Prog CString Fault (Option (ℕ × ℤ)) := do
  let strndx ← stringIndex cls shoff shstrndx
  let num ← sectionCount cls shoff
  match ← Prog.loop (sectionTurn cls name shoff strndx num) (num + 1) 0 with
  | none => pure none
  | some i => sectionPlace cls shoff i

/-- The part of `FindElfSection` for a class. -/
def findElfSectionOf : Prog CString Fault (Option (ℕ × ℤ)) := do
  let file ← Prog.get
  -- the pointers are computed before the size of the file is looked at
  let shoff ← readField cls.shoffAt cls.word
  let shstrndx ← readField cls.shstrndxAt 2
  if file.length < cls.ehdrSize then pure none
  else if shoff = 0 ∨ file.length - cls.shdrSize < shoff then pure none
  -- `SHN_UNDEF`
  else if shstrndx = 0 then pure none
  else findSection cls name shoff shstrndx

/-- `FindElfSection` gives where a section begins and how long it is. -/
def findElfSection : Prog CString Fault (Option (ℕ × ℤ)) := do
  let file ← Prog.get
  if slice file 0 4 ≠ elfMag then pure none
  else do
    let data ← readField 5 1
    -- `ELFDATA2LSB`
    if data ≠ 1 then pure none
    else do
      let ident ← readField 4 1
      if ident = elf32.ident then findElfSectionOf elf32 name
      else if ident = elf64.ident then findElfSectionOf elf64 name
      else pure none

end Find

/-! ### Replacing -/

/-- `replace_string` -/
def replaceString (base size : ℕ) (search replace : CString) : Prog CString Fault Unit := do
  let file ← Prog.get
  if replace.length ≠ search.length then Prog.fail .assertion
  else if size < search.length + 1 then pure ()
  else if base + size ≤ file.length then
    let positions := size - search.length - 1
    Prog.modify fun file =>
      splice file base (scanReplace search replace positions (slice file base size))
  else Prog.fail .bounds

/-- `update_section` -/
def updateSection (name search replace : CString) : Prog CString Fault Unit := do
  match ← findElfSection name with
  | none => pure ()
  | some (base, size) => if size > 0 then replaceString base size.toNat search replace else pure ()

/-- `client_path_plus_slashes` -/
def clientPathPlusSlashes (clientPath serverPath : CString) : CString :=
  clientPath ++ List.replicate (serverPath.length - clientPath.length) '/'.toUInt8

/-- `dcc_fix_debug_info`, the state being the content of the file. -/
def dccFixDebugInfo (clientPath serverPath : CString) : Prog CString Fault Unit := do
  if clientPath.length ≤ serverPath.length then
    updateSection (lit ".debug_info") serverPath (clientPathPlusSlashes clientPath serverPath)
    updateSection (lit ".debug_str") serverPath (clientPathPlusSlashes clientPath serverPath)
  else Prog.fail .assertion

/-! ### Well-formed files -/

/-- **What an ELF file says about its sections.** -/
structure Layout where
  /-- Where the headers of the sections are. -/
  shoff : ℕ
  /-- The number of sections. -/
  num : ℕ
  /-- The index of the section with the names. -/
  strndx : ℕ
  /-- The names. -/
  name : ℕ → CString
  /-- Where a name is in the section with the names. -/
  nameOffset : ℕ → ℕ
  /-- Where a section is. -/
  offset : ℕ → ℕ
  /-- How long it is. -/
  size : ℕ → ℕ
  /-- Does it have bytes in the file? This is said by its type. -/
  hasBytes : ℕ → Bool

/-- The sections in which paths are replaced. -/
def debugSections : List CString := [lit ".debug_info", lit ".debug_str"]

/-- Two pieces of a file have no byte in common. -/
def Apart (off n off' n' : ℕ) : Prop := n = 0 ∨ n' = 0 ∨ off + n ≤ off' ∨ off' + n' ≤ off
deriving Decidable

/-- **The sections fit into a file** of this size: the headers and the sections are inside of it,
apart from each other. The names are in a section of their own, and the sections with debugging
information are there once. -/
structure Layout.Fits (l : Layout) (cls : ElfClass) (fileSize : ℕ) : Prop where
  num_pos : 0 < l.num
  num_lt : l.num < 2 ^ 32
  strndx_lt : l.strndx < l.num
  header : cls.ehdrSize ≤ l.shoff
  table : l.shoff + l.num * cls.shdrSize ≤ fileSize
  inside : ∀ i < l.num, l.hasBytes i → l.offset i + l.size i ≤ fileSize
  behind : ∀ i < l.num, l.hasBytes i → l.size i = 0 ∨ cls.ehdrSize ≤ l.offset i
  apart_table : ∀ i < l.num, l.hasBytes i →
    Apart (l.offset i) (l.size i) l.shoff (l.num * cls.shdrSize)
  apart : ∀ i < l.num, ∀ j < l.num, i ≠ j → l.hasBytes i → l.hasBytes j →
    Apart (l.offset i) (l.size i) (l.offset j) (l.size j)
  strings : l.hasBytes l.strndx
  strings_name : l.name l.strndx ∉ debugSections
  names : ∀ i < l.num, l.nameOffset i + (l.name i).length < l.size l.strndx
  debug : ∀ i < l.num, l.name i ∈ debugSections → l.hasBytes i
  unique : ∀ i < l.num, ∀ j < l.num, l.name i ∈ debugSections → l.name i = l.name j → i = j

/-- **The sections are the ones of a file.** A number that is too large for the header is in
the header of the first section. -/
structure Layout.IsOf (l : Layout) (cls : ElfClass) (file : CString) : Prop where
  shoff : field file cls.shoffAt cls.word = l.shoff
  strndx : field file cls.shstrndxAt 2 ≠ 0 ∧
    (field file cls.shstrndxAt 2 = l.strndx ∧ l.strndx ≠ 0xffff ∨
      field file cls.shstrndxAt 2 = 0xffff ∧ field file (l.shoff + cls.linkAt) 4 = l.strndx)
  num : field file cls.shnumAt 2 = l.num ∨
    field file cls.shnumAt 2 = 0 ∧ field file (l.shoff + cls.sizeAt) cls.word = l.num
  nameOffset : ∀ i < l.num, field file (l.shoff + i * cls.shdrSize) 4 = l.nameOffset i
  offset : ∀ i < l.num,
    field file (l.shoff + i * cls.shdrSize + cls.offsetAt) cls.word = l.offset i
  size : ∀ i < l.num, field file (l.shoff + i * cls.shdrSize + cls.sizeAt) cls.word = l.size i
  -- `SHT_NULL` and `SHT_NOBITS`
  hasBytes : ∀ i < l.num, l.hasBytes i = true ↔
    field file (l.shoff + i * cls.shdrSize + 4) 4 ∉ [0, 8]
  nulFree : ∀ i < l.num, (l.name i).NulFree
  name : ∀ i < l.num,
    slice file (l.offset l.strndx + l.nameOffset i) ((l.name i).length + 1) = l.name i ++ [0]

/-- **A well-formed file** of little-endian numbers, with named sections, or without any. -/
structure WellFormed (cls : ElfClass) (file : CString) (sections : Option Layout) : Prop where
  cls_mem : cls ∈ [elf32, elf64]
  magic : slice file 0 4 = elfMag
  ident : field file 4 1 = cls.ident
  data : field file 5 1 = 1
  header : cls.ehdrSize ≤ file.length
  unnamed : sections = none →
    field file cls.shoffAt cls.word = 0 ∨ field file cls.shstrndxAt 2 = 0
  fits : ∀ l ∈ sections, l.Fits cls file.length
  isOf : ∀ l ∈ sections, l.IsOf cls file

/-! ### A section is found -/

section Reading

variable {file : CString}

theorem readField_eq {off width : ℕ} (h : off + width ≤ file.length) :
    readField off width file = some (.ok (field file off width), file) := by
  rw [readField, get_bind, if_pos h]
  rfl

/-- Comparing with a name of the file. -/
theorem sameString_eq {name n : CString} {off : ℕ}
    (hslice : slice file off (n.length + 1) = n ++ [0]) (hn : n.NulFree) (hname : name.NulFree) :
    sameString (name ++ [0]) off file = some (.ok (decide (n = name)), file) := by
  induction name generalizing n off with
  | nil =>
    cases n with
    | nil =>
      obtain ⟨hbyte, -⟩ := slice_succ_eq_cons_iff.mp hslice
      simp only [nil_append, sameString, get_bind, hbyte, if_true]
      rfl
    | cons b n =>
      obtain ⟨hbyte, -⟩ := slice_succ_eq_cons_iff.mp hslice
      simp only [nil_append, sameString, get_bind, hbyte, hn b mem_cons_self, if_false]
      rfl
  | cons c name ih =>
    obtain ⟨hc, hrest⟩ := forall_mem_cons.mp hname
    cases n with
    | nil =>
      obtain ⟨hbyte, -⟩ := slice_succ_eq_cons_iff.mp hslice
      simp only [cons_append, sameString, get_bind, hbyte, Ne.symm hc, if_false]
      rfl
    | cons b n =>
      obtain ⟨hbyte, htail⟩ := slice_succ_eq_cons_iff.mp hslice
      simp only [cons_append, sameString, get_bind, hbyte]
      by_cases hb : b = c
      · subst hb
        rw [if_pos rfl, ih htail (forall_mem_cons.mp hn).2 hrest]
        simp
      · rw [if_neg hb]
        simp [hb]

end Reading

/-- Where the fields are. -/
structure ElfClass.Sound (cls : ElfClass) : Prop where
  word : 0 < cls.word
  ident : 6 ≤ cls.ehdrSize
  shoff : cls.shoffAt + cls.word ≤ cls.ehdrSize
  shnum : cls.shnumAt + 2 ≤ cls.ehdrSize
  shstrndx : cls.shstrndxAt + 2 ≤ cls.ehdrSize
  type : 8 ≤ cls.shdrSize
  offset : cls.offsetAt + cls.word ≤ cls.shdrSize
  size : cls.sizeAt + cls.word ≤ cls.shdrSize
  link : cls.linkAt + 4 ≤ cls.shdrSize

theorem ElfClass.sound {cls : ElfClass} (h : cls ∈ [elf32, elf64]) : cls.Sound := by
  simp only [mem_cons, not_mem_nil, or_false] at h
  rcases h with rfl | rfl
  · constructor <;> decide
  · constructor <;> decide

/-- The index of a section with this name. -/
def Layout.find (l : Layout) (name : CString) : Option ℕ :=
  (List.range l.num).find? fun i => l.name i = name

section Sections

variable {cls : ElfClass} {file : CString} {l : Layout}

/-- A field of the header of a section is in the file. -/
theorem Layout.Fits.field_le (h : l.Fits cls file.length) {i k w : ℕ} (hi : i < l.num)
    (hk : k + w ≤ cls.shdrSize) : l.shoff + i * cls.shdrSize + k + w ≤ file.length := by
  have htable := h.table
  have hmul : (i + 1) * cls.shdrSize ≤ l.num * cls.shdrSize := Nat.mul_le_mul_right _ hi
  rw [Nat.add_mul, Nat.one_mul] at hmul
  omega

/-- A field of the first header is in the file. -/
theorem Layout.Fits.first_le (h : l.Fits cls file.length) {k w : ℕ} (hk : k + w ≤ cls.shdrSize) :
    l.shoff + k + w ≤ file.length := by
  simpa using h.field_le h.num_pos hk

variable (hcls : cls.Sound) (hfits : l.Fits cls file.length) (hof : l.IsOf cls file)
  {name : CString}
include hcls hfits hof

theorem sectionTurn_eq (hname : name.NulFree) {i : ℕ} (hi : i < l.num) :
    sectionTurn cls name l.shoff l.strndx l.num i file =
      some (.ok (if l.name i = name then .inr (some i) else .inl (i + 1)), file) := by
  have hstr : readField (l.shoff + l.strndx * cls.shdrSize + cls.offsetAt) cls.word file =
      some (.ok (l.offset l.strndx), file) := by
    rw [readField_eq (hfits.field_le hfits.strndx_lt hcls.offset), hof.offset _ hfits.strndx_lt]
  have hoff : readField (l.shoff + i * cls.shdrSize) 4 file =
      some (.ok (l.nameOffset i), file) := by
    have hle : l.shoff + i * cls.shdrSize + 0 + 4 ≤ file.length :=
      hfits.field_le hi (le_trans (by decide) hcls.type)
    rw [Nat.add_zero] at hle
    rw [readField_eq hle, hof.nameOffset i hi]
  rw [sectionTurn, if_pos hi, bind_of_ok hstr, bind_of_ok hoff,
    bind_of_ok (sameString_eq (hof.name i hi) (hof.nulFree i hi) hname)]
  by_cases h : l.name i = name
  · rw [if_pos h, if_pos (decide_eq_true h)]
    rfl
  · rw [if_neg h, if_neg (by simpa using h)]
    rfl

/-- The loop finds the first section with the name. -/
theorem loop_sectionTurn (hname : name.NulFree) {n i k : ℕ} (hn : i + n = l.num) (hk : n < k) :
    Prog.loop (sectionTurn cls name l.shoff l.strndx l.num) k i file =
      some (.ok ((List.range' i n).find? fun i => l.name i = name), file) := by
  obtain ⟨k, rfl⟩ := Nat.exists_eq_add_one.mpr (Nat.zero_lt_of_lt hk)
  induction n generalizing i k with
  | zero =>
    refine loop_done ?_
    rw [sectionTurn, if_neg (by omega)]
    rfl
  | succ n ih =>
    have hturn := sectionTurn_eq hcls hfits hof hname (show i < l.num by omega)
    by_cases h : l.name i = name
    · rw [if_pos h] at hturn
      rw [loop_done hturn, range'_succ, find?_cons_of_pos (by simpa using h)]
    · rw [if_neg h] at hturn
      obtain ⟨k, rfl⟩ := Nat.exists_eq_add_one_of_ne_zero (show k ≠ 0 by omega)
      rw [loop_next hturn, range'_succ, find?_cons_of_neg (by simpa using h),
        ih (by omega) k (by omega)]

theorem stringIndex_eq :
    stringIndex cls l.shoff (field file cls.shstrndxAt 2) file = some (.ok l.strndx, file) := by
  rw [stringIndex]
  rcases hof.strndx.2 with ⟨heq, hne⟩ | ⟨heq, hlink⟩
  · rw [heq, if_neg hne]
    rfl
  · rw [if_pos heq, readField_eq (hfits.first_le hcls.link), hlink]

theorem sectionCount_eq : sectionCount cls l.shoff file = some (.ok l.num, file) := by
  have hheader : cls.ehdrSize ≤ file.length := by
    have := hfits.header
    have := hfits.table
    omega
  rw [sectionCount, bind_of_ok (readField_eq (le_trans hcls.shnum hheader))]
  rcases hof.num with heq | ⟨heq, hsize⟩
  · rw [heq, if_neg hfits.num_pos.ne']
    rfl
  · rw [if_pos heq, bind_of_ok (readField_eq (hfits.first_le hcls.size)), hsize,
      Nat.mod_eq_of_lt hfits.num_lt]
    rfl

/-- What is found of a section. -/
def Layout.place (l : Layout) (i : ℕ) : Option (ℕ × ℤ) :=
  if l.size i > 0 then some (l.offset i, (l.size i : ℤ).bmod (2 ^ 32)) else none

theorem sectionPlace_eq {i : ℕ} (hi : i < l.num) :
    sectionPlace cls l.shoff i file = some (.ok (l.place i), file) := by
  rw [sectionPlace, bind_of_ok (readField_eq (hfits.field_le hi hcls.size)), hof.size i hi,
    Layout.place]
  split_ifs with hsize
  · rw [bind_of_ok (readField_eq (hfits.field_le hi hcls.offset)), hof.offset i hi]
    rfl
  · rfl

theorem findSection_eq (hname : name.NulFree) :
    findSection cls name l.shoff (field file cls.shstrndxAt 2) file =
      some (.ok ((l.find name).bind l.place), file) := by
  have hloop := loop_sectionTurn hcls hfits hof hname (Nat.zero_add l.num) (Nat.lt_succ_self l.num)
  rw [← range_eq_range'] at hloop
  rw [findSection, bind_of_ok (stringIndex_eq hcls hfits hof),
    bind_of_ok (sectionCount_eq hcls hfits hof), bind_of_ok hloop, Layout.find]
  cases hfind : (List.range l.num).find? fun i => l.name i = name with
  | none => rfl
  | some i =>
    exact sectionPlace_eq hcls hfits hof (mem_range.mp (mem_of_find?_eq_some hfind))

end Sections

section Update

variable {cls : ElfClass} {file name search replace : CString} {sections : Option Layout}
  {l : Layout} {i : ℕ}

/-- What `FindElfSection` finds in a well-formed file. -/
def findIn (sections : Option Layout) (name : CString) : Option (ℕ × ℤ) :=
  sections.bind fun l => (l.find name).bind l.place

theorem findElfSectionOf_eq (h : WellFormed cls file sections) (hname : name.NulFree) :
    findElfSectionOf cls name file = some (.ok (findIn sections name), file) := by
  have hcls := ElfClass.sound h.cls_mem
  rw [findElfSectionOf, get_bind,
    bind_of_ok (readField_eq (le_trans hcls.shoff h.header)),
    bind_of_ok (readField_eq (le_trans hcls.shstrndx h.header)),
    if_neg (Nat.not_lt.mpr h.header)]
  cases hsections : sections with
  | none =>
    rcases h.unnamed hsections with hzero | hzero
    · rw [if_pos (.inl hzero)]
      rfl
    · rw [if_pos hzero]
      split_ifs <;> rfl
  | some l =>
    have hfits := h.fits l hsections
    have hof := h.isOf l hsections
    have hin : ¬(field file cls.shoffAt cls.word = 0 ∨
        file.length - cls.shdrSize < field file cls.shoffAt cls.word) := by
      have hfirst := @Layout.Fits.first_le cls file l hfits 0 cls.shdrSize (Nat.zero_add _).le
      have := hfits.header
      have := hcls.ident
      rw [hof.shoff]
      omega
    rw [if_neg hin, if_neg hof.strndx.1, hof.shoff]
    exact findSection_eq hcls hfits hof hname

theorem findElfSection_eq (h : WellFormed cls file sections) (hname : name.NulFree) :
    findElfSection name file = some (.ok (findIn sections name), file) := by
  have hcls := ElfClass.sound h.cls_mem
  have hsix : 6 ≤ file.length := le_trans hcls.ident h.header
  have hdata : readField 5 1 file = some (.ok 1, file) := by
    rw [readField_eq hsix, h.data]
  have hident : readField 4 1 file = some (.ok cls.ident, file) := by
    rw [readField_eq (Nat.le_of_succ_le hsix), h.ident]
  rw [findElfSection, get_bind, if_neg (not_not.mpr h.magic), bind_of_ok hdata,
    if_neg (not_not.mpr rfl), bind_of_ok hident]
  have hmem := h.cls_mem
  simp only [mem_cons, not_mem_nil, or_false] at hmem
  rcases hmem with rfl | rfl
  · exact findElfSectionOf_eq h hname
  · exact findElfSectionOf_eq h hname

/-- The number of positions in a section of this size that are looked at. -/
def positions (size : ℕ) (search : CString) : ℕ :=
  ((size : ℤ).bmod (2 ^ 32)).toNat - search.length - 1

/-- A section of a file, updated. -/
def Layout.update (l : Layout) (file : CString) (search replace : CString) (i : ℕ) : CString :=
  splice file (l.offset i) (scanReplace search replace (positions (l.size i) search)
    (slice file (l.offset i) (l.size i)))

/-- A file, with the sections of this name updated. -/
def updateIn (sections : Option Layout) (file name search replace : CString) : CString :=
  match sections.bind fun l => (l.find name).map fun i => l.update file search replace i with
  | none => file
  | some file' => file'

/-- The section that is found has this name, and is in the file. -/
theorem Layout.mem_of_find (h : l.find name = some i) : i < l.num ∧ l.name i = name :=
  ⟨mem_range.mp (mem_of_find?_eq_some h), by simpa using find?_some h⟩

theorem Layout.inside_of_find {fileSize : ℕ} (hfits : l.Fits cls fileSize)
    (hname : name ∈ debugSections) (h : l.find name = some i) :
    l.offset i + l.size i ≤ fileSize := by
  obtain ⟨hi, rfl⟩ := Layout.mem_of_find h
  exact hfits.inside i hi (hfits.debug i hi hname)

theorem toNat_bmod_le (size : ℕ) : ((size : ℤ).bmod (2 ^ 32)).toNat ≤ size := by
  rw [Int.bmod_def]
  split <;> omega

/-- Nothing is looked at. -/
theorem Layout.update_of_positions
    (hinside : l.offset i + l.size i ≤ file.length) (h : positions (l.size i) search = 0) :
    l.update file search replace i = file := by
  rw [Layout.update, h, scanReplace, splice_slice hinside]

/-- What is done to a section that was found. -/
theorem placed_update_eq
    (hinside : l.offset i + l.size i ≤ file.length) (hlen : replace.length = search.length) :
    (match l.place i with
      | none => pure ()
      | some (base, size) =>
        if size > 0 then replaceString base size.toNat search replace else pure () :
        Prog CString Fault Unit) file = some (.ok (), l.update file search replace i) := by
  have hle := toNat_bmod_le (l.size i)
  rw [Layout.place]
  by_cases hsize : l.size i > 0
  · rw [if_pos hsize]
    by_cases hpos : (l.size i : ℤ).bmod (2 ^ 32) > 0
    · simp only [hpos, if_true]
      rw [replaceString, get_bind, if_neg (not_not.mpr hlen)]
      generalize hn : ((l.size i : ℤ).bmod (2 ^ 32)).toNat = n at hle
      by_cases hshort : n < search.length + 1
      · rw [if_pos hshort, Layout.update_of_positions hinside (by rw [positions, hn]; omega)]
        rfl
      · rw [if_neg hshort, if_pos (by omega)]
        obtain ⟨k, hk⟩ := Nat.exists_eq_add_of_le hle
        have hslice : (slice file (l.offset i) n).length = n := length_slice (by omega)
        have hscan : scanReplace search replace (n - search.length - 1)
            (slice file (l.offset i) (l.size i)) =
            scanReplace search replace (n - search.length - 1) (slice file (l.offset i) n) ++
              slice file (l.offset i + n) k := by
          rw [hk, slice_add, scanReplace_append hlen (by rw [hslice]; omega)]
        have hlength := length_scanReplace hlen (n - search.length - 1) (slice file (l.offset i) n)
        rw [hslice] at hlength
        rw [Layout.update, positions, hn, hscan, splice_append_slice hlength (by omega)]
        rfl
    · simp only [hpos, if_false]
      rw [Layout.update_of_positions hinside (by rw [positions]; omega)]
      rfl
  · rw [if_neg hsize, Layout.update_of_positions hinside (by rw [positions]; omega)]
    rfl

theorem updateSection_eq (h : WellFormed cls file sections)
    (hname : name ∈ debugSections) (hlen : replace.length = search.length) :
    updateSection name search replace file =
      some (.ok (), updateIn sections file name search replace) := by
  have hnul : name.NulFree := by
    have hall : ∀ name ∈ debugSections, name.NulFree := by decide
    exact hall name hname
  rw [updateSection, bind_of_ok (findElfSection_eq h hnul), findIn, updateIn]
  cases hsections : sections with
  | none => rfl
  | some l =>
    cases hfind : l.find name with
    | none =>
      simp only [Option.bind_some, hfind]
      rfl
    | some i =>
      simp only [Option.bind_some, hfind, Option.map_some]
      exact placed_update_eq (l.inside_of_find (h.fits l hsections) hname hfind) hlen

/-- Bytes that are apart from what is replaced stay. -/
theorem slice_splice_of_apart {new : CString} {base n off len k w : ℕ} (hnew : new.length = n)
    (hinside : base + n ≤ file.length) (h : Apart base n off len) (hk : off ≤ k)
    (hw : k + w ≤ off + len) : slice (splice file base new) k w = slice file k w := by
  subst hnew
  rcases h with hzero | hzero | hle | hle
  · rw [length_eq_zero_iff.mp hzero, splice, append_nil, length_nil, Nat.add_zero,
      take_append_drop]
  · obtain rfl : w = 0 := by omega
    rfl
  · exact slice_splice_of_disjoint hinside (by omega)
  · exact slice_splice_of_disjoint hinside (by omega)

/-- **Replacing the bytes of one section does not change what is found of the others.** -/
theorem WellFormed.splice (h : WellFormed cls file (some l))
    (hi : i < l.num) (hname : l.name i ∈ debugSections) {new : CString}
    (hnew : new.length = l.size i) : WellFormed cls (splice file (l.offset i) new) (some l) := by
  have hcls := ElfClass.sound h.cls_mem
  have hfits := h.fits l rfl
  have hof := h.isOf l rfl
  have hbytes := hfits.debug i hi hname
  have hinside := hfits.inside i hi hbytes
  have hlength : (Distcc.splice file (l.offset i) new).length = file.length :=
    length_splice (hnew.symm ▸ hinside)
  have hheader {k w : ℕ} (hk : k + w ≤ cls.ehdrSize) :
      slice (Distcc.splice file (l.offset i) new) k w = slice file k w := by
    have hapart : Apart (l.offset i) (l.size i) 0 cls.ehdrSize :=
      (hfits.behind i hi hbytes).imp id fun hle => .inr (.inr (by rwa [Nat.zero_add]))
    exact slice_splice_of_apart hnew hinside hapart (Nat.zero_le k) (by rwa [Nat.zero_add])
  have htable {j k w : ℕ} (hj : j < l.num) (hk : k + w ≤ cls.shdrSize) :
      field (Distcc.splice file (l.offset i) new) (l.shoff + j * cls.shdrSize + k) w =
        field file (l.shoff + j * cls.shdrSize + k) w := by
    have hmul : (j + 1) * cls.shdrSize ≤ l.num * cls.shdrSize := Nat.mul_le_mul_right _ hj
    rw [Nat.add_mul, Nat.one_mul] at hmul
    exact congrArg littleEndian (slice_splice_of_apart hnew hinside
      (hfits.apart_table i hi hbytes) (by omega) (by omega))
  have hfirst {k w : ℕ} (hk : k + w ≤ cls.shdrSize) :
      field (Distcc.splice file (l.offset i) new) (l.shoff + k) w = field file (l.shoff + k) w := by
    simpa using htable hfits.num_pos hk
  have hstrings : i ≠ l.strndx := fun heq => hfits.strings_name (heq ▸ hname)
  have hident := hcls.ident
  have htype := hcls.type
  refine ⟨h.cls_mem, ?_, ?_, ?_, hlength.symm ▸ h.header,
    fun hnone => absurd hnone (Option.some_ne_none l), ?_, ?_⟩
  · rw [hheader (by omega), h.magic]
  · rw [field, hheader (by omega)]
    exact h.ident
  · rw [field, hheader (by omega)]
    exact h.data
  · rintro _ ⟨⟩
    rw [hlength]
    exact hfits
  · rintro _ ⟨⟩
    exact
      { shoff := by rw [field, hheader hcls.shoff]; exact hof.shoff
        strndx := by
          rw [field, hheader hcls.shstrndx, hfirst hcls.link]
          exact hof.strndx
        num := by
          rw [field, hheader hcls.shnum, hfirst hcls.size]
          exact hof.num
        nameOffset := fun j hj => (htable (k := 0) hj (by omega)).trans (hof.nameOffset j hj)
        offset := fun j hj => (htable hj hcls.offset).trans (hof.offset j hj)
        size := fun j hj => (htable hj hcls.size).trans (hof.size j hj)
        hasBytes := fun j hj => by
          rw [htable hj (by omega)]
          exact hof.hasBytes j hj
        nulFree := hof.nulFree
        name := fun j hj => by
          have hle := hfits.names j hj
          rw [slice_splice_of_apart hnew hinside
            (hfits.apart i hi _ hfits.strndx_lt hstrings hbytes hfits.strings)
            (by omega) (by omega)]
          exact hof.name j hj }

/-- A section with debugging information is found. -/
theorem Layout.Fits.find_name {fileSize : ℕ} (hfits : l.Fits cls fileSize)
    (hi : i < l.num) (hname : l.name i ∈ debugSections) : l.find (l.name i) = some i := by
  cases hfind : l.find (l.name i) with
  | none => exact absurd (find?_eq_none.mp hfind i (mem_range.mpr hi)) (by simp)
  | some j =>
    obtain ⟨hj, heq⟩ := Layout.mem_of_find hfind
    rw [hfits.unique i hi j hj hname heq.symm]

/-- **What an update does to a file**: the section with the name is changed by the loop, and
nothing else. -/
structure Updated (l : Layout) (name search replace file file' : CString) : Prop where
  length : file'.length = file.length
  outside : ∀ k, (∀ i < l.num, l.name i = name →
    ¬(l.offset i ≤ k ∧ k < l.offset i + l.size i)) → file'[k]? = file[k]?
  changed : ∀ i < l.num, l.name i = name → slice file' (l.offset i) (l.size i) =
    scanReplace search replace (positions (l.size i) search) (slice file (l.offset i) (l.size i))
  kept : ∀ i < l.num, l.name i ∈ debugSections → l.name i ≠ name →
    slice file' (l.offset i) (l.size i) = slice file (l.offset i) (l.size i)

theorem updateIn_spec (h : WellFormed cls file (some l)) (hname : name ∈ debugSections)
    (hlen : replace.length = search.length) :
    WellFormed cls (updateIn (some l) file name search replace) (some l) ∧
      Updated l name search replace file (updateIn (some l) file name search replace) := by
  have hfits := h.fits l rfl
  rw [updateIn, Option.bind_some]
  cases hfind : l.find name with
  | none =>
    have hnone : ∀ i < l.num, l.name i ≠ name := fun i hi heq => by
      rw [← heq, hfits.find_name hi (heq ▸ hname)] at hfind
      cases hfind
    exact ⟨h, rfl, fun _ _ => rfl, fun i hi heq => absurd heq (hnone i hi), fun _ _ _ _ => rfl⟩
  | some i =>
    obtain ⟨hi, rfl⟩ := Layout.mem_of_find hfind
    have hbytes := hfits.debug i hi hname
    have hinside := hfits.inside i hi hbytes
    have hnew : (scanReplace search replace (positions (l.size i) search)
        (slice file (l.offset i) (l.size i))).length = l.size i := by
      rw [length_scanReplace hlen, length_slice hinside]
    have hle := hnew.symm ▸ hinside
    refine ⟨h.splice hi hname hnew, length_splice hle, fun k hk => ?_, fun j hj heq => ?_,
      fun j hj hdebug hne => ?_⟩
    · have hout := hk i hi rfl
      refine getElem?_splice_of_outside hle ?_
      rw [hnew]
      omega
    · obtain rfl := hfits.unique i hi j hj hname heq.symm
      have hself := @slice_splice_self _ file (scanReplace search replace
        (positions (l.size i) search) (slice file (l.offset i) (l.size i))) (l.offset i) (by omega)
      rwa [hnew] at hself
    · have hij : i ≠ j := fun heq => hne (heq ▸ rfl)
      exact slice_splice_of_apart hnew hinside
        (hfits.apart i hi j hj hij hbytes (hfits.debug j hj hdebug)) le_rfl le_rfl

/-- **The paths are replaced** in the sections with debugging information, and nothing else is
changed. -/
structure DebugReplaced (sections : Option Layout) (search replace file file' : CString) :
    Prop where
  length : file'.length = file.length
  outside : ∀ k, (∀ l ∈ sections, ∀ i < l.num, l.name i ∈ debugSections →
    ¬(l.offset i ≤ k ∧ k < l.offset i + l.size i)) → file'[k]? = file[k]?
  replaced : ∀ l ∈ sections, ∀ i < l.num, l.name i ∈ debugSections →
    slice file' (l.offset i) (l.size i) =
      replaceAll search replace (slice file (l.offset i) (l.size i))

theorem length_clientPathPlusSlashes {clientPath serverPath : CString}
    (h : clientPath.length ≤ serverPath.length) :
    (clientPathPlusSlashes clientPath serverPath).length = serverPath.length := by
  rw [clientPathPlusSlashes, length_append, length_replicate]
  omega

/-- What is in a section in the end is what the loop makes of it. -/
theorem dccFixDebugInfo_spec (h : WellFormed cls file (some l))
    {clientPath serverPath : CString} (hlen : clientPath.length ≤ serverPath.length) :
    ∃ file', dccFixDebugInfo clientPath serverPath file = some (.ok (), file') ∧
      file'.length = file.length ∧
      (∀ k, (∀ i < l.num, l.name i ∈ debugSections →
        ¬(l.offset i ≤ k ∧ k < l.offset i + l.size i)) → file'[k]? = file[k]?) ∧
      ∀ i < l.num, l.name i ∈ debugSections → slice file' (l.offset i) (l.size i) =
        scanReplace serverPath (clientPathPlusSlashes clientPath serverPath)
          (positions (l.size i) serverPath) (slice file (l.offset i) (l.size i)) := by
  have hpadded := length_clientPathPlusSlashes hlen
  have hinfo : lit ".debug_info" ∈ debugSections := mem_cons_self
  have hstr : lit ".debug_str" ∈ debugSections := mem_cons_of_mem _ mem_cons_self
  have hdiffer : lit ".debug_info" ≠ lit ".debug_str" := by decide
  obtain ⟨h1, hupdated1⟩ := updateIn_spec h hinfo hpadded
  obtain ⟨-, hupdated2⟩ := updateIn_spec h1 hstr hpadded
  refine ⟨_, ?_, hupdated2.length.trans hupdated1.length, fun k hk => ?_, fun i hi hdebug => ?_⟩
  · rw [dccFixDebugInfo, if_pos hlen, bind_of_ok (updateSection_eq h hinfo hpadded),
      updateSection_eq h1 hstr hpadded]
  · rw [hupdated2.outside k fun i hi heq => hk i hi (heq ▸ hstr),
      hupdated1.outside k fun i hi heq => hk i hi (heq ▸ hinfo)]
  · have hname := hdebug
    rw [debugSections, mem_cons, mem_singleton] at hname
    rcases hname with hname | hname
    · rw [hupdated2.kept i hi hdebug (hname ▸ hdiffer), hupdated1.changed i hi hname]
    · rw [hupdated2.changed i hi hname, hupdated1.kept i hi hdebug (hname ▸ hdiffer.symm)]

/-- When the loop does to a section what it should. -/
theorem section_replaced_iff (hfits : l.Fits cls file.length) (hi : i < l.num)
    (hname : l.name i ∈ debugSections)
    (hlen : replace.length = search.length) :
    scanReplace search replace (positions (l.size i) search) (slice file (l.offset i) (l.size i)) =
        replaceAll search replace (slice file (l.offset i) (l.size i)) ↔
      replace = search ∨ Faithful search replace (positions (l.size i) search)
        (occurrences search (slice file (l.offset i) (l.size i))) := by
  refine scanReplace_eq_iff hlen fun hpos => ?_
  have hle := toNat_bmod_le (l.size i)
  rw [length_slice (hfits.inside i hi (hfits.debug i hi hname))]
  rw [positions] at hpos ⊢
  omega

/-- **When the paths are replaced**: if they are the same, or if in no section an occurrence is
missed or made up. -/
theorem debugInfoFixed_iff (h : WellFormed cls file sections) {clientPath serverPath : CString}
    (hlen : clientPath.length ≤ serverPath.length) :
    (∃ file', dccFixDebugInfo clientPath serverPath file = some (.ok (), file') ∧
        DebugReplaced sections serverPath (clientPathPlusSlashes clientPath serverPath) file
          file') ↔
      clientPathPlusSlashes clientPath serverPath = serverPath ∨
        ∀ l ∈ sections, ∀ i < l.num, l.name i ∈ debugSections →
          Faithful serverPath (clientPathPlusSlashes clientPath serverPath)
            (positions (l.size i) serverPath)
            (occurrences serverPath (slice file (l.offset i) (l.size i))) := by
  have hpadded := length_clientPathPlusSlashes hlen
  cases hsections : sections with
  | none =>
    subst hsections
    refine iff_of_true ⟨file, ?_, rfl, fun _ _ => rfl, nofun⟩ (.inr nofun)
    have hupdate {name : CString} (hname : name ∈ debugSections) :=
      updateSection_eq h hname hpadded
    rw [dccFixDebugInfo, if_pos hlen, bind_of_ok (hupdate mem_cons_self)]
    exact hupdate (mem_cons_of_mem _ mem_cons_self)
  | some l =>
    subst hsections
    obtain ⟨file', hrun, hlength, hout, hin⟩ := dccFixDebugInfo_spec h hlen
    have hstep (i : ℕ) (hi : i < l.num) (hname : l.name i ∈ debugSections) :=
      section_replaced_iff (h.fits l rfl) hi hname hpadded
    have hreplaced : (∃ file', dccFixDebugInfo clientPath serverPath file = some (.ok (), file') ∧
        DebugReplaced (some l) serverPath (clientPathPlusSlashes clientPath serverPath) file
          file') ↔ ∀ i < l.num, l.name i ∈ debugSections →
          scanReplace serverPath (clientPathPlusSlashes clientPath serverPath)
              (positions (l.size i) serverPath) (slice file (l.offset i) (l.size i)) =
            replaceAll serverPath (clientPathPlusSlashes clientPath serverPath)
              (slice file (l.offset i) (l.size i)) := by
      constructor
      · rintro ⟨file'', hrun'', hdebug⟩
        rw [hrun] at hrun''
        cases hrun''
        intro i hi hname
        rw [← hin i hi hname, hdebug.replaced l rfl i hi hname]
      · intro hall
        refine ⟨file', hrun, hlength, fun k hk => hout k (hk l rfl), ?_⟩
        rintro _ ⟨⟩ i hi hname
        rw [hin i hi hname, hall i hi hname]
    rw [hreplaced]
    by_cases hsame : clientPathPlusSlashes clientPath serverPath = serverPath
    · exact iff_of_true (fun i hi hname => (hstep i hi hname).mpr (.inl hsame)) (.inl hsame)
    · rw [or_iff_right hsame]
      constructor
      · rintro hall _ ⟨⟩ i hi hname
        exact ((hstep i hi hname).mp (hall i hi hname)).resolve_left hsame
      · intro hall i hi hname
        exact (hstep i hi hname).mpr (.inr (hall l rfl i hi hname))

end Update

/-! ### A small file -/

/-- A number of four bytes. -/
def le32 (b : UInt8) : CString := [b, 0, 0, 0]

/-- The header of a section. -/
def sampleSection (name type offset size : UInt8) : CString :=
  le32 name ++ le32 type ++ le32 0 ++ le32 0 ++ le32 offset ++ le32 size ++
    List.replicate 16 0

/-- A file of 32 bits with the names of the sections and with a section `.debug_str` of seven
bytes. -/
def sampleFile (content : CString) : CString :=
  elfMag ++ [1, 1, 1] ++ List.replicate 9 0 ++ [1, 0, 3, 0] ++ le32 1 ++ le32 0 ++ le32 0 ++
    le32 84 ++ le32 0 ++ [52, 0, 0, 0, 0, 0, 40, 0, 3, 0, 1, 0] ++
    (0 :: lit ".shstrtab" ++ 0 :: lit ".debug_str" ++ [0]) ++ content ++ [0, 0, 0] ++
    sampleSection 0 0 0 0 ++ sampleSection 1 3 52 22 ++ sampleSection 11 1 74 7

/-- What it says about its sections. -/
def sampleLayout : Layout where
  shoff := 84
  num := 3
  strndx := 1
  name i := [[], lit ".shstrtab", lit ".debug_str"].getD i []
  nameOffset i := [0, 1, 11].getD i 0
  offset i := [0, 52, 74].getD i 0
  size i := [0, 22, 7].getD i 0
  hasBytes i := [false, true, true].getD i false

theorem forall_lt_three {P : ℕ → Prop} (h0 : P 0) (h1 : P 1) (h2 : P 2) : ∀ i < 3, P i
  | 0, _ => h0
  | 1, _ => h1
  | 2, _ => h2

theorem sampleLayout_fits : sampleLayout.Fits elf32 204 := by
  constructor
  case unique =>
    exact forall_lt_three (fun _ _ h => absurd h (by decide)) (fun _ _ h => absurd h (by decide))
      (forall_lt_three (fun _ h => absurd h (by decide)) (fun _ h => absurd h (by decide))
        fun _ _ => rfl)
  all_goals decide

theorem sampleFile_wellFormed (b₁ b₂ b₃ b₄ b₅ b₆ b₇ : UInt8) :
    WellFormed elf32 (sampleFile [b₁, b₂, b₃, b₄, b₅, b₆, b₇]) (some sampleLayout) := by
  have hof : sampleLayout.IsOf elf32 (sampleFile [b₁, b₂, b₃, b₄, b₅, b₆, b₇]) :=
    { shoff := rfl
      strndx := ⟨fun h => absurd (show 1 = 0 from h) (by decide), .inl ⟨rfl, by decide⟩⟩
      num := .inl rfl
      nameOffset := forall_lt_three rfl rfl rfl
      offset := forall_lt_three rfl rfl rfl
      size := forall_lt_three rfl rfl rfl
      hasBytes := forall_lt_three
        (show false = true ↔ 0 ∉ [0, 8] by decide)
        (show true = true ↔ 3 ∉ [0, 8] by decide)
        (show true = true ↔ 1 ∉ [0, 8] by decide)
      nulFree := by decide
      name := forall_lt_three rfl rfl rfl }
  refine ⟨mem_cons_self, rfl, rfl, rfl, show 52 ≤ 204 by decide, nofun, ?_, ?_⟩
  · rintro _ ⟨⟩
    exact sampleLayout_fits
  · rintro _ ⟨⟩
    exact hof

/-- A path in the middle of a section. -/
def middlePath : CString := lit "/srv/a" ++ [0]

/-- A path at the end of a section, with its `NUL`. -/
def lastPath : CString := lit "/a/srv" ++ [0]

theorem middlePath_faithful :
    Faithful (lit "/srv") (lit "////") (positions 7 (lit "/srv"))
      (occurrences (lit "/srv") middlePath) := by
  have hoccurrences : occurrences (lit "/srv") middlePath = [(0, lit "/a" ++ [0])] := by decide
  rw [hoccurrences, Faithful, forall_mem_singleton]
  refine ⟨by decide, fun t _ ht _ => ?_⟩
  have hall : ∀ t < 4, ¬lit "/srv" <+: (lit "////").drop t ++ (lit "/a" ++ [0]) := by decide
  exact hall t ht

theorem debugInfoFixed_iff_middlePath :
    ∃ file', dccFixDebugInfo (lit "/") (lit "/srv") (sampleFile middlePath) =
        some (.ok (), file') ∧
      DebugReplaced (some sampleLayout) (lit "/srv") (lit "////") (sampleFile middlePath)
          file' := by
  have h : WellFormed elf32 (sampleFile middlePath) (some sampleLayout) :=
    sampleFile_wellFormed ..
  refine (debugInfoFixed_iff h (by decide)).mpr (.inr ?_)
  rintro _ ⟨⟩
  refine forall_lt_three (fun h => absurd h (by decide)) (fun h => absurd h (by decide)) fun _ => ?_
  exact middlePath_faithful

/-- **A path at the end of a section is not replaced.** -/
theorem lastPath_not_fixed :
    WellFormed elf32 (sampleFile lastPath) (some sampleLayout) ∧
      ¬∃ file', dccFixDebugInfo (lit "/") (lit "/srv") (sampleFile lastPath) =
          some (.ok (), file') ∧
        DebugReplaced (some sampleLayout) (lit "/srv") (lit "////") (sampleFile lastPath)
            file' := by
  have h : WellFormed elf32 (sampleFile lastPath) (some sampleLayout) := sampleFile_wellFormed ..
  refine ⟨h, ?_⟩
  rintro ⟨file', hrun, hreplaced⟩
  obtain ⟨file'', hrun', -, -, hscan⟩ :=
    @dccFixDebugInfo_spec _ _ _ h (lit "/") (lit "/srv") (by decide)
  cases hrun.symm.trans hrun'
  have hloop := hscan 2 (by decide) (by decide)
  rw [hreplaced.replaced sampleLayout rfl 2 (by decide) (by decide)] at hloop
  exact absurd hloop (by decide)

end Distcc
